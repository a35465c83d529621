import Xv6.Kernel.Discipline

/-!
# Every act keeps the invariant

One lemma for each act: from a state that satisfies `Invariant`, an act that its
process may perform and that answers leads to a state that satisfies it again,
with the process's type-state moved to `next`.  Nothing is assumed of the other
processes but that they follow the discipline.
-/

namespace Xv6.Kernel

open Xv6.Verified
open Exec
open Finset

/-! ## Putting the parts together -/

/-- Files that count alike. -/
def FilesAlike (k k' : State) : Prop :=
  ∀ f, (k'.ftable f).ref = (k.ftable f).ref ∧ (k'.ftable f).kind = (k.ftable f).kind ∧
    (k'.ftable f).ip = (k.ftable f).ip

theorem FilesAlike.of_eq {k k' : State} (h : k'.ftable = k.ftable) : FilesAlike k k' :=
  fun f => by rw [h]; exact ⟨rfl, rfl, rfl⟩

theorem FilesAlike.holds {k k' : State} (h : FilesAlike k k') (f i : Nat) :
    (k'.ftable f).holds i = (k.ftable f).holds i := by
  obtain ⟨hr, hk, hi⟩ := h f
  simp only [File.holds, hr, hk, hi]

section Step

variable {ts : Nat → TypeState} {k k' : State} {p : Nat} {t : TypeState}

/-- One process changes what it holds. -/
theorem holders_change (ts : Nat → TypeState) (k k' : State) (t : TypeState) (hp : p < NPROC)
    (hpt : ∀ q, q ≠ p → k'.ptable q = k.ptable q)
    (hft : ∀ f i, (k'.ftable f).holds i = (k.ftable f).holds i) (i : Nat) :
    holders (Function.update ts p t) k' i + procHolds (ts p) (k.ptable p) i =
      holders ts k i + procHolds t (k'.ptable p) i := by
  have hsum := sum_change (n := NPROC) (f := fun q => procHolds (ts q) (k.ptable q) i)
    (g := fun q => procHolds (Function.update ts p t q) (k'.ptable q) i) hp (fun q hq => by
      rw [Function.update_of_ne hq, hpt q hq])
  simp only [Function.update_self] at hsum
  simp only [holders, hft]
  omega

theorem live_slot (h : Counts ts k) (hp : (k.ptable p).state = .live) : p < NPROC :=
  h.slots p (by rw [hp]; decide)

/-- Counting after an act that leaves the tables alone. -/
theorem Counts.step (h : Counts ts k) (hp : (k.ptable p).state = .live)
    (hpt : k'.ptable = k.ptable) (hft : FilesAlike k k')
    (hrefs : ∀ i, (k'.icache i).ref + procHolds (ts p) (k.ptable p) i =
      (k.icache i).ref + procHolds t (k.ptable p) i)
    (hvia : ∀ i, i ∈ t.via → ∃ fd f, (k.ptable p).ofile fd = some f ∧
      (k.ftable f).kind = .inode ∧ (k.ftable f).ip = i)
    (hchild : t.child = (ts p).child) : Counts (Function.update ts p t) k' := by
  have hchild' : ∀ q, (Function.update ts p t q).child = (ts q).child := by
    intro q
    by_cases hq : q = p
    · rw [hq, Function.update_self, hchild]
    · rw [Function.update_of_ne hq]
  refine
    { refs := fun i => ?_
      files := fun f hf => ?_
      fds := by rw [hpt]; exact h.fds
      slots := by rw [hpt]; exact h.slots
      owner := fun q hq => ?_
      blank := by rw [hpt]; exact h.blank
      via := fun q i hi => ?_
      lent := fun q hq => ?_
      child := fun q c n hc => ?_
      parent := fun q r c n m hq hr => ?_ }
  · have hchange := holders_change ts k k' t (live_slot h hp)
      (fun q _ => by rw [hpt]) hft.holds i
    rw [hpt] at hchange
    have := hrefs i
    have := h.refs i
    omega
  · rw [(hft f).1, h.files f hf, pointers, pointers, hpt]
  · by_cases hqp : q = p
    · rw [hqp]
      exact live_slot h hp
    · rw [Function.update_of_ne hqp] at hq
      exact h.owner q hq
  · rw [hpt]
    have hfile : ∀ f, (k'.ftable f).kind = (k.ftable f).kind ∧
        (k'.ftable f).ip = (k.ftable f).ip := fun f => (hft f).2
    simp only [hfile]
    by_cases hq : q = p
    · rw [hq, Function.update_self] at hi
      rw [hq]
      exact hvia i hi
    · rw [Function.update_of_ne hq] at hi
      exact h.via q i hi
  · rw [hpt]
    by_cases hqp : q = p
    · rw [hqp, hp]
    · rw [Function.update_of_ne hqp] at hq
      exact h.lent q hq
  · rw [hchild'] at hc
    rw [hpt]
    exact h.child q c n hc
  · rw [hchild'] at hq hr
    exact h.parent q r c n m hq hr

/-- Counting after an act that touches neither tables nor references. -/
theorem Counts.same (h : Counts ts k) (hp : (k.ptable p).state = .live)
    (hpt : k'.ptable = k.ptable) (hft : FilesAlike k k')
    (hrefs : ∀ i, (k'.icache i).ref = (k.icache i).ref)
    (ht : t.refs = (ts p).refs ∧ t.via = (ts p).via ∧ t.lent = (ts p).lent ∧
      t.child = (ts p).child) : Counts (Function.update ts p t) k' := by
  refine h.step hp hpt hft (fun i => ?_) (fun i hi => ?_) ht.2.2.2
  · rw [hrefs, procHolds, procHolds, ht.1, ht.2.2.1]
  · exact h.via p i (by rwa [ht.2.1] at hi)

/-- Locks after an act that touches no busy flag. -/
theorem Locks.same (h : Locks ts k) (hlog : k'.log.busy = k.log.busy)
    (hbusy : ∀ i, (k'.icache i).busy = (k.icache i).busy)
    (hvalid : ∀ i, (k.icache i).busy ≠ none → (k.icache i).valid = true →
      (k'.icache i).valid = true)
    (htrans : t.trans = (ts p).trans) (hlocks : t.locks = (ts p).locks)
    (hheld : ∀ i, i ∈ t.locks → i ∈ t.refs ∨ i ∈ t.via) :
    Locks (Function.update ts p t) k' := by
  have htrans' : ∀ q, (Function.update ts p t q).trans = (ts q).trans := by
    intro q
    by_cases hq : q = p
    · rw [hq, Function.update_self, htrans]
    · rw [Function.update_of_ne hq]
  have hlocks' : ∀ q, (Function.update ts p t q).locks = (ts q).locks := by
    intro q
    by_cases hq : q = p
    · rw [hq, Function.update_self, hlocks]
    · rw [Function.update_of_ne hq]
  refine ⟨fun q => ?_, fun q i => ?_, fun q => ?_, fun i hi => ?_, fun q i hi => ?_⟩
  · rw [hlog, htrans']
    exact h.trans q
  · rw [hbusy, hlocks']
    exact h.locks q i
  · rw [hlocks']
    exact h.nodup q
  · rw [hbusy] at hi
    exact hvalid i hi (h.valid i hi)
  · by_cases hq : q = p
    · rw [hq, Function.update_self] at hi ⊢
      exact hheld i hi
    · rw [Function.update_of_ne hq] at hi ⊢
      exact h.held q i hi

/-- One busy flag changes: inode `j` is locked or unlocked by `p`. -/
theorem Locks.change (h : Locks ts k) (hlog : k'.log.busy = k.log.busy) {j : Nat}
    (hbusy : ∀ i, i ≠ j → (k'.icache i).busy = (k.icache i).busy)
    (hvalid : ∀ i, (k'.icache i).busy ≠ none → (k'.icache i).valid = true)
    (hj : ∀ q, (k'.icache j).busy = some q ↔ q = p ∧ j ∈ t.locks)
    (hfree : ∀ q, q ≠ p → j ∉ (ts q).locks)
    (htrans : t.trans = (ts p).trans) (hlocks : ∀ i, i ≠ j → (i ∈ t.locks ↔ i ∈ (ts p).locks))
    (hnodup : t.locks.Nodup) (hheld : ∀ i, i ∈ t.locks → i ∈ t.refs ∨ i ∈ t.via) :
    Locks (Function.update ts p t) k' := by
  refine ⟨fun q => ?_, fun q i => ?_, fun q => ?_, hvalid, fun q i hi => ?_⟩
  · rw [hlog, h.trans q]
    by_cases hq : q = p
    · rw [hq, Function.update_self, htrans]
    · rw [Function.update_of_ne hq]
  · by_cases hij : i = j
    · subst hij
      rw [hj q]
      by_cases hq : q = p
      · simp [hq]
      · simp [hq, hfree q hq]
    · rw [hbusy i hij, h.locks q i]
      by_cases hq : q = p
      · rw [hq, Function.update_self, hlocks i hij]
      · rw [Function.update_of_ne hq]
  · by_cases hq : q = p
    · rw [hq, Function.update_self]
      exact hnodup
    · rw [Function.update_of_ne hq]
      exact h.nodup q
  · by_cases hq : q = p
    · rw [hq, Function.update_self] at hi ⊢
      exact hheld i hi
    · rw [Function.update_of_ne hq] at hi ⊢
      exact h.held q i hi

/-- A process with an open file is in the table. -/
theorem Counts.slot_of_open (h : Counts ts k) {fd f : Nat}
    (hfd : (k.ptable p).ofile fd = some f) : p < NPROC := by
  refine h.slots p fun hunused => ?_
  rw [(h.blank p hunused).2 fd] at hfd
  cases hfd

/-- An open descriptor keeps its file's count positive. -/
theorem Counts.file_pos (h : Counts ts k) {fd f : Nat}
    (hfd : (k.ptable p).ofile fd = some f) : 0 < (k.ftable f).ref := by
  obtain ⟨hfdlt, hf⟩ := h.fds p fd f hfd
  have hone := le_sum_range (fun fd => if (k.ptable p).ofile fd = some f then 1 else 0) hfdlt
  have hall := le_sum_range (fun q => (k.ptable q).opens f) (h.slot_of_open hfd)
  simp only [hfd, if_true] at hone
  rw [h.files f hf, pointers]
  exact Nat.lt_of_lt_of_le hone hall

/-- An inode that a process may lock has a reference. -/
theorem Counts.ref_pos (h : Counts ts k) {i : Nat}
    (hi : i ∈ (ts p).refs ∨ i ∈ (ts p).via) : 0 < (k.icache i).ref := by
  rw [h.refs i, holders]
  rcases hi with hi | hi
  · have hslot := h.owner p (List.ne_nil_of_mem hi)
    have hle := le_sum_range (fun q => procHolds (ts q) (k.ptable q) i) hslot
    have hcount : 0 < (ts p).refs.count i := List.count_pos_iff.2 hi
    have hpos : 0 < procHolds (ts p) (k.ptable p) i := by
      simp only [procHolds]
      omega
    exact Nat.lt_of_lt_of_le (Nat.lt_of_lt_of_le hpos hle) (Nat.le_add_right _ _)
  · obtain ⟨fd, f, hfd, hkind, hip⟩ := h.via p i hi
    have hle := le_sum_range (fun f => (k.ftable f).holds i) (h.fds p fd f hfd).2
    have hholds : (k.ftable f).holds i = 1 := if_pos ⟨h.file_pos hfd, hkind, hip⟩
    rw [hholds] at hle
    exact Nat.lt_of_lt_of_le hle (Nat.le_add_left _ _)

/-- An unreferenced inode is not locked. -/
theorem Invariant.idle_of_ref_zero (h : Invariant ts k) {i : Nat}
    (hi : (k.icache i).ref = 0) : (k.icache i).busy = none := by
  cases hb : (k.icache i).busy with
  | none => rfl
  | some q =>
      have hpos := h.counts.ref_pos (h.locks.held q i ((h.locks.locks q i).1 hb))
      omega

end Step

/-! ## Acts on the disk -/

section Acts

variable {ts : Nat → TypeState} {k k' : State} {p : Nat}

/-- Nothing but the disk and the cached inodes changed. -/
theorem Invariant.of_frame (h : Invariant ts k) (hp : (k.ptable p).state = .live)
    (hf : Frame k k') (hwf : k'.starved = false → Wf k') :
    Invariant (Function.update ts p (ts p)) k' :=
  { wf := hwf
    locks := h.locks.same hf.busy (fun i => by rw [hf.icache]) (fun i _ hv => by
      rw [hf.icache]; exact hv) rfl rfl (h.locks.held p)
    counts := h.counts.same hp hf.ptable (.of_eq hf.ftable) (fun i => by rw [hf.icache])
      ⟨rfl, rfl, rfl, rfl⟩ }

/-- Changes outside the file system's disk, locks and tables. -/
theorem Invariant.of_devices (h : Invariant ts k) (n : Nat) :
    Invariant ts { k with devCalls := n } := by
  have hdisk : DiskSame k { k with devCalls := n } :=
    ⟨rfl, rfl, rfl, rfl, rfl, fun _ _ => rfl⟩
  refine ⟨fun hs => (h.wf hs).of_same hdisk fun i hv => ⟨hv, rfl⟩, ?_, ?_⟩
  · exact ⟨h.locks.trans, h.locks.locks, h.locks.nodup, h.locks.valid, h.locks.held⟩
  · exact { h.counts with refs := h.counts.refs, files := h.counts.files }

theorem Invariant.of_cur (h : Invariant ts k) (p : Nat) : Invariant ts { k with cur := p } := by
  have hdisk : DiskSame k { k with cur := p } := ⟨rfl, rfl, rfl, rfl, rfl, fun _ _ => rfl⟩
  refine ⟨fun hs => (h.wf hs).of_same hdisk fun i hv => ⟨hv, rfl⟩, ?_, ?_⟩
  · exact ⟨h.locks.trans, h.locks.locks, h.locks.nodup, h.locks.valid, h.locks.held⟩
  · exact { h.counts with refs := h.counts.refs, files := h.counts.files }

/-- A locked inode is good in the cache. -/
theorem Invariant.valid (h : Invariant ts k) {ip : Nat} (hlock : ip ∈ (ts p).locks) :
    (k.icache ip).valid = true :=
  h.locks.valid ip (by rw [(h.locks.locks p ip).2 hlock]; simp)

/-- Either way of ending a transfer keeps the invariant, given the disk. -/
theorem Invariant.of_transfer (h : Invariant ts k) (hp : (k.ptable p).state = .live)
    (hmoved : Frame k k' ∨ k' = { k with devCalls := k.devCalls + 1 })
    (hwf : Frame k k' → k.starved = false → k'.starved = false → Wf k') :
    Invariant (Function.update ts p (ts p)) k' := by
  rcases hmoved with hf | rfl
  · exact h.of_frame hp hf fun hs => hwf hf (hf.fed hs) hs
  · rw [Function.update_eq_self]
    exact h.of_devices _

theorem Invariant.readi (h : Invariant ts k) (hp : (k.ptable p).state = .live) {ip off n : Nat}
    {r : Option (List UInt8)} (hlock : ip ∈ (ts p).locks) (hoff : off < UINT) (hn : n < UINT)
    (hrun : (Kernel.readi ip off n).run k = .ok r k') :
    Invariant (Function.update ts p (ts p)) k' := by
  refine h.of_transfer hp (ok_of_wp (readi_moves k ip off n) hrun) fun hf hs _ => ?_
  have hwf := h.wf hs
  have hv := h.valid hlock
  rcases InodeType.data_or_dev (hwf.live ip hv) with ht | ht
  · rw [run_readi hwf hv ht hoff hn] at hrun
    cases hrun
    exact hwf
  · rcases ok_of_wp (readi_dev (by rw [hwf.coherent ip hv, ht])) hrun with rfl | rfl
    · exact hwf
    · exact absurd hf.devCalls (by simp)

theorem Invariant.writei (h : Invariant ts k) (hp : (k.ptable p).state = .live) {ip off n : Nat}
    {src : Nat → UInt8} {r : Int} (hlock : ip ∈ (ts p).locks) (hoff : off < UINT)
    (hn : n < UINT) (hrun : (Kernel.writei ip src off n).run k = .ok r k') :
    Invariant (Function.update ts p (ts p)) k' := by
  refine h.of_transfer hp (writei_ok hrun) fun hf hs hs' => ?_
  have hwf := h.wf hs
  have hv := h.valid hlock
  rcases InodeType.data_or_dev (hwf.live ip hv) with ht | ht
  · by_cases hbad : off > (k.dinode ip).size ∨ (off + n) % UINT < off ∨
        (off + n) % UINT > MAXFILE * BSIZE
    · rw [run_writei_error hwf hv ht hbad] at hrun
      cases hrun
      exact hwf
    · have hmax : off + n ≤ MAXFILE * BSIZE := by
        simp only [UINT, MAXFILE, BSIZE] at *
        omega
      exact (ok_of_wp (writei_spec hwf hv ht (by omega) hmax) hrun hs').2.wf
  · rcases ok_of_wp (writei_dev (by rw [hwf.coherent ip hv, ht])) hrun with rfl | rfl
    · exact hwf
    · exact absurd hf.devCalls (by simp)

theorem Invariant.bumpNlink (h : Invariant ts k) (hp : (k.ptable p).state = .live) {ip : Nat}
    {δ : Int} (hlock : ip ∈ (ts p).locks) (hrun : (Kernel.bumpNlink ip δ).run k = .ok () k') :
    Invariant (Function.update ts p (ts p)) k' := by
  have hf := ok_of_wp ((bumpNlink_frame ip δ).wp k) hrun
  exact h.of_frame hp hf fun hs =>
    (ok_of_wp (bumpNlink_spec (δ := δ) (h.wf (hf.fed hs)) (h.valid hlock)) hrun).wf

theorem Invariant.initInode (h : Invariant ts k) (hp : (k.ptable p).state = .live) {ip : Nat}
    {major minor : Int} (hlock : ip ∈ (ts p).locks)
    (hrun : (Kernel.initInode ip major minor).run k = .ok () k') :
    Invariant (Function.update ts p (ts p)) k' := by
  have hf := ok_of_wp ((initInode_frame ip major minor).wp k) hrun
  exact h.of_frame hp hf fun hs => (ok_of_wp (initInode_spec major minor
    (h.wf (hf.fed hs)) (h.valid hlock)) hrun).wf

/-! ## Acts on the log -/

theorem beginTrans_ok (hrun : (beginTrans).run k = .ok () k') :
    k.log.busy = none ∧ k' = { k with log := { k.log with busy := some k.cur } } := by
  unfold beginTrans at hrun
  rw [run_get_bind, run_ite] at hrun
  split at hrun
  · cases hrun
  · rename_i hb
    cases hrun
    exact ⟨by simpa using hb, rfl⟩

/-- The log's busy flag changes hands. -/
theorem Invariant.of_log (h : Invariant ts k) (hp : (k.ptable p).state = .live)
    {t : TypeState} (hdisk : DiskSame k k') (hcache : k'.icache = k.icache)
    (hicopy : k'.icopy = k.icopy) (hft : k'.ftable = k.ftable) (hpt : k'.ptable = k.ptable)
    (hstarved : k'.starved = k.starved) (htrans : ∀ q, k'.log.busy = some q ↔
      (Function.update ts p t q).trans = true)
    (ht : t = { ts p with trans := t.trans }) : Invariant (Function.update ts p t) k' := by
  have hlocks : ∀ q, (Function.update ts p t q).locks = (ts q).locks ∧
      (Function.update ts p t q).refs = (ts q).refs ∧
      (Function.update ts p t q).via = (ts q).via := by
    intro q
    by_cases hq : q = p
    · rw [hq, Function.update_self, ht]
      exact ⟨rfl, rfl, rfl⟩
    · rw [Function.update_of_ne hq]
      exact ⟨rfl, rfl, rfl⟩
  refine ⟨fun hs => (h.wf (hstarved.symm.trans hs)).of_same hdisk fun i hv => ?_,
    ⟨htrans, ?_, ?_, ?_, ?_⟩, ?_⟩
  · rw [hcache] at hv
    rw [hicopy]
    exact ⟨hv, rfl⟩
  · intro q i
    rw [hcache, (hlocks q).1]
    exact h.locks.locks q i
  · intro q
    rw [(hlocks q).1]
    exact h.locks.nodup q
  · rw [hcache]
    exact h.locks.valid
  · intro q i hi
    rw [(hlocks q).1] at hi
    rw [(hlocks q).2.1, (hlocks q).2.2]
    exact h.locks.held q i hi
  · exact h.counts.same hp hpt (.of_eq hft) (fun i => by rw [hcache])
      (by rw [ht]; exact ⟨rfl, rfl, rfl, rfl⟩)

theorem Invariant.beginTrans (h : Invariant ts k) (hp : (k.ptable p).state = .live)
    (hcur : k.cur = p) (hrun : (Kernel.beginTrans).run k = .ok () k') :
    Invariant (Function.update ts p { ts p with trans := true }) k' := by
  obtain ⟨hidle, rfl⟩ := beginTrans_ok hrun
  refine h.of_log hp ⟨rfl, rfl, rfl, rfl, rfl, fun _ _ => rfl⟩ rfl rfl rfl rfl rfl ?_ rfl
  intro q
  by_cases hq : q = p
  · simp [hq, hcur]
  · have hno := h.locks.trans q
    rw [hidle] at hno
    rw [Function.update_of_ne hq, ← hno]
    simp [hcur, Ne.symm hq]

theorem Invariant.commitTrans (h : Invariant ts k) (hp : (k.ptable p).state = .live)
    (htrans : (ts p).trans = true) (hrun : (Kernel.commitTrans).run k = .ok () k') :
    Invariant (Function.update ts p { ts p with trans := false }) k' := by
  have hbusy := (h.locks.trans p).2 htrans
  cases hrun
  refine h.of_log hp ⟨rfl, rfl, rfl, rfl, rfl, fun b hb => ?_⟩ rfl rfl rfl rfl rfl ?_ rfl
  · dsimp only
    split
    · rfl
    · exact Function.update_of_ne (by omega) _ _
  · intro q
    by_cases hq : q = p
    · simp [hq]
    · have hno := h.locks.trans q
      rw [hbusy] at hno
      rw [Function.update_of_ne hq, ← hno]
      simp [Ne.symm hq]

/-! ## Acts on the inode cache -/

@[simp] theorem CacheEntry.got_ref (e : CacheEntry) : e.got.ref = e.ref + 1 := by
  unfold got
  split
  · rfl
  · simp only
    omega

theorem CacheEntry.got_busy {e : CacheEntry} (h : e.ref = 0 → e.busy = none) :
    e.got.busy = e.busy := by
  unfold got
  split
  · rfl
  · rw [h (by omega)]

theorem CacheEntry.got_valid {e : CacheEntry} (h : e.got.valid = true) :
    0 < e.ref ∧ e.valid = true := by
  unfold got at h
  split at h
  · rename_i href
    exact ⟨href, h⟩
  · simp at h

/-- How dropping one reference of a process counts. -/
theorem procHolds_erase {t : TypeState} (t' : TypeState) {q : Proc} {i : Nat} (hi : i ∈ t.refs)
    (hrefs : t'.refs = t.refs.erase i) (hlent : t'.lent = t.lent) (j : Nat) :
    procHolds t' q j + (if j = i then 1 else 0) = procHolds t q j := by
  simp only [procHolds, hrefs, hlent]
  by_cases hj : j = i
  · have hpos : 0 < t.refs.count i := List.count_pos_iff.2 hi
    rw [hj, if_pos rfl, List.count_erase_self]
    omega
  · rw [if_neg hj, List.count_erase_of_ne hj]
    omega

/-- How taking a reference counts. -/
theorem procHolds_cons (t t' : TypeState) {q : Proc} {i : Nat}
    (hrefs : t'.refs = i :: t.refs) (hlent : t'.lent = t.lent) (j : Nat) :
    procHolds t' q j = procHolds t q j + if j = i then 1 else 0 := by
  simp only [procHolds, hrefs, hlent, List.count_cons]
  by_cases hj : j = i
  · simp only [hj, if_true, beq_self_eq_true]
    omega
  · have hij : (i == j) = false := by simpa using Ne.symm hj
    simp only [hj, if_false, hij]
    simp

/-- One cache entry changes, and no lock. -/
theorem Invariant.of_entry (h : Invariant ts k) (hp : (k.ptable p).state = .live) {i : Nat}
    {e : CacheEntry} {t : TypeState} (hbusy : e.busy = (k.icache i).busy)
    (hvalid : e.valid = true → (k.icache i).valid = true)
    (hkept : e.busy ≠ none → e.valid = true)
    (hrefs : ∀ j, (if j = i then e.ref else (k.icache j).ref) +
      procHolds (ts p) (k.ptable p) j = (k.icache j).ref + procHolds t (k.ptable p) j)
    (ht : t.trans = (ts p).trans ∧ t.locks = (ts p).locks ∧ t.via = (ts p).via ∧
      t.child = (ts p).child)
    (hheld : ∀ j, j ∈ t.locks → j ∈ t.refs ∨ j ∈ t.via) :
    Invariant (Function.update ts p t) (k.setEntry i e) := by
  have hentry : ∀ j, (k.setEntry i e).icache j = if j = i then e else k.icache j := by
    intro j
    by_cases hj : j = i
    · rw [hj, State.setEntry_self, if_pos rfl]
    · rw [State.setEntry_of_ne _ _ hj, if_neg hj]
  refine ⟨fun hs => (h.wf hs).of_same (.setEntry k i e) fun j hj => ?_, ?_, ?_⟩
  · refine ⟨?_, rfl⟩
    rw [hentry] at hj
    split at hj
    · rename_i heq
      exact heq ▸ hvalid hj
    · exact hj
  · refine h.locks.same rfl (fun j => ?_) (fun j hb _ => ?_) ht.1 ht.2.1 hheld
    · rw [hentry]
      split
      · rename_i heq
        rw [hbusy, heq]
      · rfl
    · rw [hentry]
      split
      · rename_i heq
        exact hkept (by rw [hbusy, ← heq]; exact hb)
      · exact h.locks.valid j hb
  · refine h.counts.step hp rfl (.of_eq rfl) (fun j => ?_) (fun j hj => ?_) ht.2.2.2
    · rw [hentry, ← hrefs j]
      split <;> rfl
    · exact h.counts.via p j (by rwa [ht.2.2.1] at hj)

/-- Taking a reference. -/
theorem Invariant.got (h : Invariant ts k) (hp : (k.ptable p).state = .live) (i : Nat) :
    Invariant (Function.update ts p { ts p with refs := i :: (ts p).refs })
      (k.setEntry i (k.icache i).got) := by
  have hidle := fun hr => h.idle_of_ref_zero (i := i) hr
  refine h.of_entry hp (CacheEntry.got_busy hidle) (fun hv => (CacheEntry.got_valid hv).2)
    (fun hb => ?_) (fun j => ?_) ⟨rfl, rfl, rfl, rfl⟩ (fun j hj => ?_)
  · rw [CacheEntry.got_busy hidle] at hb
    have hv := h.locks.valid i hb
    unfold CacheEntry.got
    split
    · exact hv
    · exact absurd (hidle (by omega)) hb
  · rw [procHolds_cons (ts p) { ts p with refs := i :: (ts p).refs } rfl rfl j,
      CacheEntry.got_ref]
    split
    · rename_i hj
      rw [hj]
      omega
    · omega
  · rcases h.locks.held p j hj with hr | hr
    · exact .inl (List.mem_cons_of_mem _ hr)
    · exact .inr hr

theorem Invariant.iget (h : Invariant ts k) (hp : (k.ptable p).state = .live) {i : Nat}
    (hrun : (Kernel.iget i).run k = .ok () k') :
    Invariant (Function.update ts p { ts p with refs := i :: (ts p).refs }) k' := by
  rw [ok_of_wp (iget_spec k i) hrun]
  exact h.got hp i

theorem Invariant.ialloc (h : Invariant ts k) (hp : (k.ptable p).state = .live)
    {type : InodeType} {inum : Nat} (hrun : (Kernel.ialloc type).run k = .ok inum k') :
    Invariant (Function.update ts p { ts p with refs := inum :: (ts p).refs }) k' := by
  have hf := ialloc_frame hrun
  have hframe := (h.got hp inum).of_frame (p := p) hp hf fun hs =>
    (ok_of_wp (ialloc_spec (h.wf (hf.fed hs))) hrun).wf
  rwa [Function.update_self, Function.update_idem] at hframe

theorem cwd_ok {ip : Nat} (hrun : (cwd).run k = .ok ip k') :
    k.proc.cwd = some ip ∧ k' = k := by
  unfold cwd at hrun
  rw [run_get_bind] at hrun
  cases hc : k.proc.cwd with
  | none =>
      rw [hc] at hrun
      cases hrun
  | some c =>
      rw [hc] at hrun
      cases hrun
      exact ⟨rfl, rfl⟩

theorem idupCwd_ok {ip : Nat} (hrun : (idupCwd).run k = .ok ip k') :
    k.proc.cwd = some ip ∧
      k' = k.setEntry ip { k.icache ip with ref := (k.icache ip).ref + 1 } := by
  unfold idupCwd at hrun
  obtain ⟨c, k₁, hcwd, hrest⟩ := run_bind_eq_ok hrun
  obtain ⟨hc, rfl⟩ := cwd_ok hcwd
  cases hrest
  exact ⟨hc, rfl⟩

/-- Duplicating a reference. -/
theorem Invariant.dup (h : Invariant ts k) (hp : (k.ptable p).state = .live) (i : Nat) :
    Invariant (Function.update ts p { ts p with refs := i :: (ts p).refs })
      (k.setEntry i { k.icache i with ref := (k.icache i).ref + 1 }) := by
  refine h.of_entry hp rfl (fun hv => hv) (fun hb => h.locks.valid i hb) (fun j => ?_)
    ⟨rfl, rfl, rfl, rfl⟩ (fun j hj => ?_)
  · rw [procHolds_cons (ts p) { ts p with refs := i :: (ts p).refs } rfl rfl j]
    split
    · rename_i hj
      rw [hj]
      dsimp only
      omega
    · omega
  · rcases h.locks.held p j hj with hr | hr
    · exact .inl (List.mem_cons_of_mem _ hr)
    · exact .inr hr

theorem Invariant.idupCwd (h : Invariant ts k) (hp : (k.ptable p).state = .live) {ip : Nat}
    (hrun : (Kernel.idupCwd).run k = .ok ip k') :
    Invariant (Function.update ts p { ts p with refs := ip :: (ts p).refs }) k' := by
  obtain ⟨-, rfl⟩ := idupCwd_ok hrun
  exact h.dup hp ip

theorem Invariant.ilock (h : Invariant ts k) (hp : (k.ptable p).state = .live)
    (hcur : k.cur = p) {ip : Nat} (hpre : ip ∈ (ts p).refs ∨ ip ∈ (ts p).via)
    (hrun : (Kernel.ilock ip).run k = .ok () k') :
    Invariant (Function.update ts p { ts p with locks := ip :: (ts p).locks }) k' := by
  obtain ⟨hidle, hfree, rfl⟩ := ilock_ok hrun
  have hcopy : k.starved = false → ∀ i,
      (Function.update k.icache ip ⟨(k.icache ip).ref, some k.cur, true⟩ i).valid = true →
      (if (k.icache ip).valid then k.icopy
        else Function.update k.icopy ip (k.dinode ip)) i = k.dinode i ∧
        (k.dinode i).type ≠ .free := by
    intro hs i hi
    by_cases hip : i = ip
    · subst hip
      cases hv : (k.icache i).valid with
      | true => simpa using ⟨(h.wf hs).coherent i hv, (h.wf hs).live i hv⟩
      | false => simpa using hfree hv
    · rw [Function.update_of_ne hip] at hi
      have hsame : (if (k.icache ip).valid then k.icopy
          else Function.update k.icopy ip (k.dinode ip)) i = k.icopy i := by
        split
        · rfl
        · exact Function.update_of_ne hip _ _
      rw [hsame]
      exact ⟨(h.wf hs).coherent i hi, (h.wf hs).live i hi⟩
  have hnot : ∀ q, ip ∉ (ts q).locks := fun q hq => by
    rw [(h.locks.locks q ip).2 hq] at hidle
    cases hidle
  refine ⟨fun hs => ((h.wf hs).of_disk (by
    exact ⟨rfl, rfl, rfl, rfl, rfl, fun _ _ => rfl⟩) (hcopy hs)).1, ?_, ?_⟩
  · refine h.locks.change (j := ip) rfl ?_ ?_ ?_ (fun q _ => hnot q) rfl ?_ ?_ ?_
    · intro i hi
      simp only [Function.update_of_ne hi]
    · intro i hi
      by_cases hip : i = ip
      · simp [hip]
      · simp only [Function.update_of_ne hip] at hi ⊢
        exact h.locks.valid i hi
    · intro q
      simp only [Function.update_self, hcur, Option.some.injEq, List.mem_cons, true_or, and_true]
      exact eq_comm
    · intro i hi
      simp [hi]
    · exact List.nodup_cons.2 ⟨hnot p, h.locks.nodup p⟩
    · intro i hi
      rcases List.mem_cons.1 hi with rfl | hi
      · exact hpre
      · exact h.locks.held p i hi
  · refine h.counts.same hp rfl (.of_eq rfl) (fun i => ?_) ⟨rfl, rfl, rfl, rfl⟩
    by_cases hip : i = ip
    · simp [hip]
    · simp only [Function.update_of_ne hip]

/-- Setting or clearing one busy flag. -/
theorem Invariant.of_busy (h : Invariant ts k) (hp : (k.ptable p).state = .live) {ip : Nat}
    {b : Option Nat} {locks : List Nat} (hvalid : (k.icache ip).valid = true)
    (hb : ∀ q, b = some q ↔ q = p ∧ ip ∈ locks) (hfree : ∀ q, q ≠ p → ip ∉ (ts q).locks)
    (hlocks : ∀ i, i ≠ ip → (i ∈ locks ↔ i ∈ (ts p).locks)) (hnodup : locks.Nodup)
    (hheld : ∀ i, i ∈ locks → i ∈ (ts p).refs ∨ i ∈ (ts p).via) :
    Invariant (Function.update ts p { ts p with locks := locks })
      (k.setEntry ip { k.icache ip with busy := b }) := by
  refine ⟨fun hs => (h.wf hs).of_same (.setEntry k ip _) fun i hi => ?_, ?_, ?_⟩
  · refine ⟨?_, rfl⟩
    by_cases hip : i = ip
    · rw [hip]
      exact hvalid
    · rwa [State.setEntry_of_ne _ _ hip] at hi
  · refine h.locks.change (j := ip) rfl ?_ ?_ ?_ hfree rfl hlocks hnodup hheld
    · intro i hi
      rw [State.setEntry_of_ne _ _ hi]
    · intro i hi
      by_cases hip : i = ip
      · rw [hip, State.setEntry_self]
        exact hvalid
      · rw [State.setEntry_of_ne _ _ hip] at hi ⊢
        exact h.locks.valid i hi
    · intro q
      rw [State.setEntry_self]
      exact hb q
  · refine h.counts.same hp rfl (.of_eq rfl) (fun i => ?_) ⟨rfl, rfl, rfl, rfl⟩
    by_cases hip : i = ip
    · rw [hip, State.setEntry_self]
    · rw [State.setEntry_of_ne _ _ hip]

theorem Invariant.iunlock (h : Invariant ts k) (hp : (k.ptable p).state = .live) {ip : Nat}
    (hpre : ip ∈ (ts p).locks) (hrun : (Kernel.iunlock ip).run k = .ok () k') :
    Invariant (Function.update ts p { ts p with locks := (ts p).locks.erase ip }) k' := by
  rw [iunlock_ok hrun]
  have hnodup := h.locks.nodup p
  refine h.of_busy hp (h.valid hpre) (fun q => ?_) (fun q hq hmem => ?_) (fun i hi => ?_)
    (hnodup.erase ip) (fun i hi => h.locks.held p i (List.mem_of_mem_erase hi))
  · simp [hnodup.mem_erase_iff]
  · have h1 := (h.locks.locks q ip).2 hmem
    rw [(h.locks.locks p ip).2 hpre] at h1
    exact hq (Option.some.inj h1).symm
  · rw [hnodup.mem_erase_iff]
    simp [hi]

theorem Invariant.iputCheck (h : Invariant ts k) (hp : (k.ptable p).state = .live)
    (hcur : k.cur = p) {ip : Nat} {r : Bool} (href : ip ∈ (ts p).refs)
    (hlock : ip ∈ (ts p).locks → ip ∈ (ts p).refs.erase ip ∨ ip ∈ (ts p).via)
    (hrun : (Kernel.iputCheck ip).run k = .ok r k') :
    (r = true → ip ∉ (ts p).locks) ∧
      Invariant (Function.update ts p ((ts p).next (.iputCheck ip) r)) k' := by
  rcases iputCheck_ok hrun with ⟨rfl, ⟨-, hv, -⟩, hidle, rfl⟩ | ⟨rfl, -, rfl⟩
  · have hnot : ∀ q, ip ∉ (ts q).locks := fun q hq => by
      rw [(h.locks.locks q ip).2 hq] at hidle
      cases hidle
    refine ⟨fun _ => hnot p, h.of_busy hp hv (fun q => ?_) (fun q _ => hnot q)
      (fun i hi => by simp [hi]) (List.nodup_cons.2 ⟨hnot p, h.locks.nodup p⟩) (fun i hi => ?_)⟩
    · simp [hcur, eq_comm]
    · rcases List.mem_cons.1 hi with rfl | hi
      · exact .inl href
      · exact h.locks.held p i hi
  · have hpos := h.counts.ref_pos (.inl href : ip ∈ (ts p).refs ∨ ip ∈ (ts p).via)
    refine ⟨fun hr => (by cases hr), h.of_entry hp rfl (fun hv => hv)
      (fun hb => h.locks.valid ip hb) (fun j => ?_) ⟨rfl, rfl, rfl, rfl⟩ (fun j hj => ?_)⟩
    · have hdrop := procHolds_erase ((ts p).next (.iputCheck ip) false)
        (q := k.ptable p) href rfl rfl j
      by_cases hj : j = ip
      · simp only [hj, if_true] at hdrop ⊢
        omega
      · simp only [hj, if_false] at hdrop ⊢
        omega
    · by_cases hjip : j = ip
      · subst hjip
        exact hlock hj
      · rcases h.locks.held p j hj with hr | hr
        · exact .inl ((List.mem_erase_of_ne hjip).2 hr)
        · exact .inr hr

/-- The last steps of `iput`: the entry is dropped, unlocked and no longer good. -/
theorem Invariant.drop (h : Invariant ts k) (hp : (k.ptable p).state = .live) {ip : Nat}
    (href : ip ∈ (ts p).refs) (hlock : ip ∈ (ts p).locks) :
    Invariant (Function.update ts p
        { ts p with locks := (ts p).locks.erase ip, refs := (ts p).refs.erase ip })
      (k.setEntry ip ⟨(k.icache ip).ref - 1, none, false⟩) := by
  have hnodup := h.locks.nodup p
  have hpos := h.counts.ref_pos (.inl href : ip ∈ (ts p).refs ∨ ip ∈ (ts p).via)
  refine ⟨fun hs => (h.wf hs).of_same (.setEntry k ip _) fun i hi => ?_, ?_, ?_⟩
  · have hip : i ≠ ip := fun heq => by simp [heq] at hi
    rw [State.setEntry_of_ne _ _ hip] at hi
    exact ⟨hi, rfl⟩
  · refine h.locks.change (j := ip) rfl (fun i hi => ?_) (fun i hi => ?_) (fun q => ?_)
      (fun q hq hmem => ?_) rfl (fun i hi => ?_) (hnodup.erase ip) (fun i hi => ?_)
    · rw [State.setEntry_of_ne _ _ hi]
    · have hip : i ≠ ip := fun heq => by simp [heq] at hi
      rw [State.setEntry_of_ne _ _ hip] at hi ⊢
      exact h.locks.valid i hi
    · simp [hnodup.mem_erase_iff]
    · have h1 := (h.locks.locks q ip).2 hmem
      rw [(h.locks.locks p ip).2 hlock] at h1
      exact hq (Option.some.inj h1).symm
    · rw [hnodup.mem_erase_iff]
      simp [hi]
    · have hne : i ≠ ip := fun heq => by simp [heq, hnodup.mem_erase_iff] at hi
      rcases h.locks.held p i (List.mem_of_mem_erase hi) with hr | hr
      · exact .inl ((List.mem_erase_of_ne hne).2 hr)
      · exact .inr hr
  · refine h.counts.step hp rfl (.of_eq rfl) (fun i => ?_) (h.counts.via p) rfl
    have hdrop := procHolds_erase { ts p with
      locks := (ts p).locks.erase ip
      refs := (ts p).refs.erase ip } (q := k.ptable p) href rfl rfl i
    rw [← hdrop]
    by_cases hi : i = ip
    · rw [hi, State.setEntry_self, if_pos rfl]
      simp only
      omega
    · rw [State.setEntry_of_ne _ _ hi, if_neg hi]
      rfl

theorem Invariant.iputFree (h : Invariant ts k) (hp : (k.ptable p).state = .live) {ip : Nat}
    (hlock : ip ∈ (ts p).locks) (href : ip ∈ (ts p).refs)
    (hrun : (Kernel.iputFree ip).run k = .ok () k') :
    Invariant (Function.update ts p
      { ts p with locks := (ts p).locks.erase ip, refs := (ts p).refs.erase ip }) k' := by
  have hf := iputFree_frame hrun
  have hframe := (h.drop hp href hlock).of_frame (p := p) hp hf fun hs =>
    (ok_of_wp (iputFree_spec (h.wf (hf.fed hs)) (h.valid hlock)) hrun).wf
  rwa [Function.update_self, Function.update_idem] at hframe

end Acts

end Xv6.Kernel
