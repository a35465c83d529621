import Xv6.Kernel.Preserve

/-!
# Acts on the file and process tables

The rest of the acts: descriptors, open files, working directories, `fork` and
`exit`.  What has to be shown is that the counts stay exact, so each lemma says
how one entry of a table changes a sum.
-/

namespace Xv6.Kernel

open Xv6.Verified
open Exec
open Finset

variable {ts : Nat → TypeState} {k k' : State} {p : Nat} {t : TypeState}

/-! ## Sums over the tables -/

/-- One descriptor changes. -/
theorem opens_update {q : Proc} {fd : Nat} (hfd : fd < NOFILE) (v : Option Nat) (f : Nat) :
    (q.setFd fd v).opens f + (if q.ofile fd = some f then 1 else 0) =
      q.opens f + if v = some f then 1 else 0 := by
  have hsum := sum_change (n := NOFILE) (f := fun d => if q.ofile d = some f then 1 else 0)
    (g := fun d => if Function.update q.ofile fd v d = some f then 1 else 0) hfd
    (fun d hd => by rw [Function.update_of_ne hd])
  simp only [Function.update_self] at hsum
  exact hsum

/-- One process changes. -/
theorem pointers_update (k k' : State) {c : Nat} (hc : c < NPROC) (q : Proc) (f : Nat)
    (hpt : k'.ptable = Function.update k.ptable c q) :
    pointers k' f + (k.ptable c).opens f = pointers k f + q.opens f := by
  have hsum := sum_change (n := NPROC) (f := fun d => (k.ptable d).opens f)
    (g := fun d => (Function.update k.ptable c q d).opens f) hc
    (fun d hd => by rw [Function.update_of_ne hd])
  simp only [Function.update_self] at hsum
  simp only [pointers, hpt]
  exact hsum

/-- A file nobody points to is in nobody's table. -/
theorem pointers_zero {f fd : Nat} (hp : p < NPROC) (hfd : fd < NOFILE)
    (h : pointers k f = 0) : (k.ptable p).ofile fd ≠ some f := by
  intro hopen
  have hone := le_sum_range (fun d => if (k.ptable p).ofile d = some f then 1 else 0) hfd
  have hall := le_sum_range (fun q => (k.ptable q).opens f) hp
  simp only [hopen, if_true] at hone
  simp only [pointers] at h
  simp only [Proc.opens] at hall h
  omega

/-- One file changes. -/
theorem holders_file (ts : Nat → TypeState) (k k' : State) {f : Nat} (hf : f < NFILE) (file : File)
    (hpt : ∀ q i, procHolds (ts q) (k'.ptable q) i = procHolds (ts q) (k.ptable q) i)
    (hft : k'.ftable = Function.update k.ftable f file) (i : Nat) :
    holders ts k' i + (k.ftable f).holds i = holders ts k i + file.holds i := by
  have hsum := sum_change (n := NFILE) (f := fun g => (k.ftable g).holds i)
    (g := fun g => (Function.update k.ftable f file g).holds i) hf
    (fun g hg => by rw [Function.update_of_ne hg])
  simp only [Function.update_self] at hsum
  simp only [holders, hpt, hft]
  omega

/-! ## Putting the parts together -/

/-- Only the tables changed. -/
theorem Invariant.of_tables (h : Invariant ts k) {ft : Nat → File} {pt : Nat → Proc}
    (htrans : t.trans = (ts p).trans) (hlocks : t.locks = (ts p).locks)
    (hheld : ∀ i, i ∈ t.locks → i ∈ t.refs ∨ i ∈ t.via)
    (hcounts : Counts (Function.update ts p t) { k with ftable := ft, ptable := pt }) :
    Invariant (Function.update ts p t) { k with ftable := ft, ptable := pt } := by
  have hdisk : DiskSame k { k with ftable := ft, ptable := pt } :=
    ⟨rfl, rfl, rfl, rfl, rfl, fun _ _ => rfl⟩
  refine ⟨fun hs => (h.wf hs).of_same hdisk fun i hv => ⟨hv, rfl⟩, ?_, hcounts⟩
  exact h.locks.same rfl (fun _ => rfl) (fun _ _ hv => hv) htrans hlocks hheld

/-- Counting after the running process changed its entry, and files changed that
nobody else has. -/
theorem Counts.of_proc (h : Counts ts k) {proc : Proc}
    (hpt : k'.ptable = Function.update k.ptable p proc)
    (hp : (k.ptable p).state = .live) (hstate : proc.state = .live)
    (hrefs : ∀ i, (k'.icache i).ref = holders (Function.update ts p t) k' i)
    (hfiles : ∀ f, f < NFILE → (k'.ftable f).ref = pointers k' f)
    (hfds : ∀ fd f, proc.ofile fd = some f → fd < NOFILE ∧ f < NFILE)
    (hvia : ∀ i, i ∈ t.via → ∃ fd f, proc.ofile fd = some f ∧
      (k'.ftable f).kind = .inode ∧ (k'.ftable f).ip = i)
    (hothers : ∀ q fd f, q ≠ p → (k.ptable q).ofile fd = some f →
      (k'.ftable f).kind = (k.ftable f).kind ∧ (k'.ftable f).ip = (k.ftable f).ip)
    (hchild : t.child = (ts p).child) : Counts (Function.update ts p t) k' := by
  have hchild' : ∀ q, (Function.update ts p t q).child = (ts q).child := by
    intro q
    by_cases hq : q = p
    · rw [hq, Function.update_self, hchild]
    · rw [Function.update_of_ne hq]
  have hself : k'.ptable p = proc := by rw [hpt, Function.update_self]
  have hrest : ∀ q, q ≠ p → k'.ptable q = k.ptable q := fun q hq => by
    rw [hpt, Function.update_of_ne hq]
  refine
    { refs := hrefs
      files := hfiles
      fds := fun q fd f hq => ?_
      slots := fun q hq => ?_
      owner := fun q hq => ?_
      blank := fun q hq => ?_
      via := fun q i hi => ?_
      lent := fun q hq => ?_
      child := fun q c n hc => ?_
      parent := fun q r c n m hq hr => ?_ }
  · by_cases hqp : q = p
    · rw [hqp, hself] at hq
      exact hfds fd f hq
    · rw [hrest q hqp] at hq
      exact h.fds q fd f hq
  · by_cases hqp : q = p
    · rw [hqp]
      exact live_slot h hp
    · rw [hrest q hqp] at hq
      exact h.slots q hq
  · by_cases hqp : q = p
    · rw [hqp]
      exact live_slot h hp
    · rw [Function.update_of_ne hqp] at hq
      exact h.owner q hq
  · by_cases hqp : q = p
    · rw [hqp, hself, hstate] at hq
      cases hq
    · rw [hrest q hqp] at hq ⊢
      exact h.blank q hq
  · by_cases hqp : q = p
    · rw [hqp, Function.update_self] at hi
      rw [hqp, hself]
      exact hvia i hi
    · rw [Function.update_of_ne hqp] at hi
      obtain ⟨fd, f, hfd, hkind, hip⟩ := h.via q i hi
      obtain ⟨hk, hi'⟩ := hothers q fd f hqp hfd
      exact ⟨fd, f, by rw [hrest q hqp, hfd], by rw [hk, hkind], by rw [hi', hip]⟩
  · by_cases hqp : q = p
    · rw [hqp, hself, hstate]
    · rw [Function.update_of_ne hqp] at hq
      rw [hrest q hqp]
      exact h.lent q hq
  · rw [hchild'] at hc
    have hemb := h.child q c n hc
    have hcp : c ≠ p := fun heq => by
      rw [heq, hp] at hemb
      cases hemb.1
    rw [hrest c hcp]
    exact hemb
  · rw [hchild'] at hq hr
    exact h.parent q r c n m hq hr

/-! ## Descriptors -/

theorem argfd_run (fd : Nat) :
    (argfd fd).run k = .ok (if fd < NOFILE then k.proc.ofile fd else none) k := rfl

theorem fdfile_ok {fd : Nat} {r : Option File} (hrun : (fdfile fd).run k = .ok r k') :
    k' = k ∧ ∀ f, r = some f → ∃ g, k.proc.ofile fd = some g ∧ f = k.ftable g := by
  unfold fdfile at hrun
  rw [run_get_bind, run_bind_ok (argfd_run fd)] at hrun
  split at hrun
  · cases hrun
    exact ⟨rfl, fun f hf => by cases hf⟩
  · rename_i g hg
    cases hrun
    refine ⟨rfl, fun f hf => ⟨g, ?_, (Option.some.inj hf).symm⟩⟩
    split at hg
    · exact hg
    · cases hg

theorem Invariant.fdfile (h : Invariant ts k) (hp : (k.ptable p).state = .live)
    (hcur : k.cur = p) {fd : Nat} {r : Option File} (hlocks : (ts p).locks = [])
    (hrun : (Kernel.fdfile fd).run k = .ok r k') :
    Invariant (Function.update ts p ((ts p).next (.fdfile fd) r)) k' := by
  obtain ⟨rfl, hfile⟩ := fdfile_ok hrun
  cases r with
  | none =>
      rw [show (ts p).next (.fdfile fd) none = ts p from rfl, Function.update_eq_self]
      exact h
  | some f =>
      obtain ⟨g, hg, rfl⟩ := hfile f rfl
      rw [State.proc, hcur] at hg
      refine ⟨h.wf, h.locks.same rfl (fun _ => rfl) (fun _ _ hv => hv) rfl rfl (fun i hi => ?_), ?_⟩
      · simp only [TypeState.next, hlocks] at hi
        cases hi
      · refine h.counts.step hp rfl (.of_eq rfl) (fun _ => rfl) (fun i hi => ?_) rfl
        simp only [TypeState.next] at hi
        split at hi
        · rename_i hkind
          rw [List.mem_singleton] at hi
          exact ⟨fd, g, hg, hkind, hi.symm⟩
        · cases hi

theorem fdoffset_ok {fd r : Nat} (hrun : (fdoffset fd).run k = .ok r k') : k' = k := by
  unfold fdoffset at hrun
  rw [run_get_bind, run_bind_ok (argfd_run fd)] at hrun
  split at hrun
  · cases hrun
  · cases hrun
    rfl

theorem fdadvance_ok {fd r : Nat} (hrun : (fdadvance fd r).run k = .ok () k') :
    ∃ f, k' = k.setFile f { k.ftable f with off := ((k.ftable f).off + r) % UINT } := by
  unfold fdadvance at hrun
  rw [run_bind_ok (argfd_run fd)] at hrun
  split at hrun
  · cases hrun
  · rename_i f _
    cases hrun
    exact ⟨f, rfl⟩

theorem Invariant.fdadvance (h : Invariant ts k) (hp : (k.ptable p).state = .live) {fd r : Nat}
    (hrun : (Kernel.fdadvance fd r).run k = .ok () k') :
    Invariant (Function.update ts p (ts p)) k' := by
  obtain ⟨f, rfl⟩ := fdadvance_ok hrun
  refine h.of_tables rfl rfl (h.locks.held p) (h.counts.same hp rfl (fun g => ?_) (fun _ => rfl)
    ⟨rfl, rfl, rfl, rfl⟩)
  by_cases hg : g = f
  · simp [hg]
  · simp [Function.update_of_ne hg]

theorem fileclose_ok {f : Nat} {r : Option Nat} (hrun : (fileclose f).run k = .ok r k') :
    (1 < (k.ftable f).ref ∧ r = none ∧
      k' = k.setFile f { k.ftable f with ref := (k.ftable f).ref - 1 }) ∨
    ((k.ftable f).ref = 1 ∧
      r = (if (k.ftable f).kind = .inode then some (k.ftable f).ip else none) ∧
      k' = k.setFile f { k.ftable f with ref := 0, kind := .none }) := by
  unfold fileclose at hrun
  rw [run_get_bind, run_ite] at hrun
  split at hrun
  · cases hrun
  · rename_i hpos
    rw [run_ite] at hrun
    split at hrun
    · rename_i hmany
      cases hrun
      exact .inl ⟨hmany, rfl, rfl⟩
    · cases hrun
      exact .inr ⟨by omega, rfl, rfl⟩

theorem fdclose_ok {fd : Nat} {r : Option (Option Nat)} (hrun : (fdclose fd).run k = .ok r k') :
    (r = none ∧ k' = k) ∨ ∃ f ip, fd < NOFILE ∧ k.proc.ofile fd = some f ∧ r = some ip ∧
      (fileclose f).run (k.setProc k.cur (k.proc.setFd fd none)) = .ok ip k' := by
  unfold fdclose at hrun
  rw [run_bind_ok (argfd_run fd)] at hrun
  split at hrun
  · cases hrun
    exact .inl ⟨rfl, rfl⟩
  · rename_i f hf
    rw [run_modify_bind] at hrun
    obtain ⟨ip, k₁, hclose, hrest⟩ := run_bind_eq_ok hrun
    cases hrest
    split at hf
    · exact .inr ⟨f, ip, ‹_›, hf, rfl, hclose⟩
    · cases hf

/-- Counting after a process gave up a descriptor of file `f`. -/
theorem Counts.close (h : Counts ts k) (hp : (k.ptable p).state = .live) {fd f : Nat}
    {file : File} (hopen : (k.ptable p).ofile fd = some f)
    (href : file.ref + 1 = (k.ftable f).ref)
    (hkept : file.ref ≠ 0 → file.kind = (k.ftable f).kind ∧ file.ip = (k.ftable f).ip)
    (hholds : ∀ i, file.holds i + procHolds t (k.ptable p) i =
      (k.ftable f).holds i + procHolds (ts p) (k.ptable p) i)
    (hvia : t.via = []) (hchild : t.child = (ts p).child) :
    Counts (Function.update ts p t)
      { k with
        ftable := Function.update k.ftable f file
        ptable := Function.update k.ptable p ((k.ptable p).setFd fd none) } := by
  have hslot := live_slot h hp
  obtain ⟨hfd, hf⟩ := h.fds p fd f hopen
  obtain ⟨k', hk'⟩ : ∃ k' : State, k' = { k with
    ftable := Function.update k.ftable f file
    ptable := Function.update k.ptable p ((k.ptable p).setFd fd none) } := ⟨_, rfl⟩
  rw [← hk']
  have hpt : k'.ptable = Function.update k.ptable p ((k.ptable p).setFd fd none) := by rw [hk']
  have hft : k'.ftable = Function.update k.ftable f file := by rw [hk']
  have hpointers : ∀ g, pointers k' g + (if g = f then 1 else 0) = pointers k g := by
    intro g
    have hone := opens_update (q := k.ptable p) hfd none g
    have hall := pointers_update k k' hslot ((k.ptable p).setFd fd none) g hpt
    rw [hopen] at hone
    by_cases hg : g = f
    · subst hg
      simp only [if_true, reduceCtorEq, if_false] at hone ⊢
      omega
    · have hfg : (some f = some g) = False := by simp [Ne.symm hg]
      simp only [hfg, hg, if_false, reduceCtorEq] at hone ⊢
      omega
  have hfiles : ∀ g, g < NFILE → (k'.ftable g).ref = pointers k' g := by
    intro g hg
    have hold := h.files g hg
    have hnew := hpointers g
    rw [hft]
    by_cases hgf : g = f
    · subst hgf
      rw [Function.update_self]
      simp only [if_true] at hnew
      omega
    · rw [Function.update_of_ne hgf]
      simp only [hgf, if_false] at hnew
      omega
  -- a file whose count went to zero is in no table
  have hthere : ∀ q fd', q ≠ p → (k.ptable q).ofile fd' = some f → file.ref ≠ 0 := by
    intro q fd' hq hq' hzero
    have hptr := hfiles f hf
    rw [hft, Function.update_self, hzero] at hptr
    refine pointers_zero (k := k') (h.slot_of_open hq') (h.fds q fd' f hq').1 hptr.symm ?_
    rw [hpt, Function.update_of_ne hq, hq']
  refine h.of_proc hpt hp hp ?_ hfiles ?_ ?_ ?_ hchild
  · intro i
    have hproc := holders_change ts k { k with ptable := k'.ptable } t
      hslot (fun q hq => by simp only [hpt, Function.update_of_ne hq]) (fun _ _ => rfl) i
    have hfile := holders_file (Function.update ts p t) { k with ptable := k'.ptable }
      k' hf file (fun _ _ => rfl) hft i
    have hcwd : procHolds t (k'.ptable p) i = procHolds t (k.ptable p) i := by
      rw [hpt, Function.update_self]
      rfl
    have hold := h.refs i
    have hsame : (k'.icache i).ref = (k.icache i).ref := by rw [hk']
    have := hholds i
    simp only [hcwd] at hproc
    simp only at hfile
    omega
  · intro fd' g hg
    have hg' : (k.ptable p).ofile fd' = some g := by
      by_cases hd : fd' = fd
      · simp [Proc.setFd, hd] at hg
      · simpa [Proc.setFd, Function.update_of_ne hd] using hg
    exact h.fds p fd' g hg'
  · rw [hvia]
    intro i hi
    cases hi
  · intro q fd' g hq hg
    rw [hft]
    by_cases hgf : g = f
    · subst hgf
      rw [Function.update_self]
      exact hkept (hthere q fd' hq hg)
    · rw [Function.update_of_ne hgf]
      exact ⟨rfl, rfl⟩

theorem Invariant.fdclose (h : Invariant ts k) (hp : (k.ptable p).state = .live)
    (hcur : k.cur = p) {fd : Nat} {r : Option (Option Nat)} (hlocks : (ts p).locks = [])
    (hrun : (Kernel.fdclose fd).run k = .ok r k') :
    Invariant (Function.update ts p ((ts p).next (.fdclose fd) r)) k' := by
  have hnext : ∀ r, ((ts p).next (.fdclose fd) r).locks = [] := by
    intro r
    rw [← hlocks]
    rcases r with _ | _ | ip <;> rfl
  have hheld : ∀ r i, i ∈ ((ts p).next (.fdclose fd) r).locks →
      i ∈ ((ts p).next (.fdclose fd) r).refs ∨ i ∈ ((ts p).next (.fdclose fd) r).via := by
    intro r i hi
    rw [hnext] at hi
    cases hi
  rcases fdclose_ok hrun with ⟨rfl, rfl⟩ | ⟨f, ip, hfd, hopen, rfl, hclose⟩
  · refine ⟨h.wf, h.locks.same rfl (fun _ => rfl) (fun _ _ hv => hv) rfl rfl (hheld _),
      h.counts.step hp rfl (.of_eq rfl) (fun _ => rfl) (fun i hi => ?_) rfl⟩
    cases hi
  · rw [State.proc, hcur] at hopen hclose
    rcases fileclose_ok hclose with ⟨hmany, rfl, rfl⟩ | ⟨hone, rfl, rfl⟩
    · refine h.of_tables rfl rfl (hheld _) (h.counts.close hp hopen ?_ (fun _ => ⟨rfl, rfl⟩)
        (fun i => ?_) rfl rfl)
      · simp only [State.setProc] at hmany ⊢
        omega
      · have hpos : 0 < (k.ftable f).ref - 1 := by
          simp only [State.setProc] at hmany
          omega
        have hpos' : 0 < (k.ftable f).ref := by omega
        simp only [File.holds, State.setProc, hpos, hpos', true_and]
        rfl
    · have hone : (k.ftable f).ref = 1 := hone
      have hzero : ∀ i, ({ k.ftable f with ref := 0, kind := .none } : File).holds i = 0 :=
        fun i => if_neg fun hc => absurd hc.1 (Nat.lt_irrefl 0)
      by_cases hk : (k.ftable f).kind = .inode
      · rw [show (if ((k.setProc p ((k.ptable p).setFd fd none)).ftable f).kind = .inode
          then some ((k.setProc p ((k.ptable p).setFd fd none)).ftable f).ip else none) =
          some (k.ftable f).ip from if_pos hk]
        refine h.of_tables rfl rfl (hheld _) (h.counts.close hp hopen hone.symm
          (fun h0 => absurd rfl h0) (fun i => ?_) rfl rfl)
        rw [procHolds_cons (ts p) ((ts p).next (.fdclose fd)
          (some (some (k.ftable f).ip))) rfl rfl]
        have hnew := hzero i
        simp only [State.setProc] at hnew ⊢
        rw [hnew]
        by_cases hi : i = (k.ftable f).ip
        · rw [if_pos hi, File.holds, if_pos ⟨by omega, hk, hi.symm⟩]
          omega
        · rw [if_neg hi, File.holds, if_neg fun hc => hi hc.2.2.symm]
          omega
      · rw [show (if ((k.setProc p ((k.ptable p).setFd fd none)).ftable f).kind = .inode
          then some ((k.setProc p ((k.ptable p).setFd fd none)).ftable f).ip else none) =
          none from if_neg hk]
        refine h.of_tables rfl rfl (hheld _) (h.counts.close hp hopen hone.symm
          (fun h0 => absurd rfl h0) (fun i => ?_) rfl rfl)
        have hnew := hzero i
        simp only [State.setProc] at hnew ⊢
        rw [hnew, File.holds, if_neg fun hc => hk hc.2.1]
        rfl

/-! ## Opening -/

theorem filealloc_ok {r : Option Nat} (hrun : (filealloc).run k = .ok r k') :
    (r = none ∧ k' = k) ∨ ∃ f, r = some f ∧ f < NFILE ∧ (k.ftable f).ref = 0 ∧
      k' = k.setFile f { k.ftable f with ref := 1 } := by
  unfold filealloc at hrun
  rw [run_get_bind] at hrun
  cases hfind : (List.range NFILE).find? fun f => (k.ftable f).ref = 0 with
  | none =>
      rw [hfind] at hrun
      cases hrun
      exact .inl ⟨rfl, rfl⟩
  | some f =>
      rw [hfind] at hrun
      cases hrun
      have hlt := List.mem_range.1 (List.mem_of_find?_eq_some hfind)
      have hzero := List.find?_some hfind
      exact .inr ⟨f, rfl, hlt, by simpa using hzero, rfl⟩

theorem fdalloc_ok {f : Nat} {r : Option Nat} (hrun : (fdalloc f).run k = .ok r k') :
    (r = none ∧ k' = k) ∨ ∃ fd, r = some fd ∧ fd < NOFILE ∧ k.proc.ofile fd = none ∧
      k' = k.setProc k.cur (k.proc.setFd fd (some f)) := by
  unfold fdalloc at hrun
  rw [run_get_bind] at hrun
  cases hfind : (List.range NOFILE).find? fun fd => (k.proc.ofile fd).isNone with
  | none =>
      rw [hfind] at hrun
      cases hrun
      exact .inl ⟨rfl, rfl⟩
  | some fd =>
      rw [hfind] at hrun
      cases hrun
      have hlt := List.mem_range.1 (List.mem_of_find?_eq_some hfind)
      have hnone := List.find?_some hfind
      exact .inr ⟨fd, rfl, hlt, by simpa using hnone, rfl⟩

/-- The file `sys_open` makes. -/
def File.opened (f : File) (ip omode : Nat) : File :=
  { f with
    kind := .inode
    ref := 1
    ip := ip
    off := 0
    readable := oReadable omode
    writable := oWritable omode }

theorem fileopen_ok {ip omode : Nat} {r : Option Nat}
    (hrun : (fileopen ip omode).run k = .ok r k') :
    (r = none ∧ k' = k) ∨
    (∃ f, r = none ∧ f < NFILE ∧ (k.ftable f).ref = 0 ∧
      k' = k.setFile f { k.ftable f with ref := 0, kind := .none }) ∨
    ∃ f fd, r = some fd ∧ f < NFILE ∧ (k.ftable f).ref = 0 ∧ fd < NOFILE ∧
      k.proc.ofile fd = none ∧
      k' = (k.setProc k.cur (k.proc.setFd fd (some f))).setFile f
        ((k.ftable f).opened ip omode) := by
  unfold fileopen at hrun
  obtain ⟨a, k₁, halloc, hrest⟩ := run_bind_eq_ok hrun
  rcases filealloc_ok halloc with ⟨rfl, rfl⟩ | ⟨f, rfl, hf, hzero, rfl⟩
  · cases hrest
    exact .inl ⟨rfl, rfl⟩
  · obtain ⟨b, k₂, hfd, hrest⟩ := run_bind_eq_ok hrest
    rcases fdalloc_ok hfd with ⟨rfl, rfl⟩ | ⟨fd, rfl, hlt, hnone, rfl⟩
    · obtain ⟨_, k₃, hclose, hrest⟩ := run_bind_eq_ok hrest
      cases hrest
      refine .inr (.inl ⟨f, rfl, hf, hzero, ?_⟩)
      rcases fileclose_ok hclose with ⟨hmany, -, -⟩ | ⟨-, -, rfl⟩
      · simp [State.setFile] at hmany
      · simp [State.setFile]
    · cases hrest
      refine .inr (.inr ⟨f, fd, rfl, hf, hzero, hlt, hnone, ?_⟩)
      simp [State.setFile, State.setProc, State.proc, File.opened]

/-- Counting after the running process opened file `f`, which nobody had. -/
theorem Counts.open (h : Counts ts k) (omode : Nat) (hp : (k.ptable p).state = .live)
    {fd f ip : Nat} (hf : f < NFILE) (hzero : (k.ftable f).ref = 0) (hfd : fd < NOFILE)
    (hnone : (k.ptable p).ofile fd = none) (href : ip ∈ (ts p).refs) :
    Counts (Function.update ts p
        { ts p with refs := (ts p).refs.erase ip, via := ip :: (ts p).via })
      { k with
        ftable := Function.update k.ftable f ((k.ftable f).opened ip omode)
        ptable := Function.update k.ptable p ((k.ptable p).setFd fd (some f)) } := by
  have hslot := live_slot h hp
  obtain ⟨t, ht⟩ : ∃ t, t = { ts p with
    refs := (ts p).refs.erase ip
    via := ip :: (ts p).via } := ⟨_, rfl⟩
  obtain ⟨file, hfile⟩ : ∃ file, file = (k.ftable f).opened ip omode := ⟨_, rfl⟩
  obtain ⟨k', hk'⟩ : ∃ k' : State, k' = { k with
    ftable := Function.update k.ftable f file
    ptable := Function.update k.ptable p ((k.ptable p).setFd fd (some f)) } := ⟨_, rfl⟩
  rw [← ht, ← hfile, ← hk']
  have hpt : k'.ptable = Function.update k.ptable p ((k.ptable p).setFd fd (some f)) := by
    rw [hk']
  have hft : k'.ftable = Function.update k.ftable f file := by rw [hk']
  have hnobody : ∀ q d g, (k.ptable q).ofile d = some g → g ≠ f := by
    intro q d g hg heq
    have hptr : pointers k f = 0 := by rw [← h.files f hf, hzero]
    exact pointers_zero (h.slot_of_open hg) (h.fds q d g hg).1 hptr (heq ▸ hg)
  have hkept : ∀ q d g, (k.ptable q).ofile d = some g →
      (k'.ftable g).kind = (k.ftable g).kind ∧ (k'.ftable g).ip = (k.ftable g).ip := by
    intro q d g hg
    rw [hft, Function.update_of_ne (hnobody q d g hg)]
    exact ⟨rfl, rfl⟩
  refine h.of_proc hpt hp hp ?_ ?_ ?_ ?_ (fun q d g _ hg => hkept q d g hg) (by rw [ht])
  · intro i
    have hproc := holders_change ts k { k with ptable := k'.ptable } t
      hslot (fun q hq => by simp only [hpt, Function.update_of_ne hq]) (fun _ _ => rfl) i
    have hfiles := holders_file (Function.update ts p t)
      { k with ptable := k'.ptable } k' hf file (fun _ _ => rfl) hft i
    have hcwd : procHolds t (k'.ptable p) i = procHolds t (k.ptable p) i := by
      rw [hpt, Function.update_self]
      rfl
    have hdrop := procHolds_erase t (q := k.ptable p) href (by rw [ht]) (by rw [ht]) i
    have hold : (k.ftable f).holds i = 0 := if_neg fun hc => by omega
    have hnew : file.holds i = if i = ip then 1 else 0 := by
      rw [hfile]
      simp only [File.holds, File.opened, Nat.zero_lt_one, true_and, eq_comm]
    have hrefs := h.refs i
    have hsame : (k'.icache i).ref = (k.icache i).ref := by rw [hk']
    simp only [hcwd] at hproc
    simp only at hfiles
    omega
  · intro g hg
    have hone := opens_update (q := k.ptable p) hfd (some f) g
    have hall := pointers_update k k' hslot ((k.ptable p).setFd fd (some f)) g hpt
    have hold := h.files g hg
    rw [hnone] at hone
    rw [hft]
    by_cases hgf : g = f
    · subst hgf
      rw [Function.update_self, hfile]
      simp only [File.opened, if_true, reduceCtorEq, if_false] at hone ⊢
      omega
    · rw [Function.update_of_ne hgf]
      have hfg : (some f = some g) = False := by simp [Ne.symm hgf]
      simp only [hfg, if_false, reduceCtorEq] at hone
      omega
  · intro d g hg
    by_cases hd : d = fd
    · simp only [Proc.setFd, hd, Function.update_self, Option.some.injEq] at hg
      rw [hd, ← hg]
      exact ⟨hfd, hf⟩
    · simp only [Proc.setFd, Function.update_of_ne hd] at hg
      exact h.fds p d g hg
  · intro i hi
    rw [ht] at hi
    rcases List.mem_cons.1 hi with rfl | hi
    · refine ⟨fd, f, by simp [Proc.setFd], ?_, ?_⟩
      · rw [hft, Function.update_self, hfile]
        rfl
      · rw [hft, Function.update_self, hfile]
        rfl
    · obtain ⟨d, g, hg, hkind, hip⟩ := h.via p i hi
      obtain ⟨hk, hi'⟩ := hkept p d g hg
      have hd : d ≠ fd := fun heq => by
        rw [heq, hnone] at hg
        cases hg
      exact ⟨d, g, by simpa [Proc.setFd, Function.update_of_ne hd] using hg, by rw [hk, hkind],
        by rw [hi', hip]⟩

theorem Invariant.fileopen (h : Invariant ts k) (hp : (k.ptable p).state = .live)
    (hcur : k.cur = p) {ip omode : Nat} {r : Option Nat} (href : ip ∈ (ts p).refs)
    (hrun : (Kernel.fileopen ip omode).run k = .ok r k') :
    Invariant (Function.update ts p ((ts p).next (.fileopen ip omode) r)) k' := by
  rcases fileopen_ok hrun with ⟨rfl, rfl⟩ | ⟨f, rfl, hf, hzero, rfl⟩ |
    ⟨f, fd, rfl, hf, hzero, hfd, hnone, rfl⟩
  · rw [show (ts p).next (.fileopen ip omode) none = ts p from rfl, Function.update_eq_self]
    exact h
  · rw [show (ts p).next (.fileopen ip omode) none = ts p from rfl]
    -- the file is free before and after, so nothing that counts has changed
    have hholds : ∀ g i,
        ((k.setFile f { k.ftable f with ref := 0, kind := .none }).ftable g).holds i
        = (k.ftable g).holds i := by
      intro g i
      by_cases hg : g = f
      · subst hg
        simp [State.setFile, File.holds, hzero]
      · simp [State.setFile, Function.update_of_ne hg]
    have hpt : (k.setFile f { k.ftable f with ref := 0, kind := .none }).ptable =
        Function.update k.ptable p (k.ptable p) := by
      rw [Function.update_eq_self]
      rfl
    refine h.of_tables rfl rfl (h.locks.held p) (h.counts.of_proc hpt hp hp (fun i => ?_)
      (fun g hg => ?_) (h.counts.fds p) (fun i hi => ?_) (fun q d g _ hg => ?_) rfl)
    · rw [Function.update_eq_self]
      have hsame : holders ts (k.setFile f { k.ftable f with ref := 0, kind := .none }) i =
          holders ts k i := by
        simp only [holders, hholds]
        rfl
      exact (h.counts.refs i).trans hsame.symm
    · have hold := h.counts.files g hg
      by_cases hgf : g = f
      · subst hgf
        simp only [Function.update_self]
        rw [hzero] at hold
        exact hold
      · simp only [Function.update_of_ne hgf]
        exact hold
    · obtain ⟨d, g, hg, hkind, hip⟩ := h.counts.via p i hi
      have hgf : g ≠ f := fun heq => by
        have := h.counts.file_pos hg
        rw [heq] at this
        omega
      exact ⟨d, g, hg, by simpa [State.setFile, Function.update_of_ne hgf] using hkind,
        by simpa [State.setFile, Function.update_of_ne hgf] using hip⟩
    · have hgf : g ≠ f := fun heq => by
        have := h.counts.file_pos hg
        rw [heq] at this
        omega
      simp [Function.update_of_ne hgf]
  · rw [State.proc, hcur] at hnone ⊢
    refine h.of_tables rfl rfl (fun i hi => ?_)
      (h.counts.open omode hp hf hzero hfd hnone href)
    rcases h.locks.held p i hi with hr | hr
    · by_cases hip : i = ip
      · exact .inr (by simp [TypeState.next, hip])
      · exact .inl ((List.mem_erase_of_ne hip).2 hr)
    · exact .inr (List.mem_cons_of_mem _ hr)

/-! ## Working directories -/

theorem Invariant.cwd (h : Invariant ts k) (hp : (k.ptable p).state = .live)
    (hcur : k.cur = p) {ip : Nat} (hlent : (ts p).lent = false)
    (hrun : (Kernel.cwd).run k = .ok ip k') :
    Invariant (Function.update ts p { ts p with lent := true, refs := ip :: (ts p).refs }) k' := by
  obtain ⟨hcwd, rfl⟩ := cwd_ok hrun
  rw [State.proc, hcur] at hcwd
  refine ⟨h.wf, h.locks.same rfl (fun _ => rfl) (fun _ _ hv => hv) rfl rfl (fun i hi => ?_),
    h.counts.step hp rfl (.of_eq rfl) (fun i => ?_) (h.counts.via p) rfl⟩
  · rcases h.locks.held p i hi with hr | hr
    · exact .inl (List.mem_cons_of_mem _ hr)
    · exact .inr hr
  · simp only [procHolds, hlent, hcwd, true_and, List.count_cons, Option.some.injEq, reduceCtorEq,
      false_and, if_false, beq_iff_eq]
    omega

theorem Invariant.setCwd (h : Invariant ts k) (hp : (k.ptable p).state = .live)
    (hcur : k.cur = p) {strict : Bool} {ip : Option Nat}
    (hpre : (ts p).pre strict (.setCwd ip))
    (hrun : (Kernel.setCwd ip).run k = .ok () k') :
    Invariant (Function.update ts p ((ts p).next (.setCwd ip) ())) k' := by
  cases hrun
  change Invariant _ (k.setProc k.cur { k.ptable k.cur with cwd := ip })
  rw [hcur]
  have hslot := live_slot h.counts hp
  have hlent : (ts p).lent = true := by
    cases ip with
    | none => exact hpre
    | some ip => exact hpre.1
  have hholds : ∀ i, procHolds ((ts p).next (.setCwd ip) ()) { k.ptable p with cwd := ip } i =
      procHolds (ts p) (k.ptable p) i := by
    intro i
    cases ip with
    | none => simp [procHolds, TypeState.next, hlent]
    | some ip =>
        have hdrop := procHolds_erase { ts p with refs := (ts p).refs.erase ip }
          (q := k.ptable p) hpre.2.1 rfl rfl i
        simp only [procHolds, TypeState.next, hlent, reduceCtorEq, false_and, if_false, true_and,
          Option.some.injEq] at hdrop ⊢
        rw [← hdrop]
        simp only [eq_comm, Nat.add_zero]
  have hnext : ((ts p).next (.setCwd ip) ()).trans = (ts p).trans ∧
      ((ts p).next (.setCwd ip) ()).locks = (ts p).locks ∧
      ((ts p).next (.setCwd ip) ()).via = (ts p).via ∧
      ((ts p).next (.setCwd ip) ()).child = (ts p).child := by
    cases ip <;> exact ⟨rfl, rfl, rfl, rfl⟩
  refine h.of_tables hnext.1 hnext.2.1 (fun i hi => ?_) (h.counts.of_proc rfl hp hp (fun i => ?_)
    (fun f hf => ?_) (h.counts.fds p) (fun i hi => ?_) (fun _ _ _ _ _ => ⟨rfl, rfl⟩) hnext.2.2.2)
  · rw [hnext.2.1] at hi
    rw [hnext.2.2.1]
    rcases h.locks.held p i hi with hr | hr
    · refine .inl ?_
      cases ip with
      | none => exact hr
      | some ip =>
          have hne : i ≠ ip := fun heq => hpre.2.2 (heq ▸ hi)
          exact (List.mem_erase_of_ne hne).2 hr
    · exact .inr hr
  · have hchange := holders_change ts k
      (k.setProc p { k.ptable p with cwd := ip })
      ((ts p).next (.setCwd ip) ()) hslot
      (fun q hq => by simp only [State.setProc, Function.update_of_ne hq]) (fun _ _ => rfl) i
    rw [show (k.setProc p { k.ptable p with cwd := ip }).ptable p =
      { k.ptable p with cwd := ip } from Function.update_self _ _ _, hholds i] at hchange
    have := h.counts.refs i
    exact this.trans (Nat.add_right_cancel hchange).symm
  · have hptr := pointers_update k (k.setProc p { k.ptable p with cwd := ip })
      hslot { k.ptable p with cwd := ip } f rfl
    have hopens : ({ k.ptable p with cwd := ip } : Proc).opens f = (k.ptable p).opens f := rfl
    rw [hopens] at hptr
    exact (h.counts.files f hf).trans (Nat.add_right_cancel hptr).symm
  · rw [hnext.2.2.1] at hi
    exact h.counts.via p i hi

/-! ## `fork` and `exit` -/

/-- Counting after the entry of another process `c` changed, one that is not
running, and the running process's `child` with it. -/
theorem Counts.of_child (h : Counts ts k) (c : Nat) (proc : Proc) {child : Option (Nat × Nat)}
    (hpt : k'.ptable = Function.update k.ptable c proc) (hc : c < NPROC)
    (hdead : (k.ptable c).state = .unused ∨ (k.ptable c).state = .embryo)
    (hrefs : ∀ i, (k'.icache i).ref + (if (k.ptable c).cwd = some i then 1 else 0) =
      (k.icache i).ref + if proc.cwd = some i then 1 else 0)
    (hfiles : ∀ f, f < NFILE → (k'.ftable f).ref + (k.ptable c).opens f =
      (k.ftable f).ref + proc.opens f)
    (halike : ∀ f, (0 < (k'.ftable f).ref ↔ 0 < (k.ftable f).ref) ∧
      (k'.ftable f).kind = (k.ftable f).kind ∧ (k'.ftable f).ip = (k.ftable f).ip)
    (hfds : ∀ fd f, proc.ofile fd = some f → fd < NOFILE ∧ f < NFILE)
    (hblank : proc.state = .unused → proc.cwd = none ∧ ∀ fd, proc.ofile fd = none)
    (hvia : ∀ fd f, (k.ptable c).ofile fd = some f → proc.ofile fd = some f)
    (hmine : ∀ n, child = some (c, n) → proc.state = .embryo ∧
      (∀ fd, n ≤ fd → proc.ofile fd = none) ∧ (n ≤ NOFILE → proc.cwd = none))
    (hchild : child = none ∨ ∃ n, child = some (c, n))
    (hothers : ∀ q n, q ≠ p → (ts q).child ≠ some (c, n)) :
    Counts (Function.update ts p { ts p with child := child }) k' := by
  have hself : k'.ptable c = proc := by rw [hpt, Function.update_self]
  have hrest : ∀ q, q ≠ c → k'.ptable q = k.ptable q := fun q hq => by
    rw [hpt, Function.update_of_ne hq]
  have hts : ∀ q, (Function.update ts p { ts p with child := child } q).refs = (ts q).refs ∧
      (Function.update ts p { ts p with child := child } q).via = (ts q).via ∧
      (Function.update ts p { ts p with child := child } q).lent = (ts q).lent := by
    intro q
    by_cases hq : q = p
    · rw [hq, Function.update_self]
      exact ⟨rfl, rfl, rfl⟩
    · rw [Function.update_of_ne hq]
      exact ⟨rfl, rfl, rfl⟩
  have hlent : (ts c).lent = false := by
    cases hl : (ts c).lent with
    | false => rfl
    | true =>
        have := h.lent c hl
        rcases hdead with hd | hd <;> rw [hd] at this <;> cases this
  refine
    { refs := fun i => ?_
      files := fun f hf => ?_
      fds := fun q fd f hq => ?_
      slots := fun q hq => ?_
      owner := fun q hq => ?_
      blank := fun q hq => ?_
      via := fun q i hi => ?_
      lent := fun q hq => ?_
      child := fun q d n hd => ?_
      parent := fun q r d n m hq hr => ?_ }
  · have hsum := sum_change (n := NPROC) (f := fun q => procHolds (ts q) (k.ptable q) i)
      (g := fun q => procHolds (Function.update ts p { ts p with child := child } q)
        (k'.ptable q) i) hc (fun q hq => by
          simp only [procHolds, (hts q).1, (hts q).2.2, hrest q hq])
    have hholds : ∀ f, (k'.ftable f).holds i = (k.ftable f).holds i := fun f => by
      simp only [File.holds, (halike f).1, (halike f).2.1, (halike f).2.2]
    have hold := h.refs i
    have hnew := hrefs i
    simp only [procHolds, (hts c).1, (hts c).2.2, hself, hlent, true_and] at hsum
    simp only [holders, procHolds, hholds] at hold ⊢
    omega
  · have hptr := pointers_update k k' hc proc f hpt
    have hold := h.files f hf
    have hnew := hfiles f hf
    omega
  · by_cases hqc : q = c
    · rw [hqc, hself] at hq
      exact hfds fd f hq
    · rw [hrest q hqc] at hq
      exact h.fds q fd f hq
  · by_cases hqc : q = c
    · rw [hqc]
      exact hc
    · rw [hrest q hqc] at hq
      exact h.slots q hq
  · rw [(hts q).1] at hq
    exact h.owner q hq
  · by_cases hqc : q = c
    · rw [hqc, hself] at hq ⊢
      exact hblank hq
    · rw [hrest q hqc] at hq ⊢
      exact h.blank q hq
  · rw [(hts q).2.1] at hi
    obtain ⟨fd, f, hfd, hkind, hip⟩ := h.via q i hi
    refine ⟨fd, f, ?_, by rw [(halike f).2.1, hkind], by rw [(halike f).2.2, hip]⟩
    by_cases hqc : q = c
    · rw [hqc] at hfd
      rw [hqc, hself]
      exact hvia fd f hfd
    · rw [hrest q hqc, hfd]
  · rw [(hts q).2.2] at hq
    have hqc : q ≠ c := fun heq => by
      rw [heq, hlent] at hq
      cases hq
    rw [hrest q hqc]
    exact h.lent q hq
  · by_cases hqp : q = p
    · rw [hqp, Function.update_self] at hd
      simp only at hd
      rcases hchild with hnone | ⟨m, hm⟩
      · rw [hnone] at hd
        cases hd
      · obtain ⟨rfl, rfl⟩ : c = d ∧ m = n := by
          rw [hm] at hd
          simpa using hd
        rw [hself]
        exact hmine m hm
    · rw [Function.update_of_ne hqp] at hd
      have hdc : d ≠ c := fun heq => hothers q n hqp (heq ▸ hd)
      rw [hrest d hdc]
      exact h.child q d n hd
  · by_cases hqp : q = p <;> by_cases hrp : r = p
    · rw [hqp, hrp]
    · rw [hqp, Function.update_self] at hq
      rw [Function.update_of_ne hrp] at hr
      simp only at hq
      rcases hchild with hnone | ⟨n', hn'⟩
      · rw [hnone] at hq
        cases hq
      · rw [hn'] at hq
        obtain ⟨rfl, -⟩ : c = d ∧ n' = n := by simpa using hq
        exact absurd hr (hothers r m hrp)
    · rw [hrp, Function.update_self] at hr
      rw [Function.update_of_ne hqp] at hq
      simp only at hr
      rcases hchild with hnone | ⟨n', hn'⟩
      · rw [hnone] at hr
        cases hr
      · rw [hn'] at hr
        obtain ⟨rfl, -⟩ : c = d ∧ n' = m := by simpa using hr
        exact absurd hq (hothers q n hqp)
    · rw [Function.update_of_ne hqp] at hq
      rw [Function.update_of_ne hrp] at hr
      exact h.parent q r d n m hq hr

theorem allocproc_ok {r : Option Nat} (hrun : (allocproc).run k = .ok r k') :
    (r = none ∧ k' = k) ∨ ∃ c, r = some c ∧ c < NPROC ∧ (k.ptable c).state = .unused ∧
      k' = k.setProc c { k.ptable c with state := .embryo } := by
  unfold allocproc at hrun
  rw [run_get_bind] at hrun
  cases hfind : (List.range NPROC).find? fun c => (k.ptable c).state = .unused with
  | none =>
      rw [hfind] at hrun
      cases hrun
      exact .inl ⟨rfl, rfl⟩
  | some c =>
      rw [hfind] at hrun
      cases hrun
      have hlt := List.mem_range.1 (List.mem_of_find?_eq_some hfind)
      have hunused := List.find?_some hfind
      exact .inr ⟨c, rfl, hlt, by simpa using hunused, rfl⟩

theorem Invariant.allocproc (h : Invariant ts k) {r : Option Nat}
    (hrun : (Kernel.allocproc).run k = .ok r k') :
    Invariant (Function.update ts p ((ts p).next .allocproc r)) k' := by
  rcases allocproc_ok hrun with ⟨rfl, rfl⟩ | ⟨c, rfl, hc, hunused, rfl⟩
  · rw [show (ts p).next .allocproc none = ts p from rfl, Function.update_eq_self]
    exact h
  · obtain ⟨hcwd, hofile⟩ := h.counts.blank c hunused
    refine h.of_tables rfl rfl (h.locks.held p) (h.counts.of_child c _ rfl hc (.inl hunused)
      (fun _ => rfl) (fun _ _ => rfl) (fun _ => ⟨Iff.rfl, rfl, rfl⟩) (h.counts.fds c)
      (fun hc => by cases hc) (fun _ _ hf => hf)
      (fun n _ => ⟨rfl, fun fd _ => hofile fd, fun _ => hcwd⟩) (.inr ⟨0, rfl⟩)
      (fun q n _ hq => ?_))
    have := (h.counts.child q c n hq).1
    rw [hunused] at this
    cases this

theorem Invariant.setState (h : Invariant ts k) {strict : Bool} {c : Nat} {s : ProcState}
    (hpre : (ts p).pre strict (.setState c s)) (hrun : (Kernel.setState c s).run k = .ok () k') :
    Invariant (Function.update ts p ((ts p).next (.setState c s) ())) k' := by
  cases hrun
  obtain ⟨⟨n, hn⟩, hs⟩ := hpre
  obtain ⟨hemb, hofile, hcwd⟩ := h.counts.child p c n hn
  refine h.of_tables rfl rfl (h.locks.held p) (h.counts.of_child c _ rfl
    (h.counts.slots c (by rw [hemb]; decide)) (.inr hemb) (fun _ => rfl) (fun _ _ => rfl)
    (fun _ => ⟨Iff.rfl, rfl, rfl⟩) (h.counts.fds c) (fun hunused => ?_) (fun _ _ hf => hf)
    (fun n hn => by cases hn) (.inl rfl) (fun q m hq hm => hq (h.counts.parent q p c m n hm hn)))
  rcases hs with ⟨-, h0⟩ | rfl
  · obtain ⟨-, hofile, hcwd⟩ := h.counts.child p c 0 h0
    exact ⟨hcwd (Nat.zero_le _), fun fd => hofile fd (Nat.zero_le _)⟩
  · cases hunused

theorem forkFd_ok {c fd : Nat} (hrun : (forkFd c fd).run k = .ok () k') :
    (k.proc.ofile fd = none ∧ k' = k) ∨ ∃ f, k.proc.ofile fd = some f ∧
      k' = (k.setFile f { k.ftable f with ref := (k.ftable f).ref + 1 }).setProc c
        ((k.ptable c).setFd fd (some f)) := by
  unfold forkFd at hrun
  rw [run_get_bind] at hrun
  cases hfd : k.proc.ofile fd with
  | none =>
      rw [hfd] at hrun
      cases hrun
      exact .inl ⟨rfl, rfl⟩
  | some f =>
      rw [hfd] at hrun
      obtain ⟨_, k₁, hdup, hrest⟩ := run_bind_eq_ok hrun
      cases hrest
      unfold filedup at hdup
      rw [run_get_bind, run_ite] at hdup
      split at hdup
      · cases hdup
      · cases hdup
        exact .inr ⟨f, rfl, rfl⟩

theorem Invariant.forkFd (h : Invariant ts k) (hcur : k.cur = p) {strict : Bool} {c fd : Nat}
    (hpre : (ts p).pre strict (.forkFd c fd)) (hrun : (Kernel.forkFd c fd).run k = .ok () k') :
    Invariant (Function.update ts p ((ts p).next (.forkFd c fd) ())) k' := by
  obtain ⟨hchild, hfd⟩ := hpre
  obtain ⟨hemb, hofile, hcwd⟩ := h.counts.child p c fd hchild
  have hslot := h.counts.slots c (by rw [hemb]; decide)
  have hothers : ∀ q m, q ≠ p → (ts q).child ≠ some (c, m) := fun q m hq hm =>
    hq (h.counts.parent q p c m fd hm hchild)
  rcases forkFd_ok hrun with ⟨-, rfl⟩ | ⟨f, hopen, rfl⟩
  · refine ⟨h.wf, h.locks.same rfl (fun _ => rfl) (fun _ _ hv => hv) rfl rfl (h.locks.held p), ?_⟩
    refine h.counts.of_child c (k'.ptable c) (Function.update_eq_self _ _).symm hslot
      (.inr hemb) (fun _ => rfl) (fun _ _ => rfl) (fun _ => ⟨Iff.rfl, rfl, rfl⟩) (h.counts.fds c)
      (fun hunused => by rw [hemb] at hunused; cases hunused) (fun _ _ hf => hf)
      (fun n hn => ?_) (.inr ⟨fd + 1, rfl⟩) hothers
    obtain ⟨-, rfl⟩ : c = c ∧ fd + 1 = n := by simpa using hn
    exact ⟨hemb, fun d hd => hofile d (by omega), fun hn => hcwd (by omega)⟩
  · rw [State.proc, hcur] at hopen
    have hpos := h.counts.file_pos hopen
    have hf := (h.counts.fds p fd f hopen).2
    have hnone := hofile fd (Nat.le_refl _)
    refine h.of_tables rfl rfl (h.locks.held p) (h.counts.of_child c
      ((k.ptable c).setFd fd (some f)) rfl hslot (.inr hemb) (fun _ => rfl)
      (fun g _ => ?_) (fun g => ?_) (fun d g hg => ?_)
      (fun hunused => ?_) (fun d g hg => ?_) (fun n hn => ?_) (.inr ⟨fd + 1, rfl⟩) hothers)
    · have hone := opens_update (q := k.ptable c) hfd (some f) g
      rw [hnone] at hone
      simp only [State.setFile]
      by_cases hg : g = f
      · subst hg
        rw [Function.update_self]
        simp only [if_true, reduceCtorEq, if_false] at hone ⊢
        omega
      · rw [Function.update_of_ne hg]
        have hfg : (some f = some g) = False := by simp [Ne.symm hg]
        simp only [hfg, if_false, reduceCtorEq] at hone
        omega
    · simp only [State.setFile]
      by_cases hg : g = f
      · subst hg
        rw [Function.update_self]
        exact ⟨⟨fun _ => hpos, fun _ => Nat.succ_pos _⟩, rfl, rfl⟩
      · rw [Function.update_of_ne hg]
        exact ⟨Iff.rfl, rfl, rfl⟩
    · by_cases hd : d = fd
      · simp only [Proc.setFd, hd, Function.update_self, Option.some.injEq] at hg
        rw [hd, ← hg]
        exact ⟨hfd, hf⟩
      · simp only [Proc.setFd, Function.update_of_ne hd] at hg
        exact h.counts.fds c d g hg
    · rw [show ((k.ptable c).setFd fd (some f)).state = (k.ptable c).state from rfl, hemb]
        at hunused
      cases hunused
    · have hd : d ≠ fd := fun heq => by
        rw [heq, hnone] at hg
        cases hg
      simpa [Proc.setFd, Function.update_of_ne hd] using hg
    · obtain ⟨-, rfl⟩ : c = c ∧ fd + 1 = n := by simpa using hn
      refine ⟨hemb, fun d hd => ?_, fun hn => hcwd (by omega)⟩
      simp only [Proc.setFd]
      rw [Function.update_of_ne (by omega)]
      exact hofile d (by omega)

theorem forkCwd_ok {c : Nat} (hrun : (forkCwd c).run k = .ok () k') :
    ∃ ip, k.proc.cwd = some ip ∧
      k' = (k.setEntry ip { k.icache ip with ref := (k.icache ip).ref + 1 }).setProc c
        { k.ptable c with cwd := some ip } := by
  unfold forkCwd at hrun
  obtain ⟨ip, k₁, hdup, hrest⟩ := run_bind_eq_ok hrun
  obtain ⟨hcwd, rfl⟩ := idupCwd_ok hdup
  cases hrest
  exact ⟨ip, hcwd, rfl⟩

theorem Invariant.forkCwd (h : Invariant ts k) {strict : Bool} {c : Nat}
    (hpre : (ts p).pre strict (.forkCwd c)) (hrun : (Kernel.forkCwd c).run k = .ok () k') :
    Invariant (Function.update ts p ((ts p).next (.forkCwd c) ())) k' := by
  obtain ⟨hchild, -⟩ := hpre
  obtain ⟨hemb, hofile, hcwd⟩ := h.counts.child p c NOFILE hchild
  have hslot := h.counts.slots c (by rw [hemb]; decide)
  obtain ⟨ip, -, rfl⟩ := forkCwd_ok hrun
  obtain ⟨k₁, hk₁⟩ : ∃ k₁, k₁ = k.setEntry ip
    { k.icache ip with ref := (k.icache ip).ref + 1 } := ⟨_, rfl⟩
  rw [← hk₁]
  have hentry : ∀ i, k₁.icache i = if i = ip then { k.icache ip with ref := (k.icache ip).ref + 1 }
      else k.icache i := by
    intro i
    rw [hk₁]
    by_cases hi : i = ip
    · rw [hi, State.setEntry_self, if_pos rfl]
    · rw [State.setEntry_of_ne _ _ hi, if_neg hi]
  have hdisk : DiskSame k (k₁.setProc c { k.ptable c with cwd := some ip }) := by
    rw [hk₁]
    exact ⟨rfl, rfl, rfl, rfl, rfl, fun _ _ => rfl⟩
  have hbusy : ∀ i, (k₁.icache i).busy = (k.icache i).busy ∧
      (k₁.icache i).valid = (k.icache i).valid := by
    intro i
    rw [hentry]
    split
    · rename_i hi
      rw [hi]
      exact ⟨rfl, rfl⟩
    · exact ⟨rfl, rfl⟩
  have hicopy : k₁.icopy = k.icopy := by rw [hk₁]; rfl
  have hstarved : k₁.starved = k.starved := by rw [hk₁]; rfl
  have hlog : k₁.log = k.log := by rw [hk₁]; rfl
  have hpt : k₁.ptable = k.ptable := by rw [hk₁]; rfl
  have hft : k₁.ftable = k.ftable := by rw [hk₁]; rfl
  refine ⟨fun hs => (h.wf (hstarved.symm.trans hs)).of_same hdisk fun i hv => ?_,
    h.locks.same ?_ (fun i => (hbusy i).1)
    (fun i _ hv => (hbusy i).2.trans hv) rfl rfl (h.locks.held p), ?_⟩
  · exact ⟨(hbusy i).2.symm.trans hv, congrFun hicopy i⟩
  · exact congrArg Log.busy hlog
  · refine h.counts.of_child c { k.ptable c with cwd := some ip } ?_ hslot
      (.inr hemb) (fun i => ?_) (fun f _ => ?_) (fun f => ?_) (h.counts.fds c)
      (fun hunused => ?_) (fun _ _ hf => hf) (fun n hn => ?_) (.inr ⟨NOFILE + 1, rfl⟩)
      (fun q m hq hm => hq (h.counts.parent q p c m NOFILE hm hchild))
    · rw [State.setProc, hpt]
    · rw [hcwd (Nat.le_refl _)]
      have hsame : ((k₁.setProc c { k.ptable c with cwd := some ip }).icache i).ref =
          (k₁.icache i).ref := rfl
      rw [hsame, hentry]
      by_cases hi : i = ip
      · subst hi
        simp
      · have hip : (some ip = some i) = False := by simp [Ne.symm hi]
        simp [hi, hip]
    · exact congrArg (fun file : File => file.ref + (k.ptable c).opens f) (congrFun hft f)
    · rw [show (k₁.setProc c { k.ptable c with cwd := some ip }).ftable f = k.ftable f from
        congrFun hft f]
      exact ⟨Iff.rfl, rfl, rfl⟩
    · rw [show ({ k.ptable c with cwd := some ip } : Proc).state = (k.ptable c).state from rfl,
        hemb] at hunused
      cases hunused
    · obtain ⟨-, rfl⟩ : c = c ∧ NOFILE + 1 = n := by simpa using hn
      exact ⟨hemb, fun d hd => hofile d (by omega), fun hn => by omega⟩

theorem exitCheck_ok (hrun : (exitCheck).run k = .ok () k') : k' = k := by
  unfold exitCheck at hrun
  rw [run_get_bind, run_ite] at hrun
  split at hrun
  · cases hrun
  · cases hrun
    rfl

theorem Invariant.exitProc (h : Invariant ts k) (hp : (k.ptable p).state = .live)
    (hidle : (ts p).Idle) (hrun : (Kernel.setState p .zombie).run k = .ok () k') :
    Invariant (Function.update ts p (ts p)) k' := by
  cases hrun
  have hslot := live_slot h.counts hp
  have hself : (k.setProc p { k.ptable p with state := .zombie }).ptable p =
      { k.ptable p with state := .zombie } := Function.update_self _ _ _
  have hrest : ∀ q, q ≠ p → (k.setProc p { k.ptable p with state := .zombie }).ptable q =
      k.ptable q := fun q hq => Function.update_of_ne hq _ _
  have hsame : ∀ q, ((k.setProc p { k.ptable p with state := .zombie }).ptable q).cwd =
      (k.ptable q).cwd ∧ ((k.setProc p { k.ptable p with state := .zombie }).ptable q).ofile =
      (k.ptable q).ofile := by
    intro q
    by_cases hq : q = p
    · rw [hq, hself]
      exact ⟨rfl, rfl⟩
    · rw [hrest q hq]
      exact ⟨rfl, rfl⟩
  refine h.of_tables rfl rfl (h.locks.held p) ?_
  rw [Function.update_eq_self]
  change Counts ts (k.setProc p { k.ptable p with state := .zombie })
  refine
    { refs := fun i => ?_
      files := fun f hf => ?_
      fds := fun q fd f hq => ?_
      slots := fun q hq => ?_
      owner := h.counts.owner
      blank := fun q hq => ?_
      via := fun q i hi => ?_
      lent := fun q hq => ?_
      child := fun q c n hc => ?_
      parent := h.counts.parent }
  · have hold := h.counts.refs i
    simp only [holders, procHolds] at hold ⊢
    simp only [(hsame _).1]
    exact hold
  · have hold := h.counts.files f hf
    simp only [pointers, Proc.opens] at hold ⊢
    simp only [(hsame _).2]
    exact hold
  · rw [(hsame q).2] at hq
    exact h.counts.fds q fd f hq
  · by_cases hqp : q = p
    · rw [hqp]
      exact hslot
    · rw [hrest q hqp] at hq
      exact h.counts.slots q hq
  · by_cases hqp : q = p
    · rw [hqp, hself] at hq
      cases hq
    · rw [hrest q hqp] at hq ⊢
      exact h.counts.blank q hq
  · rw [(hsame q).2]
    exact h.counts.via q i hi
  · have hqp : q ≠ p := fun heq => by
      rw [heq, hidle.lent] at hq
      cases hq
    rw [hrest q hqp]
    exact h.counts.lent q hq
  · have hemb := h.counts.child q c n hc
    have hcp : c ≠ p := fun heq => by
      rw [heq, hp] at hemb
      cases hemb.1
    rw [hrest c hcp]
    exact hemb

end Xv6.Kernel
