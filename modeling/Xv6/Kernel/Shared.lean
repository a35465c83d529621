import Xv6.Kernel.ByteFile
import Xv6.Kernel.Starved
import Xv6.Kernel.Sysfile

/-!
# Writes through a shared offset

Processes that share an open file, through `fork` or `dup`, call `filewrite` at the
same time.  Each call writes its bytes in sections of at most `maxWrite`, and a
section, from `begin_trans` to `commit_trans`, is not interrupted by another.  `Sections`
are the interleavings of such sections; the trace lists which call wrote what.

## Main results

* `section_spec`: one section puts its bytes where the offset is, and moves the offset
  past them.
* `shared_writes`: after any interleaving the bytes of all sections stand one after the
  other, those of each call in order, and no section can fail.
-/

namespace Xv6.Kernel

open Xv6.Verified
open Exec

/-! ## Calls and sections -/

/-- A `filewrite` call: who makes it, through which descriptor, and the bytes that are
left.  `failed` records that a section was refused. -/
structure Writer where
  proc : Nat
  fd : Nat
  rest : List UInt8
  failed : Bool
  deriving DecidableEq

/-- The next section of a call. -/
def Writer.chunk (w : Writer) : List UInt8 := w.rest.take Sys.maxWrite

/-- The section as the process executes it. -/
def Writer.code (w : Writer) (ip : Nat) : K Int :=
  (Sys.writeChunk w.fd ip w.chunk).run (Act.exec w.proc)

/-- What the loop of `filewrite` does with the value of the section. -/
def Writer.after (w : Writer) (r : Int) : Writer :=
  if r = w.chunk.length then { w with rest := w.rest.drop Sys.maxWrite }
  else { w with failed := true }

/-- The section's entry in the trace. -/
def Writer.wrote (w : Writer) (i : Nat) (r : Int) : List (Nat × List UInt8) :=
  if r = w.chunk.length then [(i, w.chunk)] else []

/-- The sections of the calls `ws` on file `f`, in any order. -/
inductive Sections (f : Nat) (k : State) (ws : List Writer) :
    List (Nat × List UInt8) → State → List Writer → Prop
  | refl : Sections f k ws [] k ws
  | step {tr : List (Nat × List UInt8)} {k₁ k₂ : State} {ws₁ : List Writer} {i : Nat} {w : Writer}
      {r : Int} (h : Sections f k ws tr k₁ ws₁) (hi : ws₁[i]? = some w) (hrest : w.rest ≠ [])
      (hgoing : w.failed = false)
      (hrun : (w.code (k₁.ftable f).ip).run k₁ = .ok r k₂) :
      Sections f k ws (tr ++ w.wrote i r) k₂ (ws₁.set i (w.after r))

/-- The bytes written so far. -/
def written (tr : List (Nat × List UInt8)) : List UInt8 := (tr.map Prod.snd).flatten

/-- The sections of call `i`. -/
def pieces (tr : List (Nat × List UInt8)) (i : Nat) : List (List UInt8) :=
  (tr.filter fun x => x.1 = i).map Prod.snd

/-- A list cut after every `maxWrite` bytes. -/
def cut : Nat → List UInt8 → List (List UInt8)
  | 0, _ => []
  | fuel + 1, bytes =>
      if bytes = [] then [] else bytes.take Sys.maxWrite :: cut fuel (bytes.drop Sys.maxWrite)

/-- How `filewrite` cuts up its bytes. -/
def chunks (bytes : List UInt8) : List (List UInt8) := cut bytes.length bytes

theorem flatten_cut (fuel : Nat) {bytes : List UInt8} (h : bytes.length ≤ fuel) :
    (cut fuel bytes).flatten = bytes := by
  induction fuel generalizing bytes with
  | zero =>
      rw [List.length_eq_zero_iff.1 (Nat.le_zero.1 h)]
      rfl
  | succ fuel ih =>
      rw [cut]
      split
      · rename_i hnil
        rw [hnil]
        rfl
      · rename_i hnil
        have hlen : 0 < bytes.length := List.length_pos_iff.2 hnil
        have hdrop : (bytes.drop Sys.maxWrite).length ≤ fuel := by
          rw [List.length_drop]
          simp only [Sys.maxWrite, LOGSIZE, BSIZE]
          omega
        rw [List.flatten_cons, ih hdrop, List.take_append_drop]

theorem cut_fuel {fuel fuel' : Nat} {bytes : List UInt8} (h : bytes.length ≤ fuel)
    (h' : bytes.length ≤ fuel') : cut fuel bytes = cut fuel' bytes := by
  induction fuel generalizing bytes fuel' with
  | zero =>
      rw [List.length_eq_zero_iff.1 (Nat.le_zero.1 h)]
      cases fuel' <;> rfl
  | succ fuel ih =>
      by_cases hnil : bytes = []
      · rw [hnil]
        cases fuel' <;> rfl
      · have hlen : 0 < bytes.length := List.length_pos_iff.2 hnil
        obtain ⟨fuel', rfl⟩ : ∃ n, fuel' = n + 1 := ⟨fuel' - 1, by omega⟩
        have hdrop : ∀ n, bytes.length ≤ n + 1 → (bytes.drop Sys.maxWrite).length ≤ n := by
          intro n hn
          rw [List.length_drop]
          simp only [Sys.maxWrite, LOGSIZE, BSIZE]
          omega
        rw [cut, cut, if_neg hnil, if_neg hnil, ih (hdrop fuel h) (hdrop fuel' h')]

theorem chunks_cons {bytes : List UInt8} (h : bytes ≠ []) :
    chunks bytes = bytes.take Sys.maxWrite :: chunks (bytes.drop Sys.maxWrite) := by
  have hlen : 0 < bytes.length := List.length_pos_iff.2 h
  rw [chunks, show bytes.length = (bytes.length - 1) + 1 by omega, cut, if_neg h, chunks]
  congr 1
  apply cut_fuel
  · rw [List.length_drop]
    simp only [Sys.maxWrite, LOGSIZE, BSIZE]
    omega
  · exact Nat.le_refl _

/-- Nothing is lost in cutting. -/
theorem flatten_chunks (bytes : List UInt8) : (chunks bytes).flatten = bytes :=
  flatten_cut _ (Nat.le_refl _)

/-! ## One section -/

/-- File `f` is open on a regular file, and nobody is in the middle of anything. -/
structure State.Sharable (k : State) (f : Nat) : Prop where
  wf : Wf k
  idle : LogIdle k
  file : (k.dinode (k.ftable f).ip).type = .file
  ref : 1 ≤ (k.icache (k.ftable f).ip).ref
  unlocked : (k.icache (k.ftable f).ip).busy = none
  inside : (k.ftable f).off ≤ (k.dinode (k.ftable f).ip).size

/-- The caller is alive and its descriptor is the file. -/
structure Writer.Shares (w : Writer) (f : Nat) (k : State) : Prop where
  live : (k.ptable w.proc).state = .live
  fd : w.fd < NOFILE
  slot : (k.ptable w.proc).ofile w.fd = some f

/-- What a section that wrote `src` through file `f` did. -/
structure Appended (f : Nat) (src : List UInt8) (k k' : State) : Prop where
  sharable : k'.Sharable f
  ip : (k'.ftable f).ip = (k.ftable f).ip
  off : (k'.ftable f).off = (k.ftable f).off + src.length
  self : k'.files (k.ftable f).ip = splice (k.files (k.ftable f).ip) (fun o => src.getD o 0)
    (k.ftable f).off src.length
  others : ∀ j, j ≠ (k.ftable f).ip → k'.files j = k.files j
  ptable : k'.ptable = k.ptable

/-- A write of at most three blocks' worth, in a transaction that has logged nothing. -/
theorem writei_fits {k : State} (h : Wf k) (hg : Geometry k) (hempty : k.log.lh = [])
    (hbusy : k.log.busy ≠ none) {ip : Nat} (hv : (k.icache ip).valid = true)
    (ht : (k.dinode ip).type = .file) (src : Nat → UInt8) {off n : Nat}
    (hoff : off ≤ (k.dinode ip).size) (hmax : off + n ≤ MAXFILE * BSIZE) (hn : n ≤ 3 * BSIZE) :
    wp (writei ip src off n)
      (fun r k' => k'.starved = false → r = n ∧ Wrote ip ((k.node ip).write src off n) k k' ∧
        Geometry k') (fun _ k' => k'.starved = false → False) k := by
  have hroom : Room (k.indirectOf ip ++ [k.bitBlock, iblock ip]) k :=
    ⟨hg, hbusy, fun x hx => by rw [hempty] at hx; cases hx⟩
  have hblocks : blocksOf off n ≤ 4 := blocksOf_chunk hn
  have hlen : [k.bitBlock, iblock ip].length + blocksOf off n ≤ 7 := by
    simp only [List.length_cons, List.length_nil]
    omega
  have hfit : wp (writei ip src off n) (fun _ k' => Geometry k') NotLog k := by
    refine wp_imp (writei_room hroom (by simp) (by simp) hlen) ?_
    rintro r k' ⟨S', -, -, hroom'⟩
    exact hroom'.geometry
  refine wp_mono (wp_and hfit (writei_spec h hv (.inl ht) hoff hmax)) ?_ ?_
  · rintro r k' ⟨hgeom, hspec⟩ hs
    exact ⟨(hspec hs).1, (hspec hs).2, hgeom⟩
  · rintro e k' ⟨hnot, hstop⟩ hs
    exact hnot.1 (hstop hs)

/-- The state in which the section writes: the log is taken and the inode locked. -/
def State.entered (k : State) (p ip : Nat) : State :=
  { k with
    cur := p
    log := { k.log with busy := some p }
    icache := Function.update k.icache ip ⟨(k.icache ip).ref, some p, true⟩
    icopy := if (k.icache ip).valid then k.icopy else Function.update k.icopy ip (k.dinode ip) }

/-- The end of the section. -/
def State.left (k : State) (f ip r : Nat) : State :=
  { k with
    ftable := Function.update k.ftable f { k.ftable f with off := ((k.ftable f).off + r) % UINT }
    icache := Function.update k.icache ip { k.icache ip with busy := none }
    data :=
      if k.log.lh = [] then k.data
      else Function.update k.data k.log.start (setHead (setHead (k.data k.log.start) k.log.lh) [])
    log := { k.log with lh := [], busy := none } }

section Section

variable {k : State} {f : Nat} {w : Writer}

theorem run_begin (hidle : k.log.busy = none) (hlive : (k.ptable w.proc).state = .live) :
    (Act.exec w.proc .beginTrans).run k =
      .ok () { k with cur := w.proc, log := { k.log with busy := some w.proc } } := by
  rw [run_exec hlive]
  simp [Act.code, beginTrans, hidle]

/-- Locking an inode that nobody has locked. -/
theorem run_ilock {ip : Nat} (href : 1 ≤ (k.icache ip).ref) (hbusy : (k.icache ip).busy = none)
    (hfree : (k.dinode ip).type ≠ .free) :
    (ilock ip).run k = .ok () { k with
      icache := Function.update k.icache ip ⟨(k.icache ip).ref, some k.cur, true⟩
      icopy := if (k.icache ip).valid then k.icopy
        else Function.update k.icopy ip (k.dinode ip) } := by
  rw [ilock, run_get_bind, run_ite, if_neg (by omega), run_ite, if_neg (by simp [hbusy]),
    run_modify_bind, run_ite]
  cases hv : (k.icache ip).valid with
  | true => simp [State.setEntry, ← hv]
  | false => simp [State.setEntry, State.setCopy, hfree]

/-- The disk and the cache once the section has begun. -/
theorem State.Sharable.entered (h : k.Sharable f) (p : Nat) :
    Wf (k.entered p (k.ftable f).ip) ∧ (k.entered p (k.ftable f).ip).node = k.node := by
  obtain ⟨ip, hip⟩ : ∃ ip, ip = (k.ftable f).ip := ⟨_, rfl⟩
  have htype := h.file
  rw [← hip] at htype ⊢
  have hdisk : DiskSame k (k.entered p ip) := ⟨rfl, rfl, rfl, rfl, rfl, fun _ _ => rfl⟩
  obtain ⟨hwf, -, hnode⟩ := h.wf.of_disk hdisk fun i hv => by
    by_cases hi : i = ip
    · subst hi
      refine ⟨?_, by rw [show (k.entered p i).dinode i = k.dinode i from rfl, htype]; decide⟩
      show (if (k.icache i).valid then k.icopy else Function.update k.icopy i (k.dinode i)) i =
        k.dinode i
      split
      · rename_i hold
        exact h.wf.coherent i hold
      · exact Function.update_self _ _ _
    · have hold : (k.icache i).valid = true := by
        rwa [show (k.entered p ip).icache i = k.icache i from Function.update_of_ne hi _ _] at hv
      refine ⟨?_, h.wf.live i hold⟩
      show (if (k.icache ip).valid then k.icopy else Function.update k.icopy ip (k.dinode ip)) i =
        k.dinode i
      rw [← h.wf.coherent i hold]
      split
      · rfl
      · exact Function.update_of_ne hi _ _
  exact ⟨hwf, hnode⟩

theorem Writer.chunk_length (w : Writer) : w.chunk.length ≤ 3 * BSIZE := by
  rw [Writer.chunk, List.length_take]
  simp only [Sys.maxWrite, LOGSIZE, BSIZE]
  omega

/-- The last three acts of a section, after a write that returned `r`. -/
theorem section_end {ip r : Nat} (hlive : (k.ptable w.proc).state = .live) (hcur : k.cur = w.proc)
    (hfd : w.fd < NOFILE) (hslot : (k.ptable w.proc).ofile w.fd = some f) (hr : 0 < r)
    (hbusy : (k.icache ip).busy = some w.proc) (href : 1 ≤ (k.icache ip).ref)
    {Q : Int → State → Prop} {E : Stop → State → Prop} (hQ : Q r (k.left f ip r)) :
    Prog.wp (Act.exec w.proc) (fun _ _ => True) Q E (do
      Sys.advance w.fd r
      Sys.act (.iunlock ip)
      Sys.act .commitTrans
      return (r : Int)) k := by
  have hsame : ({ k with cur := w.proc } : State) = k := by rw [← hcur]
  obtain ⟨k₁, hk₁⟩ : ∃ k₁ : State, k₁ = k.setFile f
    { k.ftable f with off := ((k.ftable f).off + r) % UINT } := ⟨_, rfl⟩
  have hadvance : (Act.exec w.proc (.fdadvance w.fd r)).run k = .ok () k₁ := by
    rw [run_exec hlive, hsame]
    simp [Act.code, fdadvance, argfd, State.proc, hcur, hfd, hslot, run_bind, hk₁]
  obtain ⟨k₂, hk₂⟩ : ∃ k₂ : State, k₂ = k₁.setEntry ip { k.icache ip with busy := none } :=
    ⟨_, rfl⟩
  have hunlock : (Act.exec w.proc (.iunlock ip)).run k₁ = .ok () k₂ := by
    rw [run_exec (by rw [hk₁]; exact hlive),
      show ({ k₁ with cur := w.proc } : State) = k₁ by rw [hk₁, ← hcur]; rfl]
    have hb : (k₁.icache ip).busy = some w.proc := by rw [hk₁]; exact hbusy
    have hr₁ : 1 ≤ (k₁.icache ip).ref := by rw [hk₁]; exact href
    rw [Act.code, Kernel.iunlock, run_get_bind, run_ite, if_neg (by simp [hb]; omega), run_modify]
    rw [hk₂, hk₁]
    rfl
  have hcommit : (Act.exec w.proc .commitTrans).run k₂ = .ok () (k.left f ip r) := by
    rw [run_exec (by rw [hk₂, hk₁]; exact hlive),
      show ({ k₂ with cur := w.proc } : State) = k₂ by rw [hk₂, hk₁, ← hcur]; rfl, hk₂, hk₁]
    rfl
  rw [Sys.advance, if_pos hr]
  apply wp_act_ok hadvance
  apply wp_act_ok hunlock
  apply wp_act_ok hcommit
  exact hQ

/-- What the end of the section leaves behind. -/
theorem appended_left {k' : State} (h : k.Sharable f)
    (hwrote : Wrote (k.ftable f).ip ((k.node (k.ftable f).ip).write
      (fun o => w.chunk.getD o 0) (k.ftable f).off w.chunk.length)
      (k.entered w.proc (k.ftable f).ip) k')
    (hgeom : Geometry k') (hmax : (k.ftable f).off + w.chunk.length ≤ MAXFILE * BSIZE) :
    Appended f w.chunk k (k'.left f (k.ftable f).ip w.chunk.length) := by
  obtain ⟨ip, hip⟩ : ∃ ip, ip = (k.ftable f).ip := ⟨_, rfl⟩
  obtain ⟨k₁, hk₁⟩ : ∃ k₁, k₁ = k'.left f ip w.chunk.length := ⟨_, rfl⟩
  rw [← hip] at hwrote ⊢
  rw [← hk₁]
  have hft : k'.ftable = k.ftable := hwrote.frame.ftable
  have hdisk : DiskSame k' k₁ := by
    subst hk₁
    refine ⟨rfl, rfl, rfl, rfl, rfl, fun b hb => ?_⟩
    show (if k'.log.lh = [] then k'.data else Function.update k'.data k'.log.start _) b = _
    split
    · rfl
    · exact Function.update_of_ne (Nat.ne_of_lt hb) _ _
  have hwf : Wf k₁ := by
    refine hwrote.wf.of_same hdisk fun i hi => ⟨?_, by rw [hk₁]; rfl⟩
    rw [hk₁] at hi
    by_cases hip' : i = ip
    · subst hip'
      rw [hwrote.frame.icache]
      show (Function.update k.icache i _ i).valid = true
      rw [Function.update_self]
    · rwa [show (k'.left f ip w.chunk.length).icache i = k'.icache i from
        Function.update_of_ne hip' _ _] at hi
  have hnode : k₁.node = Function.update k.node ip ((k.node ip).write
      (fun o => w.chunk.getD o 0) (k.ftable f).off w.chunk.length) := by
    rw [(hwrote.wf.of_disk hdisk fun i hi => ⟨hwf.coherent i hi, hwf.live i hi⟩).2.2, hwrote.node,
      hip, (h.entered w.proc).2]
  have hfile : k₁.ftable f = { k.ftable f with
      off := ((k.ftable f).off + w.chunk.length) % UINT } := by
    rw [hk₁, ← hft]
    exact Function.update_self _ _ _
  have hoff : (k₁.ftable f).off = (k.ftable f).off + w.chunk.length := by
    rw [hfile]
    apply Nat.mod_eq_of_lt
    simp only [UINT, MAXFILE, BSIZE] at *
    omega
  have hentry : k₁.icache ip = ⟨(k.icache ip).ref, none, true⟩ := by
    rw [hk₁]
    show Function.update k'.icache ip { k'.icache ip with busy := none } ip = _
    rw [Function.update_self, hwrote.frame.icache]
    show ({ (Function.update k.icache ip ⟨(k.icache ip).ref, some w.proc, true⟩) ip with
      busy := none } : CacheEntry) = _
    rw [Function.update_self]
  have hself : k₁.node ip = (k.node ip).write (fun o => w.chunk.getD o 0) (k.ftable f).off
      w.chunk.length := by
    rw [hnode, Function.update_self]
  have hip₁ : (k₁.ftable f).ip = ip := by rw [hfile, hip]
  refine ⟨⟨hwf, ⟨⟨?_, ?_, ?_, ?_⟩, ?_, ?_⟩, ?_, ?_, ?_, ?_⟩, ?_, hoff, ?_, ?_, ?_⟩
  · rw [hk₁]
    exact hgeom.log
  · rw [hk₁]
    exact hgeom.bits
  · rw [hk₁]
    exact hgeom.zero
  · rw [hk₁]
    exact List.nodup_nil
  · rw [hk₁]
    rfl
  · rw [hk₁]
    rfl
  · rw [hip₁]
    show (k₁.node ip).type = _
    rw [hself, hip]
    exact h.file
  · rw [hip₁, hentry, hip]
    exact h.ref
  · rw [hip₁, hentry]
  · rw [hip₁, hoff]
    show _ ≤ (k₁.node ip).size
    rw [hself]
    exact Nat.le_max_right _ _
  · rw [hip₁, hip]
  · show (k₁.node (k.ftable f).ip).content = _
    rw [← hip, hself, Node.write_content _ _ (by rw [hip]; exact h.inside)]
    rfl
  · intro j hj
    show (k₁.node j).content = _
    rw [hnode, Function.update_of_ne (by rw [hip]; exact hj)]
    rfl
  · rw [hk₁]
    exact hwrote.frame.ptable

/-- **One section.**  It cannot fail while there are free data blocks, and it appends its
bytes at the offset. -/
theorem section_spec (h : k.Sharable f) (hw : w.Shares f k) (hsrc : w.chunk ≠ [])
    (hmax : (k.ftable f).off + w.chunk.length ≤ MAXFILE * BSIZE) :
    wp (w.code (k.ftable f).ip)
      (fun r k' => k'.starved = false → r = w.chunk.length ∧ Appended f w.chunk k k')
      (fun _ k' => k'.starved = false → False) k := by
  obtain ⟨ip, hip⟩ : ∃ ip, ip = (k.ftable f).ip := ⟨_, rfl⟩
  obtain ⟨off, hoff⟩ : ∃ off, off = (k.ftable f).off := ⟨_, rfl⟩
  obtain ⟨n, hn⟩ : ∃ n, n = w.chunk.length := ⟨_, rfl⟩
  have hpos : 0 < n := by rw [hn]; exact List.length_pos_iff.2 hsrc
  have hsmall : n ≤ 3 * BSIZE := by rw [hn]; exact w.chunk_length
  obtain ⟨hwf, hnode⟩ := h.entered w.proc
  have htype := h.file
  have hinside := h.inside
  rw [← hip] at hwf hnode htype hinside ⊢
  rw [← hoff] at hinside hmax
  rw [← hn] at hmax ⊢
  have hsize : off < UINT ∧ n < UINT := by
    simp only [UINT, MAXFILE, BSIZE] at *
    omega
  obtain ⟨k₁, hk₁⟩ : ∃ k₁ : State,
    k₁ = { k with cur := w.proc, log := { k.log with busy := some w.proc } } := ⟨_, rfl⟩
  have hbegin : (Act.exec w.proc .beginTrans).run k = .ok () k₁ := by
    rw [hk₁]
    exact run_begin h.idle.busy hw.live
  have hlock : (Act.exec w.proc (.ilock ip)).run k₁ = .ok () (k.entered w.proc ip) := by
    rw [run_exec (by rw [hk₁]; exact hw.live),
      show ({ k₁ with cur := w.proc } : State) = k₁ by rw [hk₁], Act.code,
      run_ilock (by rw [hk₁, hip]; exact h.ref) (by rw [hk₁, hip]; exact h.unlocked)
        (by rw [hk₁]; show (k.dinode ip).type ≠ _; rw [htype]; decide), hk₁]
    rfl
  have hlive : ((k.entered w.proc ip).ptable w.proc).state = .live := hw.live
  have hoffset : (Act.exec w.proc (.fdoffset w.fd)).run (k.entered w.proc ip) =
      .ok off (k.entered w.proc ip) := by
    rw [run_exec hlive]
    simp [Act.code, fdoffset, argfd, State.proc, State.entered, hw.fd, hw.slot, run_bind, hoff]
  have hwrite := writei_fits hwf ⟨h.idle.geometry.log, h.idle.geometry.bits, h.idle.geometry.zero,
    h.idle.geometry.nodup⟩ h.idle.empty (by simp [State.entered])
    (by simp [State.entered] : ((k.entered w.proc ip).icache ip).valid = true) htype
    (fun o => w.chunk.getD o 0) hinside hmax hsmall
  refine Prog.wp_run_of_true ?_
  apply wp_act_ok hbegin
  apply wp_act_ok hlock
  apply wp_act_ok hoffset
  intro _
  have hexec : (Act.exec w.proc (.writei ip w.chunk off)).run (k.entered w.proc ip) =
      (writei ip (fun o => w.chunk.getD o 0) off n).run (k.entered w.proc ip) := by
    rw [run_exec hlive, Act.code, Nat.mod_eq_of_lt hsize.1, ← hn, Nat.mod_eq_of_lt hsize.2]
    rfl
  cases hrun : (writei ip (fun o => w.chunk.getD o 0) off n).run (k.entered w.proc ip) with
  | fail e k' =>
      exact wp_of_fail (hexec.trans hrun) (fail_of_wp hwrite hrun)
  | ok r k' =>
      refine wp_of_ok (hexec.trans hrun) ?_
      have hspec := ok_of_wp hwrite hrun
      by_cases hs : k'.starved = true
      · exact wp_starved _ hs
      obtain ⟨hr, hwrote, hgeom⟩ := hspec (Bool.eq_false_iff.2 hs)
      have hcache : k'.icache = (k.entered w.proc ip).icache := hwrote.frame.icache
      have hptable : k'.ptable = k.ptable := hwrote.frame.ptable
      have hentry : k'.icache ip = ⟨(k.icache ip).ref, some w.proc, true⟩ := by
        rw [hcache]
        exact Function.update_self _ _ _
      subst hr
      apply section_end (f := f) (r := n) (w := w)
      · rw [hptable]
        exact hw.live
      · exact hwrote.frame.cur
      · exact hw.fd
      · rw [hptable]
        exact hw.slot
      · exact hpos
      · rw [hentry]
      · rw [hentry, hip]
        exact h.ref
      · intro _
        refine ⟨rfl, ?_⟩
        rw [hn]
        rw [hnode, hn, hoff] at hwrote
        subst hip
        exact appended_left h hwrote hgeom (by rw [← hoff, ← hn]; exact hmax)

end Section

/-! ## Any interleaving -/

theorem map_getD_range (src : List UInt8) :
    (List.range src.length).map (fun o => src.getD o 0) = src := by
  apply List.ext_getElem
  · simp
  · intro o h₁ h₂
    simp [List.getElem?_eq_getElem h₂]

/-- Writing behind what has just been written. -/
theorem splice_splice {bytes done src : List UInt8} {off : Nat} (hoff : off ≤ bytes.length) :
    splice (bytes.take off ++ done ++ bytes.drop (off + done.length)) (fun o => src.getD o 0)
      (off + done.length) src.length =
    bytes.take off ++ (done ++ src) ++ bytes.drop (off + (done ++ src).length) := by
  have hlen : (bytes.take off ++ done).length = off + done.length := by
    rw [List.length_append, List.length_take, Nat.min_eq_left hoff]
  rw [splice, map_getD_range, ← hlen, List.take_left, List.drop_append, List.drop_of_length_le
    (Nat.le_add_right _ _), List.nil_append, Nat.add_sub_cancel_left, hlen, List.drop_drop,
    List.length_append, Nat.add_assoc]
  simp only [List.append_assoc]

/-- The bytes that the calls still have to write. -/
def pending (ws : List Writer) : Nat := (ws.map fun w => w.rest.length).sum

theorem pending_set {ws : List Writer} {i : Nat} {w : Writer} (w' : Writer)
    (h : ws[i]? = some w) :
    pending (ws.set i w') + w.rest.length = pending ws + w'.rest.length := by
  induction ws generalizing i with
  | nil => simp at h
  | cons x xs ih =>
      cases i with
      | zero =>
          obtain rfl : x = w := by simpa using h
          simp only [pending, List.set_cons_zero, List.map_cons, List.sum_cons]
          omega
      | succ i =>
          have := ih (i := i) (by simpa using h)
          simp only [pending, List.set_cons_succ, List.map_cons, List.sum_cons] at *
          omega

theorem le_pending {ws : List Writer} {i : Nat} {w : Writer} (h : ws[i]? = some w) :
    w.rest.length ≤ pending ws := by
  have hset := pending_set { w with rest := [] } h
  simp only [List.length_nil, Nat.add_zero] at hset
  omega

theorem pending_done {ws : List Writer} (h : ∀ w, w ∈ ws → w.rest = []) : pending ws = 0 := by
  induction ws with
  | nil => rfl
  | cons w ws ih =>
      have hrest := ih fun w' hw' => h w' (List.mem_cons_of_mem _ hw')
      simp only [pending, List.map_cons, List.sum_cons] at *
      rw [h w List.mem_cons_self, hrest]
      rfl

/-- Call `w` has come as far as `w'`, and its sections so far are `done`. -/
structure Writer.Progress (w : Writer) (ps : List (List UInt8)) (w' : Writer) : Prop where
  proc : w'.proc = w.proc
  fd : w'.fd = w.fd
  going : w'.failed = false
  pieces : ps ++ chunks w'.rest = chunks w.rest

/-- What the sections of the trace `tr` have done to file `f`. -/
structure Concatenated (f : Nat) (k : State) (ws : List Writer) (tr : List (Nat × List UInt8))
    (k' : State) (ws' : List Writer) : Prop where
  sharable : k'.Sharable f
  ip : (k'.ftable f).ip = (k.ftable f).ip
  off : (k'.ftable f).off = (k.ftable f).off + (written tr).length
  self : k'.files (k.ftable f).ip =
    (k.files (k.ftable f).ip).take (k.ftable f).off ++ written tr ++
      (k.files (k.ftable f).ip).drop ((k.ftable f).off + (written tr).length)
  others : ∀ j, j ≠ (k.ftable f).ip → k'.files j = k.files j
  ptable : k'.ptable = k.ptable
  total : (written tr).length + pending ws' = pending ws
  calls : ∀ i, ws'[i]? = none ∧ ws[i]? = none ∨
    ∃ w w' : Writer, ws[i]? = some w ∧ ws'[i]? = some w' ∧ w.Progress (pieces tr i) w'

theorem pieces_append (tr tr' : List (Nat × List UInt8)) (i : Nat) :
    pieces (tr ++ tr') i = pieces tr i ++ pieces tr' i := by
  simp [pieces]

section Run

variable {f : Nat} {k k' : State} {ws ws' : List Writer} {tr : List (Nat × List UInt8)}

/-- A state from which a section ran unstarved was not starved. -/
theorem fed_before {w : Writer} {ip : Nat} {r : Int} (hrun : (w.code ip).run k = .ok r k')
    (hs : k'.starved = false) : k.starved = false := by
  cases hk : k.starved with
  | false => rfl
  | true =>
      exact (ok_of_wp (Prog.wp_run_of_true (wp_starved (Q := fun _ _ => False)
        (E := fun _ _ => False) _ hk)) hrun hs).elim

/-- A call that has not failed and has bytes left can make its next section. -/
theorem Concatenated.next (h : Concatenated f k ws tr k' ws')
    (hshares : ∀ w, w ∈ ws → w.Shares f k)
    (hmax : (k.ftable f).off + pending ws ≤ MAXFILE * BSIZE) {i : Nat} {w : Writer}
    (hi : ws'[i]? = some w) (hrest : w.rest ≠ []) :
    wp (w.code (k'.ftable f).ip)
      (fun r k'' => k''.starved = false → r = w.chunk.length ∧ Appended f w.chunk k' k'')
      (fun _ k'' => k''.starved = false → False) k' := by
  have hshare : w.Shares f k' := by
    rcases h.calls i with ⟨hnone, -⟩ | ⟨w₀, w', hw₀, hw', hp⟩
    · rw [hnone] at hi
      cases hi
    · obtain rfl : w' = w := by
        rw [hw'] at hi
        exact Option.some.inj hi
      have h₀ := hshares w₀ (List.mem_of_getElem? hw₀)
      constructor
      · rw [h.ptable, hp.proc]
        exact h₀.live
      · rw [hp.fd]
        exact h₀.fd
      · rw [h.ptable, hp.proc, hp.fd]
        exact h₀.slot
  apply section_spec h.sharable hshare
  · intro hnil
    rcases List.take_eq_nil_iff.1 hnil with hz | hz
    · exact absurd hz (by decide)
    · exact hrest hz
  · have hle := le_pending hi
    have hlen : w.chunk.length ≤ w.rest.length := List.length_take_le' _ _
    have hsum := h.total
    rw [h.off]
    omega

/-- A section keeps the account. -/
theorem Concatenated.step (h : Concatenated f k ws tr k' ws')
    (hoff : (k.ftable f).off ≤ (k.dinode (k.ftable f).ip).size) {i : Nat} {w : Writer}
    {k'' : State} (hi : ws'[i]? = some w) (hrest : w.rest ≠ [])
    (hadd : Appended f w.chunk k' k'') :
    Concatenated f k ws (tr ++ [(i, w.chunk)]) k''
      (ws'.set i { w with rest := w.rest.drop Sys.maxWrite }) := by
  have hwritten : written (tr ++ [(i, w.chunk)]) = written tr ++ w.chunk := by
    simp [written]
  have hbytes : (k.ftable f).off ≤ (k.files (k.ftable f).ip).length := by
    rw [State.files, Node.length_content]
    exact hoff
  have hcut : w.chunk.length + (w.rest.drop Sys.maxWrite).length = w.rest.length := by
    rw [← List.length_append, Writer.chunk, List.take_append_drop]
  refine ⟨hadd.sharable, hadd.ip.trans h.ip, ?_, ?_, ?_, hadd.ptable.trans h.ptable, ?_, ?_⟩
  · rw [hadd.off, h.off, hwritten, List.length_append, Nat.add_assoc]
  · have hself := hadd.self
    rw [h.ip, h.self, h.off, splice_splice hbytes] at hself
    rw [hself, hwritten]
  · intro j hj
    rw [hadd.others j (by rw [h.ip]; exact hj), h.others j hj]
  · have hset := pending_set { w with rest := w.rest.drop Sys.maxWrite } hi
    have hold := h.total
    rw [hwritten, List.length_append]
    replace hset : pending (ws'.set i { w with rest := w.rest.drop Sys.maxWrite }) +
      w.rest.length = pending ws' + (w.rest.drop Sys.maxWrite).length := hset
    omega
  · intro j
    rcases h.calls j with ⟨hnone, hnone'⟩ | ⟨w₀, w', hw₀, hw', hp⟩
    · refine .inl ⟨?_, hnone'⟩
      simp only [List.getElem?_eq_none_iff, List.length_set] at *
      exact hnone
    · by_cases hj : i = j
      · subst hj
        obtain rfl : w' = w := by
          rw [hw'] at hi
          exact Option.some.inj hi
        have hlt : i < ws'.length := (List.getElem?_eq_some_iff.1 hi).1
        refine .inr ⟨w₀, _, hw₀, List.getElem?_set_self hlt, hp.proc, hp.fd, hp.going, ?_⟩
        rw [pieces_append, List.append_assoc, ← hp.pieces, chunks_cons hrest]
        simp [pieces, Writer.chunk]
      · refine .inr ⟨w₀, w', hw₀, by rw [List.getElem?_set_ne hj]; exact hw', hp.proc, hp.fd,
          hp.going, ?_⟩
        rw [pieces_append, ← hp.pieces]
        simp [pieces, hj]

/-- Sections keep the account. -/
theorem Sections.concatenated (h : k.Sharable f) (hshares : ∀ w, w ∈ ws → w.Shares f k)
    (hgoing : ∀ w, w ∈ ws → w.failed = false)
    (hmax : (k.ftable f).off + pending ws ≤ MAXFILE * BSIZE) (hrun : Sections f k ws tr k' ws')
    (hfed : k'.starved = false) : Concatenated f k ws tr k' ws' := by
  induction hrun with
  | refl =>
      refine ⟨h, rfl, rfl, ?_, fun _ _ => rfl, rfl, Nat.zero_add _, fun i => ?_⟩
      · show _ = (k.files (k.ftable f).ip).take (k.ftable f).off ++ [] ++
          (k.files (k.ftable f).ip).drop (k.ftable f).off
        rw [List.append_nil, List.take_append_drop]
      · cases hi : ws[i]? with
        | none => exact .inl ⟨rfl, rfl⟩
        | some w =>
            exact .inr ⟨w, w, rfl, rfl, rfl, rfl, hgoing w (List.mem_of_getElem? hi), rfl⟩
  | step hruns hi hrest _ hstep ih =>
      have hold := ih (fed_before hstep hfed)
      obtain ⟨hr, hadd⟩ := ok_of_wp (hold.next hshares hmax hi hrest) hstep hfed
      rw [Writer.wrote, Writer.after, if_pos hr, if_pos hr]
      exact hold.step h.inside hi hrest hadd

end Run

/-- **Writes through a shared offset.**  Whatever the order of their sections, the calls
put their bytes one after the other from the offset on, each call's in order and cut
after every `maxWrite` bytes; nothing else changes, the offset moves past them, no call
fails, and each can go on until its bytes are written. -/
theorem shared_writes {f : Nat} {k k' : State} {ws ws' : List Writer}
    {tr : List (Nat × List UInt8)} (h : k.Sharable f) (hshares : ∀ w, w ∈ ws → w.Shares f k)
    (hgoing : ∀ w, w ∈ ws → w.failed = false)
    (hmax : (k.ftable f).off + pending ws ≤ MAXFILE * BSIZE) (hrun : Sections f k ws tr k' ws')
    (hfed : k'.starved = false) :
    Concatenated f k ws tr k' ws' ∧
    (∀ (i : Nat) (w : Writer), ws'[i]? = some w → w.rest ≠ [] →
      wp (w.code (k'.ftable f).ip) (fun r k'' => k''.starved = false → r = w.chunk.length)
        (fun _ k'' => k''.starved = true) k') ∧
    ((∀ w, w ∈ ws' → w.rest = []) →
      (k'.ftable f).off = (k.ftable f).off + pending ws ∧
      ∀ (i : Nat) (w : Writer), ws[i]? = some w →
        pieces tr i = chunks w.rest ∧ (pieces tr i).flatten = w.rest) := by
  have hall := hrun.concatenated h hshares hgoing hmax hfed
  refine ⟨hall, ?_, ?_⟩
  · intro i w hi hrest
    refine wp_mono (hall.next hshares hmax hi hrest) (fun r k'' hr hs => (hr hs).1) ?_
    intro e k'' hno
    cases hs : k''.starved with
    | true => rfl
    | false => exact (hno hs).elim
  · intro hdone
    have hzero := pending_done hdone
    refine ⟨?_, ?_⟩
    · have hsum := hall.total
      rw [hall.off]
      omega
    · intro i w hi
      rcases hall.calls i with ⟨-, hnone⟩ | ⟨w₀, w', hw₀, hw', hp⟩
      · rw [hnone] at hi
        cases hi
      · obtain rfl : w₀ = w := by
          rw [hw₀] at hi
          exact Option.some.inj hi
        have hpieces : pieces tr i = chunks w₀.rest := by
          have := hp.pieces
          rwa [hdone w' (List.mem_of_getElem? hw'), show chunks [] = [] from rfl,
            List.append_nil] at this
        exact ⟨hpieces, by rw [hpieces, flatten_chunks]⟩

/-- The sections of the given calls, in turn. -/
def runSections (f : Nat) : List Nat → State → List Writer →
    Option (List (Nat × List UInt8) × State × List Writer)
  | [], k, ws => some ([], k, ws)
  | i :: is, k, ws =>
      match ws[i]? with
      | none => none
      | some w =>
          if w.rest ≠ [] ∧ w.failed = false then
            match (w.code (k.ftable f).ip).run k with
            | .ok r k' =>
                (runSections f is k' (ws.set i (w.after r))).map fun x => (w.wrote i r ++ x.1, x.2)
            | .fail _ _ => none
          else none

theorem Sections.of_run {f : Nat} {k : State} {ws : List Writer} (is : List Nat) :
    ∀ {tr tr' : List (Nat × List UInt8)} {k₁ k₂ : State} {ws₁ ws₂ : List Writer},
      Sections f k ws tr k₁ ws₁ → runSections f is k₁ ws₁ = some (tr', k₂, ws₂) →
      Sections f k ws (tr ++ tr') k₂ ws₂ := by
  induction is with
  | nil =>
      intro tr tr' k₁ k₂ ws₁ ws₂ hs h
      obtain ⟨rfl, rfl, rfl⟩ : [] = tr' ∧ k₁ = k₂ ∧ ws₁ = ws₂ := by
        simpa [runSections] using h
      rwa [List.append_nil]
  | cons i is ih =>
      intro tr tr' k₁ k₂ ws₁ ws₂ hs h
      rw [runSections] at h
      cases hi : ws₁[i]? with
      | none => simp [hi] at h
      | some w =>
          simp only [hi] at h
          split at h
          · rename_i hready
            cases hrun : (w.code (k₁.ftable f).ip).run k₁ with
            | fail e k' => simp [hrun] at h
            | ok r k' =>
                simp only [hrun] at h
                obtain ⟨⟨tr₁, k₃, ws₃⟩, hrest, heq⟩ := Option.map_eq_some_iff.1 h
                obtain ⟨rfl, rfl, rfl⟩ : w.wrote i r ++ tr₁ = tr' ∧ k₃ = k₂ ∧ ws₃ = ws₂ := by
                  simpa using heq
                rw [← List.append_assoc]
                exact ih (hs.step hi hready.1 hready.2 hrun) hrest
          · cases h

/-- A new file, inode 2, open as file 0, which is descriptor 0 of two processes. -/
def State.shareNew (k : State) : State :=
  { k with
    ftable := Function.update k.ftable 0 ⟨.inode, 2, true, true, 2, 0⟩
    ptable := fun _ => ⟨.live, some 1, fun fd => if fd = 0 then some 0 else none⟩ }

def makeFile : List Op := [.beginTrans, .ialloc .file, .commitTrans]

def twoCalls : List Writer := [⟨0, 0, [1, 2], false⟩, ⟨1, 0, [3], false⟩]

def twoDone : List Writer := [⟨0, 0, [], false⟩, ⟨1, 0, [], false⟩]

def twoSections : List (Nat × List UInt8) := [(1, [3]), (0, [1, 2])]

theorem shared_writes_two_calls :
    ∃ k k', k.Sharable 0 ∧ Sections 0 k twoCalls twoSections k' twoDone ∧
      k'.files 2 = [3, 1, 2] ∧ (k'.ftable 0).off = 3 := by
  have hrun : ∃ k ∈ runOps makeFile smallDisk, k.starved = false ∧ (k.icache 2).ref = 1 ∧
      (k.icache 2).busy = none ∧ (k.dinode 2).type = .file ∧ (k.dinode 2).size = 0 ∧
      k.log.size = LOGSIZE ∧ k.log.busy = none ∧ k.log.lh = [] ∧ k.sb.size ≤ BPB ∧
      k.bitmap 0 = true ∧ (runSections 0 [1, 0] k.shareNew twoCalls).map (fun x =>
        decide (x.1 = twoSections ∧ x.2.1.starved = false ∧ x.2.2 = twoDone)) = some true := by
    decide +kernel
  obtain ⟨k, hk, hfed, href, hbusy, htype, hsize, hlog, hidle, hempty, hbits, hzero, hends⟩ := hrun
  have hwf : Wf k := (Steps.of_runOps makeFile .refl hk).wf smallDisk_wf hfed
  have hsharable : k.shareNew.Sharable 0 := by
    have hwf' : Wf k.shareNew := by
      apply hwf.of_same
      · exact ⟨rfl, rfl, rfl, rfl, rfl, fun _ _ => rfl⟩
      · exact fun i hi => ⟨hi, rfl⟩
    refine ⟨hwf', ⟨⟨hlog, hbits, hzero, ?_⟩, hidle, hempty⟩, htype, ?_, hbusy, Nat.zero_le _⟩
    · show k.log.lh.Nodup
      rw [hempty]
      exact List.nodup_nil
    · exact Nat.le_of_eq href.symm
  obtain ⟨⟨tr, k', ws'⟩, hsections, heq⟩ := Option.map_eq_some_iff.1 hends
  obtain ⟨rfl, hfed', rfl⟩ : tr = twoSections ∧ k'.starved = false ∧ ws' = twoDone :=
    of_decide_eq_true heq
  have hs : Sections 0 k.shareNew twoCalls twoSections k' twoDone :=
    Sections.of_run [1, 0] .refl hsections
  have hshares : ∀ w, w ∈ twoCalls → w.Shares 0 k.shareNew := by
    intro w hw
    obtain rfl | rfl : w = ⟨0, 0, [1, 2], false⟩ ∨ w = ⟨1, 0, [3], false⟩ := by
      simpa [twoCalls] using hw
    · exact ⟨rfl, by decide, rfl⟩
    · exact ⟨rfl, by decide, rfl⟩
  obtain ⟨hall, -, hdone⟩ := shared_writes hsharable hshares (by decide)
    (by show 0 + pending twoCalls ≤ _; decide) hs hfed'
  refine ⟨k.shareNew, k', hsharable, hs, ?_, (hdone (by decide)).1⟩
  have hnone : k.shareNew.files 2 = [] := by
    apply List.eq_nil_of_length_eq_zero
    rw [State.files, Node.length_content]
    exact hsize
  have hself : k'.files 2 = (k.shareNew.files 2).take 0 ++ written twoSections ++
      (k.shareNew.files 2).drop (0 + (written twoSections).length) := hall.self
  rw [hself, hnone]
  decide

end Xv6.Kernel
