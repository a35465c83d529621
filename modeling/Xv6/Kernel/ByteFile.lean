import Xv6.Kernel.BufferLimit
import Xv6.Kernel.Footprint
import Xv6.Kernel.Ops

/-!
# Files as lists of bytes

The abstract file system is a list of bytes for every inode.  `readi` and
`writei` on regular files refine it: what they return and what they do to the
bytes is what the abstract operations say.  The one thing the abstract level
knows nothing of is the transaction, so a write may also halt in `log_write`, or
in `bget` when the blocks of the transaction leave no buffer.  It does neither if
it is as small as `filewrite` makes it and has a transaction to itself.

The refinement is proved of the code without the buffer cache, and carried over to
the one with it by `runBuffered_agrees`.
-/

namespace Xv6.Kernel

open Xv6.Verified
open Exec

/-! ## The abstract file system -/

/-- A call on an inode's bytes, or the start or end of a transaction. -/
inductive FileOp where
  | beginTrans
  | commitTrans
  | read (ip : Nat) (off n : UInt32)
  | write (ip : Nat) (src : Nat → UInt8) (off n : UInt32)

/-- What a call gives back: its value, and the bytes it stores at `dst`. -/
abbrev Answer := Int × List UInt8

/-- A list of bytes for every inode. -/
abbrev Files := Nat → List UInt8

/-- Bytes `off` to `off + n` of the list are replaced; the list may grow. -/
def splice (bytes : List UInt8) (src : Nat → UInt8) (off n : Nat) : List UInt8 :=
  bytes.take off ++ (List.range n).map src ++ bytes.drop (off + n)

/-- The abstract meaning of a call. -/
def Files.exec (f : Files) : FileOp → Answer × Files
  | .read ip off n =>
      if off.toNat ≤ (f ip).length ∧ off.toNat + n.toNat < 2 ^ 32 then
        (((min n.toNat ((f ip).length - off.toNat) : Nat),
          ((f ip).drop off.toNat).take n.toNat), f)
      else ((-1, []), f)
  | .write ip src off n =>
      if off.toNat ≤ (f ip).length ∧ off.toNat + n.toNat < 2 ^ 32 ∧
          off.toNat + n.toNat ≤ MAXFILE * BSIZE then
        ((n.toNat, []), Function.update f ip (splice (f ip) src off.toNat n.toNat))
      else ((-1, []), f)
  | _ => ((0, []), f)

/-- A sequence of calls. -/
def Files.run (f : Files) : List FileOp → List Answer × Files
  | [] => ([], f)
  | o :: os => ((f.exec o).1 :: ((f.exec o).2.run os).1, ((f.exec o).2.run os).2)

/-! ## The code -/

/-- The call itself. -/
def FileOp.code : FileOp → K Answer
  | beginTrans => do
      Kernel.beginTrans
      return (0, [])
  | commitTrans => do
      Kernel.commitTrans
      return (0, [])
  | read ip off n => do
      match ← readi ip off.toNat n.toNat with
      | none => return (-1, [])
      | some bytes => return (bytes.length, bytes)
  | write ip src off n => do
      let r ← writei ip src off.toNat n.toNat
      return (r, [])

/-- The calls in turn, with their answers. -/
def runFileOps : List FileOp → K (List Answer)
  | [] => return []
  | o :: os => do
      let a ← o.code
      let as ← runFileOps os
      return a :: as

/-- The bytes of a node, as a list. -/
def Node.content (nd : Node) : List UInt8 := (List.range nd.size).map nd.byte

/-- The abstract file system of a state. -/
def State.files (k : State) : Files := fun i => (k.node i).content

/-- An inode that has been locked and is a regular file. -/
def State.OpenFile (k : State) (ip : Nat) : Prop :=
  (k.icache ip).valid = true ∧ (k.dinode ip).type = .file

/-- The inode of a call is an open file. -/
def FileOp.OnFile (k : State) : FileOp → Prop
  | read ip _ _ => k.OpenFile ip
  | write ip _ _ _ => k.OpenFile ip
  | _ => True

/-! ## One call -/

@[simp] theorem Node.length_content (nd : Node) : nd.content.length = nd.size := by
  simp [Node.content]

theorem Node.getElem?_content (nd : Node) (o : Nat) :
    nd.content[o]? = if o < nd.size then some (nd.byte o) else none := by
  rw [Node.content, List.getElem?_map]
  split
  · rename_i h
    rw [List.getElem?_range h]
    rfl
  · rename_i h
    rw [List.getElem?_eq_none (by simpa using h)]
    rfl

/-- Reading the node is reading the list. -/
theorem Node.read_content (nd : Node) {off n : Nat} (hn : n < UINT) :
    nd.read off n = if off ≤ nd.content.length ∧ off + n < 2 ^ 32 then
      some ((nd.content.drop off).take n) else none := by
  unfold Node.read
  rw [Node.length_content]
  by_cases hok : off ≤ nd.size ∧ off + n < 2 ^ 32
  · have hmod : (off + n) % UINT = off + n := Nat.mod_eq_of_lt hok.2
    rw [if_pos hok, hmod, if_neg (by omega)]
    congr 1
    apply List.ext_getElem?
    intro o
    rw [List.getElem?_take, List.getElem?_drop, Node.getElem?_content, List.getElem?_map]
    by_cases ho : o < if off + n > nd.size then nd.size - off else n
    · rw [List.getElem?_range ho]
      split at ho
      · rw [if_pos (by omega), if_pos (by omega)]
        rfl
      · rw [if_pos (by omega), if_pos (by omega)]
        rfl
    · rw [List.getElem?_eq_none (by simpa using ho)]
      split at ho
      · by_cases hon : o < n
        · rw [if_pos hon, if_neg (by omega)]
          rfl
        · rw [if_neg hon]
          rfl
      · rw [if_neg ho]
        rfl
  · rw [if_neg hok, if_pos]
    simp only [UINT] at *
    omega

/-- Writing the node is splicing the list. -/
theorem Node.write_content (nd : Node) (src : Nat → UInt8) {off n : Nat} (hoff : off ≤ nd.size) :
    (nd.write src off n).content = splice nd.content src off n := by
  apply List.ext_getElem?
  intro o
  rw [Node.getElem?_content, splice, List.append_assoc, List.getElem?_append,
    List.getElem?_append, List.length_take, List.length_map, List.length_range,
    Node.length_content, Nat.min_eq_left hoff, List.getElem?_take, List.getElem?_drop,
    List.getElem?_map, Node.getElem?_content, Node.getElem?_content]
  show (if o < max nd.size (off + n) then
    some (if off ≤ o ∧ o < off + n then src (o - off) else nd.byte o) else none) = _
  by_cases h1 : o < off
  · have hlt : o < max nd.size (off + n) := by omega
    have hout : ¬(off ≤ o ∧ o < off + n) := by omega
    have hin : o < nd.size := by omega
    simp only [h1, hlt, hout, hin, if_true, if_false]
  · by_cases h2 : o - off < n
    · have hlt : o < max nd.size (off + n) := by omega
      have hin : off ≤ o ∧ o < off + n := by omega
      simp only [h1, h2, hlt, hin, and_self, if_true, if_false, List.getElem?_range h2,
        Option.map_some]
    · have hidx : off + n + (o - off - n) = o := by omega
      have hout : ¬(off ≤ o ∧ o < off + n) := by omega
      have hsize : o < max nd.size (off + n) ↔ o < nd.size := by omega
      simp only [h1, h2, hidx, hout, hsize, if_false]

/-- What one call of the code did, told on the abstract file system. -/
structure Refines (o : FileOp) (k : State) (a : Answer) (k' : State) : Prop where
  wf : Wf k'
  agrees : (a, k'.files) = k.files.exec o
  files : ∀ ip, k.OpenFile ip → k'.OpenFile ip

/-- How a call may halt: in `log_write`, or waiting for the log. -/
def FileStop (e : Stop) (k' : State) : Prop := k'.starved = false → LogStop e ∨ e = .blocked

section OneCall

variable {k : State}

theorem refines_disk {o : FileOp} {k' : State} (h : Wf k) (hd : DiskSame k k')
    (hcache : k'.icache = k.icache) (hcopy : k'.icopy = k.icopy)
    (hexec : k.files.exec o = ((0, []), k.files)) : Refines o k (0, []) k' := by
  obtain ⟨hwf, -, hnode⟩ := h.of_disk hd fun i hv => by
    rw [hcache] at hv
    rw [hcopy, hd.dinode]
    exact ⟨h.coherent i hv, h.live i hv⟩
  refine ⟨hwf, ?_, fun ip hip => ?_⟩
  · have hfiles : k'.files = k.files := by
      unfold State.files
      rw [hnode]
    rw [hexec, hfiles]
  · rw [State.OpenFile, hcache, hd.dinode]
    exact hip

theorem beginTrans_refines (h : Wf k) :
    wp (FileOp.code .beginTrans) (fun a k' => k'.starved = false → Refines .beginTrans k a k')
      FileStop k := by
  unfold FileOp.code Kernel.beginTrans
  rw [wp_bind, wp_bind, wp_get, wp_ite]
  refine ⟨fun _ => (wp_stop _).2 fun _ => .inr rfl, fun _ => (wp_modify _).2 ?_⟩
  exact (wp_pure _).2 fun _ =>
    refines_disk h ⟨rfl, rfl, rfl, rfl, rfl, fun _ _ => rfl⟩ rfl rfl rfl

theorem commitTrans_refines (h : Wf k) :
    wp (FileOp.code .commitTrans) (fun a k' => k'.starved = false → Refines .commitTrans k a k')
      FileStop k := by
  unfold FileOp.code Kernel.commitTrans
  rw [wp_bind, wp_modify, wp_pure]
  intro _
  refine refines_disk h ⟨rfl, rfl, rfl, rfl, rfl, fun b hb => ?_⟩ rfl rfl rfl
  dsimp only
  split
  · rfl
  · exact Function.update_of_ne (by omega) _ _

/-- `readi` of an open file returns the bytes of the list and changes nothing. -/
theorem run_read (h : Wf k) {ip : Nat} (hip : k.OpenFile ip) (off n : UInt32) :
    (FileOp.code (.read ip off n)).run k = .ok (k.files.exec (.read ip off n)).1 k := by
  have hread := run_readi h hip.1 (.inl hip.2) off.toNat_lt n.toNat_lt
  rw [Node.read_content _ n.toNat_lt] at hread
  have hfile : k.files ip = (k.node ip).content := rfl
  simp only [FileOp.code, Files.exec, hfile]
  rw [run_bind_ok hread]
  by_cases hok : off.toNat ≤ (k.node ip).content.length ∧ off.toNat + n.toNat < 2 ^ 32
  · rw [if_pos hok, if_pos hok]
    simp only [List.length_take, List.length_drop, run_pure]
  · rw [if_neg hok, if_neg hok]
    rfl

theorem write_refines (h : Wf k) {ip : Nat} (hip : k.OpenFile ip) (src : Nat → UInt8)
    (off n : UInt32) :
    wp (FileOp.code (.write ip src off n))
      (fun a k' => k'.starved = false → Refines (.write ip src off n) k a k') AllocStop k := by
  have hlt := off.toNat_lt
  have hlt' := n.toNat_lt
  have hlen : (k.files ip).length = (k.dinode ip).size := Node.length_content _
  unfold FileOp.code
  rw [wp_bind]
  by_cases hok : off.toNat ≤ (k.dinode ip).size ∧ off.toNat + n.toNat < 2 ^ 32 ∧
      off.toNat + n.toNat ≤ MAXFILE * BSIZE
  · refine wp_imp (writei_spec h hip.1 (.inl hip.2) hok.1 hok.2.2) ?_
    intro r k' hw
    refine (wp_pure _).2 fun hs => ?_
    obtain ⟨rfl, hwrote⟩ := hw hs
    have hnode : ∀ i, i ≠ ip → k'.node i = k.node i := fun i hi => by
      rw [hwrote.node, Function.update_of_ne hi]
    have hself : k'.node ip = (k.node ip).write src off.toNat n.toNat := by
      rw [hwrote.node, Function.update_self]
    refine ⟨hwrote.wf, ?_, fun j hj => ⟨by rw [hwrote.frame.icache]; exact hj.1, ?_⟩⟩
    · simp only [Files.exec]
      rw [hlen, if_pos hok]
      refine congrArg (Prod.mk _) (funext fun i => ?_)
      by_cases hi : i = ip
      · subst hi
        rw [Function.update_self, State.files, hself, Node.write_content _ _ hok.1]
        rfl
      · rw [Function.update_of_ne hi, State.files, hnode i hi]
        rfl
    · show (k'.node j).type = .file
      by_cases hj' : j = ip
      · subst hj'
        rw [hself]
        exact hj.2
      · rw [hnode j hj']
        exact hj.2
  · have hbad : off.toNat > (k.dinode ip).size ∨ (off.toNat + n.toNat) % UINT < off.toNat ∨
        (off.toNat + n.toNat) % UINT > MAXFILE * BSIZE := by
      simp only [UINT, MAXFILE, BSIZE] at *
      omega
    refine wp_of_ok (run_writei_error h hip.1 (.inl hip.2) hbad) ((wp_pure _).2 fun _ => ?_)
    refine ⟨h, ?_, fun _ hj => hj⟩
    simp only [Files.exec]
    rw [hlen, if_neg hok]

/-- **One call refines the abstract one.** -/
theorem FileOp.refines (h : Wf k) (o : FileOp) (hon : o.OnFile k) :
    wp o.code (fun a k' => k'.starved = false → Refines o k a k') FileStop k := by
  cases o with
  | beginTrans => exact beginTrans_refines h
  | commitTrans => exact commitTrans_refines h
  | read ip off n =>
      refine wp_of_ok (run_read h hon off n) fun _ => ⟨h, ?_, fun _ hj => hj⟩
      simp only [Files.exec]
      split <;> rfl
  | write ip src off n =>
      exact wp_mono (write_refines h hon src off n) (fun _ _ hr => hr) fun _ _ he hs =>
        .inl (he hs)

end OneCall

/-! ## Sequences of calls -/

theorem FileOp.code_fed (o : FileOp) : Preserves Fed o.code := by
  cases o with
  | beginTrans =>
      exact .bind (.bind .get fun _ => .ite (.stop _) (.modify fun _ h => h)) fun _ => .pure _
  | commitTrans => exact .bind (.modify fun _ h => h) fun _ => .pure _
  | read ip off n =>
      refine .bind (readi_fed ip _ _) fun r => ?_
      split
      · exact .pure _
      · exact .pure _
  | write ip src off n => exact .bind (writei_fed ip _ _ _) fun _ => .pure _

theorem runFileOps_fed (os : List FileOp) : Preserves Fed (runFileOps os) := by
  induction os with
  | nil => exact .pure _
  | cons o os ih => exact .bind o.code_fed fun _ => .bind ih fun _ => .pure _

/-- Once `balloc` has been starved it stays recorded. -/
theorem starved_stays {α : Type} {m : K α} (hm : Preserves Fed m) {k : State}
    (hs : k.starved = true) {P : α → State → Prop} {P' : Stop → State → Prop} :
    wp m (fun a k' => k'.starved = false → P a k')
      (fun e k' => k'.starved = false → P' e k') k := by
  refine wp_mono (hm.wp k) ?_ ?_
  · intro _ k' hfed hs'
    rw [hfed hs'] at hs
    cases hs
  · intro _ k' hfed hs'
    rw [hfed hs'] at hs
    cases hs

/-- Sequencing for what is promised while `balloc` is not starved. -/
theorem wp_bind_unstarved {α β : Type} {m : K α} {f : α → K β} {k : State}
    {P : α → State → Prop} {Q : β → State → Prop} {P' : Stop → State → Prop}
    (hm : wp m (fun a k' => k'.starved = false → P a k')
      (fun e k' => k'.starved = false → P' e k') k)
    (hf : ∀ a, Preserves Fed (f a))
    (hstep : ∀ a k', k'.starved = false → P a k' →
      wp (f a) (fun b k'' => k''.starved = false → Q b k'')
        (fun e k'' => k''.starved = false → P' e k'') k') :
    wp (m >>= f) (fun b k'' => k''.starved = false → Q b k'')
      (fun e k'' => k''.starved = false → P' e k'') k := by
  rw [wp_bind]
  refine wp_imp hm ?_
  intro a k' ha
  cases hs : k'.starved with
  | true => exact starved_stays (hf a) hs
  | false => exact hstep a k' hs (ha hs)

theorem FileOp.OnFile.mono {o : FileOp} {k k' : State} (h : o.OnFile k)
    (hfiles : ∀ ip, k.OpenFile ip → k'.OpenFile ip) : o.OnFile k' := by
  cases o with
  | read ip off n => exact hfiles ip h
  | write ip src off n => exact hfiles ip h
  | _ => trivial

theorem runFileOps_refines (os : List FileOp) :
    ∀ {k : State}, Wf k → (∀ o, o ∈ os → o.OnFile k) →
      wp (runFileOps os) (fun as k' => k'.starved = false → Wf k' ∧
        (as, k'.files) = k.files.run os) FileStop k := by
  induction os with
  | nil =>
      intro k h _
      exact (wp_pure _).2 fun _ => ⟨h, rfl⟩
  | cons o os ih =>
      intro k h hon
      rw [runFileOps]
      refine wp_bind_unstarved (o.refines h (hon o (by simp)))
        (fun _ => .bind (runFileOps_fed os) fun _ => .pure _) ?_
      rintro a k₁ - ⟨hwf, hagrees, hfiles⟩
      refine wp_bind_unstarved (ih hwf fun o' ho' => (hon o' (by simp [ho'])).mono hfiles)
        (fun _ => .pure _) ?_
      rintro as k' - ⟨hwf', hagrees'⟩
      refine (wp_pure _).2 fun _ => ⟨hwf', ?_⟩
      have ha : a = (k.files.exec o).1 := congrArg Prod.fst hagrees
      have hf : k₁.files = (k.files.exec o).2 := congrArg Prod.snd hagrees
      rw [Files.run, ← hf, ← ha, ← hagrees']

/-! ## Writes that the log has room for -/

/-- Reads, and writes of at most three blocks' worth in a transaction of their
own, which is how `filewrite` calls `writei`. -/
inductive Chunked : List FileOp → Prop
  | nil : Chunked []
  | read (ip : Nat) (off n : UInt32) {os : List FileOp} (h : Chunked os) :
      Chunked (.read ip off n :: os)
  | write (ip : Nat) (src : Nat → UInt8) (off n : UInt32) {os : List FileOp}
      (hn : n.toNat ≤ 3 * BSIZE) (h : Chunked os) :
      Chunked (.beginTrans :: .write ip src off n :: .commitTrans :: os)

/-- No transaction is open. -/
structure LogIdle (k : State) : Prop where
  geometry : Geometry k
  busy : k.log.busy = none
  empty : k.log.lh = []

/-- A transaction is open that has logged nothing. -/
structure LogOpen (k : State) : Prop where
  geometry : Geometry k
  busy : k.log.busy ≠ none
  empty : k.log.lh = []

theorem beginTrans_opens {k : State} (h : LogIdle k) :
    wp (FileOp.code .beginTrans) (fun _ k' => LogOpen k') (fun _ _ => False) k := by
  unfold FileOp.code Kernel.beginTrans
  rw [wp_bind, wp_bind, wp_get, wp_ite, h.busy]
  refine ⟨(by simp), fun _ => (wp_modify _).2 ((wp_pure _).2 ?_)⟩
  have hg := h.geometry
  exact ⟨⟨hg.log, hg.bits, hg.zero, hg.nodup⟩, by simp, h.empty⟩

theorem commitTrans_idles {k : State} (hg : Geometry k) :
    wp (FileOp.code .commitTrans) (fun _ k' => LogIdle k') (fun _ _ => False) k := by
  unfold FileOp.code Kernel.commitTrans
  rw [wp_bind, wp_modify, wp_pure]
  exact ⟨⟨hg.log, hg.bits, hg.zero, List.nodup_nil⟩, rfl, rfl⟩

theorem blocksOf_chunk {off n : Nat} (hn : n ≤ 3 * BSIZE) : blocksOf off n ≤ 4 := by
  unfold blocksOf
  simp only [BSIZE] at *
  split <;> omega

/-- A small write in a transaction that has logged nothing does not halt. -/
theorem write_fits {k : State} (h : Wf k) (ho : LogOpen k) {ip : Nat}
    (hip : k.OpenFile ip) (src : Nat → UInt8)
    {off n : UInt32} (hn : n.toNat ≤ 3 * BSIZE) :
    wp (FileOp.code (.write ip src off n))
      (fun a k' => (k'.starved = false → Refines (.write ip src off n) k a k' ∧ Geometry k') ∧
        k'.log.lh.length ≤ 7)
      (fun _ k' => (k'.starved = false → False) ∧ k'.log.lh.length ≤ 7) k := by
  have hroom : Room (k.indirectOf ip ++ [k.bitBlock, iblock ip]) k :=
    ⟨ho.geometry, ho.busy, fun x hx => by rw [ho.empty] at hx; cases hx⟩
  have hblocks : blocksOf off.toNat n.toNat ≤ 4 := blocksOf_chunk hn
  have hlen : [k.bitBlock, iblock ip].length + blocksOf off.toNat n.toNat ≤ 7 := by
    simp only [List.length_cons, List.length_nil]
    omega
  have hfit : wp (FileOp.code (.write ip src off n))
      (fun _ k' => Geometry k' ∧ k'.log.lh.length ≤ 7) NotLog k := by
    unfold FileOp.code
    rw [wp_bind]
    refine wp_imp (writei_room hroom (by simp) (by simp) hlen) ?_
    rintro r k' ⟨S', -, hlen', hroom'⟩
    have hind := length_indirectOf k' ip
    have hall := hroom'.length_le
    simp only [List.length_append, List.length_cons, List.length_nil] at hall hlen'
    exact (wp_pure _).2 ⟨hroom'.geometry, by omega⟩
  refine wp_mono (wp_and hfit (write_refines h hip src off n)) ?_ ?_
  · rintro a k' ⟨⟨hgeom, hlh⟩, href⟩
    exact ⟨fun hs => ⟨href hs, hgeom⟩, hlh⟩
  · rintro e k' ⟨⟨hnot, hlh⟩, hstop⟩
    exact ⟨fun hs => hnot (hstop hs), hlh⟩

/-- Chunked calls do not halt as long as `balloc` finds free data blocks. -/
theorem chunked_returns {os : List FileOp} (hc : Chunked os) :
    ∀ {k : State}, Wf k → (∀ o, o ∈ os → o.OnFile k) → LogIdle k →
      wp (runFileOps os) (fun _ k' => k'.starved = false → True)
        (fun _ k' => k'.starved = false → False) k := by
  induction hc with
  | nil => exact fun _ _ _ => (wp_pure _).2 fun _ => trivial
  | read ip off n _ ih =>
      intro k h hon hidle
      have hip : k.OpenFile ip := hon (.read ip off n) (by simp)
      rw [runFileOps, wp_bind]
      refine wp_of_ok (run_read h hip off n) ?_
      refine wp_bind_unstarved (ih h (fun o ho => hon o (by simp [ho])) hidle)
        (fun _ => .pure _) ?_
      exact fun _ _ _ _ => (wp_pure _).2 fun _ => trivial
  | write ip src off n hn _ ih =>
      rename_i os _
      intro k h hon hidle
      have hfed : ∀ os (a : Answer), Preserves Fed (runFileOps os >>= fun as => pure (a :: as)) :=
        fun os _ => .bind (runFileOps_fed os) fun _ => .pure _
      have hdone : ∀ (a : Answer) {m : K (List Answer)} {s : State},
          wp m (fun _ k' => k'.starved = false → True) (fun _ k' => k'.starved = false → False) s →
          wp (m >>= fun as => pure (a :: as)) (fun _ k' => k'.starved = false → True)
            (fun _ k' => k'.starved = false → False) s := fun a m s hm =>
        wp_bind_unstarved hm (fun _ => .pure _) fun _ _ _ _ => (wp_pure _).2 fun _ => trivial
      -- the transaction is opened, one write made in it, and committed
      rw [runFileOps]
      refine wp_bind_unstarved (P := fun a k' => Refines .beginTrans k a k' ∧ LogOpen k')
        (wp_mono (wp_and (beginTrans_refines h) (beginTrans_opens hidle))
          (fun _ _ hb hs => ⟨hb.1 hs, hb.2⟩) fun _ _ hb _ => hb.2) (hfed _) ?_
      rintro a₁ k₁ - ⟨hr₁, hopen⟩
      refine hdone a₁ ?_
      rw [runFileOps]
      have hip : k₁.OpenFile ip := hr₁.files ip (hon (.write ip src off n) (by simp))
      refine wp_bind_unstarved (wp_mono (write_fits hr₁.wf hopen hip src hn) (fun _ _ hw => hw.1)
        fun _ _ hw => hw.1) (hfed _) ?_
      rintro a₂ k₂ - ⟨hr₂, hg₂⟩
      refine hdone a₂ ?_
      rw [runFileOps]
      refine wp_bind_unstarved (P := fun a k' => Refines .commitTrans k₂ a k' ∧ LogIdle k')
        (wp_mono (wp_and (commitTrans_refines hr₂.wf) (commitTrans_idles hg₂))
          (fun _ _ hb hs => ⟨hb.1 hs, hb.2⟩) fun _ _ hb _ => hb.2) (hfed _) ?_
      rintro a₃ k₃ - ⟨hr₃, hidle₃⟩
      refine hdone a₃ (ih hr₃.wf (fun o ho => ?_) hidle₃)
      exact (hon o (by simp [ho])).mono fun j hj => hr₃.files j (hr₂.files j (hr₁.files j hj))

/-! ## With the buffer cache -/

/-- The call itself, with `NBUF` buffers. -/
def FileOp.buffered : FileOp → Buffered.M Answer
  | beginTrans => do
      Buffered.beginTrans
      return (0, [])
  | commitTrans => do
      Buffered.commitTrans
      return (0, [])
  | read ip off n => do
      match ← Buffered.readi ip off.toNat n.toNat with
      | none => return (-1, [])
      | some bytes => return (bytes.length, bytes)
  | write ip src off n => do
      let r ← Buffered.writei ip src off.toNat n.toNat
      return (r, [])

/-- The calls in turn, with their answers. -/
def runBuffered : List FileOp → Buffered.M (List Answer)
  | [] => return []
  | o :: os => do
      let a ← o.buffered
      let as ← runBuffered os
      return a :: as

/-- The log is in order: it holds what `home` on the disk is to be replaced by. -/
def State.LogClean (k : State) : Prop := ∃ home, Clean home k

/-- What the calls `os` start from. -/
structure FilesReady (os : List FileOp) (k : State) : Prop where
  wf : Wf k
  clean : k.LogClean
  onFile : ∀ o, o ∈ os → o.OnFile k

section Buffered

variable {k : State}

/-- An open file has one of the numbers of the superblock. -/
theorem Clean.inode_lt {home : Nat → Block} (h : Clean home k) {ip : Nat} (hip : k.OpenFile ip) :
    ip < k.sb.ninodes := by
  by_contra hge
  have htype := hip.2
  rw [h.spare ip (by omega)] at htype
  cases htype

/-- Copying the log to its places leaves it in order. -/
theorem commitTrans_logClean (h : k.LogClean) :
    wp (FileOp.code .commitTrans) (fun _ k' => k'.LogClean) (fun _ _ => True) k := by
  obtain ⟨home, h⟩ := h
  unfold FileOp.code Kernel.commitTrans
  rw [wp_bind, wp_modify, wp_pure]
  obtain ⟨k', hk'⟩ : ∃ k' : State, k' = { k with
    data := if k.log.lh = [] then k.data
      else Function.update k.data k.log.start (setHead (setHead (k.data k.log.start) k.log.lh) [])
    log := { k.log with lh := [], busy := none } } := ⟨_, rfl⟩
  rw [← hk']
  have hlh : k'.log.lh = [] := by rw [hk']
  refine ⟨k'.image, fun x _ _ => ?_, ?_, ?_, ?_, ?_, fun _ => hlh, ?_, ?_⟩
  · rw [State.installed, hlh, if_neg List.not_mem_nil]
    exact .rfl
  · rw [hlh]
    exact fun x hx => absurd hx List.not_mem_nil
  · rw [hlh]
    exact List.nodup_nil
  · rw [hlh]
    exact ⟨Nat.zero_le _, fun hne => absurd rfl hne⟩
  · rw [hk']
    dsimp only
    split
    · exact h.head
    · rw [Function.update_self]
      exact headCount_setHead _ (by simp)
  · rw [hk']
    exact h.layout
  · rw [hk']
    exact h.spare

theorem beginTrans_logClean (h : k.LogClean) :
    wp (FileOp.code .beginTrans) (fun _ k' => k'.LogClean) (fun _ _ => True) k := by
  obtain ⟨home, hclean⟩ := h
  unfold FileOp.code Kernel.beginTrans
  rw [wp_bind, wp_bind, wp_get, wp_ite]
  refine ⟨fun _ => (wp_stop _).2 trivial, fun _ => (wp_modify _).2 ((wp_pure _).2 ?_)⟩
  exact ⟨home, hclean.still rfl rfl rfl (fun hb => by cases hb) rfl rfl rfl rfl⟩

theorem FileOp.code_clean (o : FileOp) (h : FilesReady [o] k) :
    wp o.code (fun _ k' => k'.starved = false → k'.LogClean) (fun _ _ => True) k := by
  obtain ⟨home, hclean⟩ := h.clean
  have hon := h.onFile o (by simp)
  cases o with
  | beginTrans => exact wp_imp (beginTrans_logClean h.clean) fun _ _ hc _ => hc
  | commitTrans => exact wp_imp (commitTrans_logClean h.clean) fun _ _ hc _ => hc
  | read ip off n => exact wp_of_ok (run_read h.wf hon off n) fun _ => h.clean
  | write ip src off n =>
      unfold FileOp.code
      rw [wp_bind]
      refine wp_imp (writei_clean h.wf hclean (hclean.inode_lt hon) hon.1 src off.toNat_lt
        n.toNat_lt) fun r k' hc => (wp_pure _).2 fun hs => ⟨home, hc hs⟩

/-- What is left of the calls starts from where one has ended. -/
theorem FilesReady.next {o : FileOp} {os : List FileOp} (h : FilesReady (o :: os) k) {a : Answer}
    {k' : State} (hrun : o.code.run k = .ok a k') (hs : k'.starved = false) : FilesReady os k' := by
  have hon := h.onFile o (by simp)
  obtain ⟨hwf, -, hfiles⟩ := ok_of_wp (o.refines h.wf hon) hrun hs
  refine ⟨hwf, ?_, fun o' ho' => (h.onFile o' (by simp [ho'])).mono hfiles⟩
  exact ok_of_wp (o.code_clean ⟨h.wf, h.clean, fun o' ho' => by
    rw [List.mem_singleton.1 ho']
    exact hon⟩) hrun hs

/-- No buffer is asked for while it is held, as no block of the log is in the transaction. -/
theorem checks_installTrans (hlow : k.starved = false → ∀ x ∈ k.log.lh, x < k.log.start) :
    Buffered.Checks Buffered.installTrans k := by
  show Buffered.Checks (if k.log.lh = [] then pure () else _) k
  refine .ite (fun _ => .pure) fun _ => ?_
  refine (Buffered.checks_bget (by simp) (by simp) (Nat.le_refl _)).bind (.bind (.loopTo ?_)
    (Buffered.checks_bget (by simp) (by simp) (by simp)))
  intro tail htail
  have hdrop : (k.log.lh.drop tail).length ≤ k.log.lh.length := by
    rw [List.length_drop]
    omega
  refine (Buffered.checks_bget (by simp) (by simp) hdrop).bind
    (Buffered.checks_bget (fun hs hmem => ?_) (by simp) hdrop)
  have hget : k.log.lh.getD tail 0 ∈ k.log.lh := by
    rw [List.getD_eq_getElem?_getD, List.getElem?_eq_getElem htail]
    exact List.getElem_mem htail
  have hlt := hlow hs _ hget
  rw [List.mem_singleton.1 hmem] at hlt
  omega

theorem FileOp.read_agrees {ip : Nat} {off n : UInt32}
    (h : k.starved = false → FilesReady [.read ip off n] k) :
    Buffered.Agrees Buffered.Logs (FileOp.buffered (.read ip off n))
      (FileOp.code (.read ip off n)) k := by
  have hon : k.starved = false → k.OpenFile ip := fun hs =>
    (h hs).onFile (.read ip off n) (by simp)
  refine .bind (Buffered.readi_agrees (fun hs => (h hs).wf) (fun hs => (hon hs).1)
    (fun hs => .inl (hon hs).2) off n) (fun r _ _ => ?_) fun r => ?_
  · cases r with
    | none => exact .pure _
    | some bytes => exact .pure _
  · cases r with
    | none => exact .pure _
    | some bytes => exact .pure _

theorem FileOp.write_agrees {ip : Nat} {src : Nat → UInt8} {off n : UInt32}
    (h : k.starved = false → FilesReady [.write ip src off n] k) :
    Buffered.Agrees Buffered.Logs (FileOp.buffered (.write ip src off n))
      (FileOp.code (.write ip src off n)) k := by
  have hon : k.starved = false → k.OpenFile ip := fun hs =>
    (h hs).onFile (.write ip src off n) (by simp)
  refine .bind (Buffered.writei_agrees (fun hs => (h hs).wf) (fun hs => (hon hs).1)
    (fun hs => ?_) src off n) (fun _ _ _ => .pure _) fun _ => .pure _
  obtain ⟨home, hclean⟩ := (h hs).clean
  exact (iblock_bounds hclean (hclean.inode_lt (hon hs))).2

/-- **One call with the cache does what it does without, unless no buffer is left.** -/
theorem FileOp.agrees {o : FileOp} (h : k.starved = false → FilesReady [o] k) :
    Buffered.Agrees Anywhere o.buffered o.code k := by
  cases o with
  | beginTrans => exact .bind (.lift _) (fun _ _ _ => .pure _) fun _ => .anywhere _
  | commitTrans =>
      refine .bind ((checks_installTrans fun hs x hx => ?_).agrees
        (fun _ he => he) trivial (.lift _))
        (fun _ _ _ => .pure _) fun _ => .anywhere _
      obtain ⟨home, hclean⟩ := (h hs).clean
      exact (hclean.below x hx).2
  | read ip off n =>
      exact (FileOp.read_agrees h).mono (fun _ _ _ => trivial) fun _ _ _ he _ => he
  | write ip src off n =>
      exact (FileOp.write_agrees h).mono (fun _ _ _ => trivial) fun _ _ _ he _ => he

/-- Once `balloc` has been starved it stays recorded. -/
theorem FileOp.buffered_fed (o : FileOp) : Preserves Fed o.buffered := by
  cases o with
  | beginTrans =>
      exact .bind (.lift (.bind .get fun _ => .ite (.stop _) (.modify fun _ h => h))) fun _ =>
        .pure _
  | commitTrans =>
      exact .bind (.bind Buffered.installTrans_fed fun _ => .lift (.modify fun _ h => h)) fun _ =>
        .pure _
  | read ip off n =>
      refine .bind (Buffered.readi_fed ip _ _) fun r => ?_
      cases r with
      | none => exact .pure _
      | some bytes => exact .pure _
  | write ip src off n => exact .bind (Buffered.writei_fed ip _ _ _) fun _ => .pure _

/-- A call, and those after it. -/
theorem runBuffered_cons {F : Buffered.Halt → State → Prop} {o : FileOp} {os : List FileOp}
    (ho : CutsAt Buffered.Halt.kernel Anywhere F o.buffered o.code k)
    (hos : ∀ a k₁, o.code.run k = .ok a k₁ →
      CutsAt Buffered.Halt.kernel Anywhere F (runBuffered os) (runFileOps os) k₁) :
    CutsAt Buffered.Halt.kernel Anywhere F (runBuffered (o :: os)) (runFileOps (o :: os)) k :=
  .bind ho (fun a k₁ hrun => .bind (hos a k₁ hrun) (fun _ _ _ => .pure _) fun _ => .anywhere _)
    fun _ => .anywhere _

theorem FilesReady.head {o : FileOp} {os : List FileOp} (h : FilesReady (o :: os) k) :
    FilesReady [o] k :=
  ⟨h.wf, h.clean, fun o' ho' => h.onFile o' (by simp [List.mem_singleton.1 ho'])⟩

theorem runBuffered_agrees (os : List FileOp) :
    ∀ {k : State}, (k.starved = false → FilesReady os k) →
      Buffered.Agrees Anywhere (runBuffered os) (runFileOps os) k := by
  induction os with
  | nil => exact fun _ => .pure _
  | cons o os ih =>
      intro k h
      refine runBuffered_cons (FileOp.agrees fun hs => (h hs).head) fun a k₁ hrun => ih fun hs => ?_
      exact (h (ok_of_wp (o.code_fed.wp k) hrun hs)).next hrun hs

/-- Chunked calls find a buffer, as their transactions are small. -/
theorem runBuffered_chunked {os : List FileOp} (hc : Chunked os) :
    ∀ {k : State}, (k.starved = false → FilesReady os k ∧ LogIdle k) →
      CutsAt Buffered.Halt.kernel Anywhere (fun _ k' => k'.starved = true) (runBuffered os)
        (runFileOps os) k := by
  induction hc with
  | nil => exact fun _ => .pure _
  | read ip off n _ ih =>
      intro k h
      have hread : k.starved = false →
          (FileOp.code (.read ip off n)).run k = .ok (k.files.exec (.read ip off n)).1 k :=
        fun hs => run_read (h hs).1.wf ((h hs).1.onFile (.read ip off n) (by simp)) off n
      refine runBuffered_cons ((FileOp.read_agrees fun hs => (h hs).1.head).mono
        (fun _ _ _ => trivial) fun e s' hfail he hlogs => ?_) fun a k₁ hrun => ih fun hs => ?_
      · by_contra hne
        have hs' : s'.starved = false := by simpa using hne
        have hs : k.starved = false :=
          fail_of_wp ((FileOp.buffered_fed (.read ip off n)).wp k) hfail hs'
        have hlen : s'.log.lh.length ≤ k.log.lh.length := by
          unfold Buffered.Logs Final at hlogs
          rwa [hread hs] at hlogs
        rw [(h hs).2.empty] at hlen
        have height := (he hs').2
        simp only [List.length_nil] at hlen
        omega
      · have hs₀ := ok_of_wp ((FileOp.code_fed (.read ip off n)).wp k) hrun hs
        refine ⟨(h hs₀).1.next hrun hs, ?_⟩
        rw [hread hs₀] at hrun
        cases hrun
        exact (h hs₀).2
  | write ip src off n hn _ ih =>
      rename_i os _
      intro k h
      refine runBuffered_cons (.bind (.lift _) (fun _ _ _ => .pure _) fun _ => .anywhere _)
        fun a₁ k₁ hbegin => ?_
      have h₁ : k₁.starved = false →
          FilesReady (.write ip src off n :: .commitTrans :: os) k₁ ∧ LogOpen k₁ := fun hs => by
        have hs₀ := ok_of_wp ((FileOp.code_fed .beginTrans).wp k) hbegin hs
        exact ⟨(h hs₀).1.next hbegin hs, ok_of_wp (beginTrans_opens (h hs₀).2) hbegin⟩
      have hfits := fun hs : k₁.starved = false =>
        (write_fits (h₁ hs).1.wf (h₁ hs).2 ((h₁ hs).1.onFile (.write ip src off n) (by simp)) src
          hn : wp (FileOp.code (.write ip src off n)) _ _ k₁)
      refine runBuffered_cons ((FileOp.write_agrees fun hs => (h₁ hs).1.head).mono
        (fun _ _ _ => trivial) fun e s' hfail he hlogs => ?_) fun a₂ k₂ hwrite => ?_
      · by_contra hne
        have hs' : s'.starved = false := by simpa using hne
        have hs : k₁.starved = false :=
          fail_of_wp ((FileOp.buffered_fed (.write ip src off n)).wp k₁) hfail hs'
        have hlen := final_of_wp (P := fun s => s.log.lh.length ≤ 7)
          (wp_mono (hfits hs) (fun _ _ hw => hw.2) fun _ _ hw => hw.2)
        have height := (he hs').2
        unfold Buffered.Logs at hlogs
        omega
      have h₂ : k₂.starved = false →
          FilesReady (.commitTrans :: os) k₂ ∧ Geometry k₂ ∧ k₂.log.lh.length ≤ 7 := fun hs => by
        have hs₁ := ok_of_wp ((FileOp.code_fed (.write ip src off n)).wp k₁) hwrite hs
        obtain ⟨hfit, hlen⟩ := ok_of_wp (hfits hs₁) hwrite
        exact ⟨(h₁ hs₁).1.next hwrite hs, (hfit hs).2, hlen⟩
      refine runBuffered_cons (.bind ((checks_installTrans fun hs x hx => ?_).agrees
        (fun e he => ?_) trivial (.lift _)) (fun _ _ _ => .pure _) fun _ => .anywhere _)
        fun a₃ k₃ hcommit => ih fun hs => ?_
      · obtain ⟨home, hclean⟩ := (h₂ hs).1.clean
        exact (hclean.below x hx).2
      · by_contra hne
        have hs : k₂.starved = false := by simpa using hne
        have hlen := (h₂ hs).2.2
        have height := (he hs).2
        omega
      · have hs₂ := ok_of_wp ((FileOp.code_fed .commitTrans).wp k₂) hcommit hs
        exact ⟨(h₂ hs₂).1.next hcommit hs, ok_of_wp (commitTrans_idles (h₂ hs₂).2.1) hcommit⟩

end Buffered

/-- How a call may halt: in one of the checks of `log_write`, waiting for the log, or in `bget`
when eight blocks have been logged. -/
def FileHalt (e : Buffered.Halt) (k' : State) : Prop :=
  k'.starved = false → (∃ s, e = .kernel s ∧ (LogStop s ∨ s = .blocked)) ∨
    e = .noBuffers ∧ 8 ≤ k'.log.lh.length

/-- **`readi` and `writei` refine lists of bytes.**  Any sequence of calls on open
files either halts in one of the checks of `log_write` or, with a transaction of eight blocks, for
want of a buffer (or waits for the log), or returns what the abstract calls return and leaves the
bytes they leave; if writes are chunked it does not halt. -/
theorem files_refine_bytes {k : State} (h : Wf k) (hlog : k.LogClean) {os : List FileOp}
    (hon : ∀ o, o ∈ os → o.OnFile k) :
    wp (runBuffered os) (fun as k' => k'.starved = false → (as, k'.files) = k.files.run os)
      FileHalt k ∧
    (LogIdle k → Chunked os →
      wp (runBuffered os) (fun as k' => k'.starved = false → (as, k'.files) = k.files.run os)
        (fun _ k' => k'.starved = true) k) := by
  have hrefines := wp_imp (runFileOps_refines os h hon) fun _ _ hr hs => (hr hs).2
  refine ⟨?_, fun hidle hc => ?_⟩
  · refine wp_mono ((runBuffered_agrees os fun _ => ⟨h, hlog, hon⟩).wp hrefines)
      (fun _ _ hr => hr) ?_
    rintro e k' (⟨s, rfl, hstop⟩ | hshort) hs
    · exact .inl ⟨s, rfl, hstop hs⟩
    · exact .inr (hshort hs)
  · have hreturns := wp_and hrefines (chunked_returns hc h hon hidle)
    refine wp_mono ((runBuffered_chunked hc fun _ => ⟨⟨h, hlog, hon⟩, hidle⟩).wp hreturns)
      (fun _ _ hr => hr.1) ?_
    rintro e k' (⟨s, rfl, -, hno⟩ | hstarved)
    · cases hs : k'.starved with
      | true => rfl
      | false => exact (hno hs).elim
    · exact hstarved

/-- A new regular file, inode 2, is allocated and locked. -/
def openNewFile : List Op := [.beginTrans, .ialloc .file, .ilock 2, .commitTrans]

theorem smallDisk_logClean : smallDisk.LogClean := by
  refine ⟨smallDisk.image, fun x _ _ => .rfl, nofun, List.nodup_nil, ⟨by decide, nofun⟩,
    by decide +kernel, fun _ => rfl, by decide, fun i hi => smallDisk_dinode ?_⟩
  have hinodes : smallDisk.sb.ninodes = 15 := rfl
  omega

theorem ilock_logClean {k : State} (h : k.LogClean) (ip : Nat) :
    wp (ilock ip) (fun _ k' => k'.LogClean) (fun _ _ => True) k := by
  obtain ⟨home, hclean⟩ := h
  unfold ilock
  rw [wp_bind, wp_get, wp_ite, wp_ite, wp_bind, wp_modify, wp_ite]
  refine ⟨fun _ => (wp_stop _).2 trivial, fun _ => ⟨fun _ => (wp_stop _).2 trivial, fun _ =>
    ⟨fun _ => (wp_pure _).2 ⟨home, hclean.setEntry ip _⟩, fun _ => ?_⟩⟩⟩
  rw [wp_bind, wp_modify, wp_ite]
  exact ⟨fun _ => (wp_stop _).2 trivial, fun _ => (wp_pure _).2
    ⟨home, ((hclean.setEntry ip _).setCopy ip _).setEntry ip _⟩⟩

/-- The calls of `openNewFile` keep the log in order. -/
theorem Op.code_logClean {o : Op} (ho : o ∈ openNewFile) {k : State} (h : k.LogClean) :
    wp o.code (fun _ k' => k'.LogClean) (fun _ _ => True) k := by
  have hbare : ∀ o' : FileOp, ∀ m : K Unit, (o'.code = m >>= fun _ => pure (0, [])) →
      wp o'.code (fun _ k' => k'.LogClean) (fun _ _ => True) k →
      wp m (fun _ k' => k'.LogClean) (fun _ _ => True) k := by
    intro o' m heq hwp
    rw [heq, wp_bind] at hwp
    exact wp_imp hwp fun _ _ h' => (wp_pure _).1 h'
  simp only [openNewFile, List.mem_cons, List.not_mem_nil, or_false] at ho
  rcases ho with rfl | rfl | rfl | rfl
  · exact hbare .beginTrans _ rfl (beginTrans_logClean h)
  · obtain ⟨home, hclean⟩ := h
    show wp (Kernel.ialloc .file >>= fun _ => pure ()) _ _ k
    rw [wp_bind]
    exact wp_imp (ialloc_clean hclean .file) fun _ _ h' => (wp_pure _).2 ⟨home, h'⟩
  · exact ilock_logClean h 2
  · exact hbare .commitTrans _ rfl (commitTrans_logClean h)

theorem runOps_logClean {os : List Op} (hos : ∀ o ∈ os, o ∈ openNewFile) :
    ∀ {k k' : State}, k.LogClean → runOps os k = some k' → k'.LogClean := by
  induction os with
  | nil =>
      rintro k k' h ⟨⟩
      exact h
  | cons o os ih =>
      intro k k' h hrun
      rw [runOps] at hrun
      split at hrun
      · cases hcode : o.code.run k with
        | ok a k₁ =>
            rw [hcode] at hrun
            exact ih (fun o' ho' => hos o' (by simp [ho']))
              (ok_of_wp (Op.code_logClean (hos o (by simp)) h) hcode) hrun
        | fail e k₁ =>
            rw [hcode] at hrun
            cases hrun
      · cases hrun

/-- How the calls end: the answers, or why they halt. -/
def answers (os : List FileOp) (k : State) : Option (List Answer) × Option Buffered.Halt × Bool :=
  match (runBuffered os).run k with
  | .ok as k' => (some as, none, k'.starved)
  | .fail e k' => (none, some e, k'.starved)

theorem fail_of_answers {os : List FileOp} {k : State} {e : Buffered.Halt}
    (h : answers os k = (none, some e, false)) :
    ∃ k', (runBuffered os).run k = .fail e k' ∧ k'.starved = false := by
  unfold answers at h
  cases hrun : (runBuffered os).run k with
  | ok as k' =>
      rw [hrun] at h
      simp at h
  | fail e' k' =>
      rw [hrun] at h
      simp only [Prod.mk.injEq, Option.some.injEq, true_and] at h
      obtain ⟨rfl, hfed⟩ := h
      exact ⟨k', rfl, hfed⟩

theorem newFile_open {k : State} (hk : runOps openNewFile smallDisk = some k)
    (hfed : k.starved = false) (hvalid : (k.icache 2).valid = true)
    (htype : (k.dinode 2).type = .file) : Wf k ∧ k.LogClean ∧ k.OpenFile 2 :=
  ⟨(Steps.of_runOps openNewFile .refl hk).wf smallDisk_wf hfed,
    runOps_logClean (fun _ ho => ho) smallDisk_logClean hk, hvalid, htype⟩

/-- Ten blocks in one transaction. -/
def tenBlocks : FileOp := .write 2 (fun _ => 1) 0 10240

/-- Thirteen blocks in five transactions, and then eight of them again and a fourteenth. -/
def fourteenBlocks : List FileOp :=
  (List.range 5).flatMap (fun i =>
    [.beginTrans, .write 2 (fun _ => 1) (.ofNat (i * 3072)) (if i < 4 then 3072 else 1024),
      .commitTrans]) ++
  [.beginTrans, .write 2 (fun _ => 2) 0 8192, .write 2 (fun _ => 2) 13312 1]

/-- The abstract calls return, the code halts: in `log_write`, and in `bget`. -/
theorem large_write_halts :
    ∃ k k' k'', Wf k ∧ k.LogClean ∧ k.OpenFile 2 ∧
      (runBuffered [.beginTrans, tenBlocks]).run k =
        .fail (.kernel (.panic .tooBigTransaction)) k' ∧ k'.starved = false ∧
      (runBuffered fourteenBlocks).run k = .fail .noBuffers k'' ∧ k''.starved = false ∧
      (k.files.exec tenBlocks).1 = (10240, []) := by
  have hrun : ∃ k ∈ runOps openNewFile smallDisk, k.starved = false ∧
      (k.icache 2).valid = true ∧ (k.dinode 2).type = .file ∧
      answers [.beginTrans, tenBlocks] k =
        (none, some (.kernel (.panic .tooBigTransaction)), false) := by
    decide +kernel
  have hrun' : ∃ k ∈ runOps openNewFile smallDisk,
      answers fourteenBlocks k = (none, some .noBuffers, false) := by
    decide +kernel
  obtain ⟨k, hk, hfed, hvalid, htype, hends⟩ := hrun
  obtain ⟨_, hk', hends'⟩ := hrun'
  obtain rfl := Option.some.inj (hk.symm.trans hk')
  obtain ⟨hwf, hlog, hopen⟩ := newFile_open hk hfed hvalid htype
  have hanswer : (k.files.exec tenBlocks).1 = (10240, []) := by
    rw [tenBlocks, Files.exec, if_pos ⟨Nat.zero_le _, by decide, by decide⟩]
    rfl
  obtain ⟨k', hcalls, hfed'⟩ := fail_of_answers hends
  obtain ⟨k'', hcalls', hfed''⟩ := fail_of_answers hends'
  exact ⟨k, k', k'', hwf, hlog, hopen, hcalls, hfed', hcalls', hfed'', hanswer⟩

/-- Two bytes of the file, written in a transaction, and the second one read. -/
def writeAndRead : List FileOp :=
  [.beginTrans, .write 2 (fun _ => 1) 0 2, .commitTrans, .read 2 1 8]

theorem files_refine_bytes_write_and_read :
    ∃ k k' as, Wf k ∧ k.LogClean ∧ LogIdle k ∧ Chunked writeAndRead ∧
      (runBuffered writeAndRead).run k = .ok as k' ∧
      as = [(0, []), (2, []), (0, []), (1, [1])] ∧ (as, k'.files) = k.files.run writeAndRead := by
  have hrun : ∃ k ∈ runOps openNewFile smallDisk, k.starved = false ∧
      (k.icache 2).valid = true ∧ (k.dinode 2).type = .file ∧ k.log.size = LOGSIZE ∧
      k.log.busy = none ∧ k.log.lh = [] ∧ k.sb.size ≤ BPB ∧ k.bitmap 0 = true ∧
      answers writeAndRead k = (some [(0, []), (2, []), (0, []), (1, [1])], none, false) := by
    decide +kernel
  obtain ⟨k, hk, hfed, hvalid, htype, hlog, hbusy, hempty, hsize, hzero, hends⟩ := hrun
  obtain ⟨hwf, hclean, hopen⟩ := newFile_open hk hfed hvalid htype
  have hidle : LogIdle k :=
    ⟨⟨hlog, hsize, hzero, hempty ▸ List.nodup_nil⟩, hbusy, hempty⟩
  have hchunked : Chunked writeAndRead :=
    .write 2 (fun _ => 1) 0 2 (by decide) (.read 2 1 8 .nil)
  have hon : ∀ o, o ∈ writeAndRead → o.OnFile k := by
    simpa [writeAndRead, FileOp.OnFile] using hopen
  have href := (files_refine_bytes hwf hclean hon).2 hidle hchunked
  unfold answers at hends
  cases hcalls : (runBuffered writeAndRead).run k with
  | ok as k' =>
      rw [hcalls] at hends
      simp only [Prod.mk.injEq, Option.some.injEq, true_and] at hends
      exact ⟨k, k', as, hwf, hclean, hidle, hchunked, hcalls, hends.1,
        ok_of_wp href hcalls hends.2⟩
  | fail e k' =>
      rw [hcalls] at hends
      simp at hends

end Xv6.Kernel
