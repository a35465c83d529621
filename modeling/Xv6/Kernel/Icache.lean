import Xv6.Kernel.Fs
import Xv6.Verified.Prog
import Xv6.Verified.Slots

/-!
# Code that runs under an inode's lock

A process that has an inode locked changes the fields of the in-memory inode one by one
and calls `iupdate` later; `bmap` leaves that to its caller.  The rest of the development
lets a function like `writei` run as one act; here every assignment of the functions
that run under the lock is a step of its own, so that other processes may run in between.

`Op` is what such a function does in one step.  A `View` is the in-memory inode and the
one on the disk, and `discipline` says what each step does to it.

## Main results

* `Func.runs`: from an inode that is as on the disk, every function leads back to one.
* `iputFree_runs`: freeing an inode marks it free on the disk with its last step.
-/

namespace Xv6.Kernel.Icache

open Xv6.Verified
open Exec

/-! ## The functions -/

/-- One step of a function that has the inode locked. -/
inductive Op where
  | copy
  | set (d : Dinode)
  | iupdate
  | balloc
  | bfree (b : Nat)
  | word (b j : Nat)
  | setWord (b j v : Nat)
  | copyIn (b off m : Nat) (src : Nat → UInt8)
  | panic (m : Panic)

/-- What each step answers. -/
abbrev Op.Res : Op → Type
  | copy => Dinode
  | balloc => Nat
  | word _ _ => Nat
  | panic _ => Empty
  | _ => Unit

/-- Code that runs under the lock. -/
abbrev Code := Verified.Prog Op Op.Res

/-- One step. -/
def op (a : Op) : Code a.Res := Prog.perform a

/-- `panic`. -/
def halt {α : Type} (m : Panic) : Code α := .act (.panic m) Empty.elim

/-- `ip->addrs[s] = b`. -/
def setAddr (s b : Nat) : Code Unit := do
  let d ← op .copy
  op (.set { d with addrs := Function.update d.addrs s b })

/-- `bmap`'s treatment of slot `s` of `addrs`. -/
def bmapSlot (s : Nat) : Code Nat := do
  let d ← op .copy
  if d.addrs s = 0 then do
    let addr ← op .balloc
    setAddr s addr
    return addr
  else return d.addrs s

/-- `bmap`'s treatment of entry `j` of the indirect block. -/
def bmapEntry (ind j : Nat) : Code Nat := do
  let addr ← op (.word ind j)
  if addr = 0 then do
    let addr ← op .balloc
    op (.setWord ind j addr)
    return addr
  else return addr

/-- `bmap`. -/
def bmap (bn : Nat) : Code Nat :=
  if bn < NDIRECT then bmapSlot bn
  else if bn - NDIRECT < NINDIRECT then do
    let ind ← bmapSlot NDIRECT
    bmapEntry ind (bn - NDIRECT)
  else halt .bmapOutOfRange

/-- `itrunc`. -/
def itrunc : Code Unit := do
  Prog.forEach (fun i => do
    let d ← op .copy
    if d.addrs i = 0 then pure ()
    else do
      op (.bfree (d.addrs i))
      setAddr i 0) (List.range NDIRECT)
  let d ← op .copy
  if d.addrs NDIRECT = 0 then pure ()
  else do
    Prog.forEach (fun j => do
      let addr ← op (.word (d.addrs NDIRECT) j)
      if addr = 0 then pure () else op (.bfree addr)) (List.range NINDIRECT)
    op (.bfree (d.addrs NDIRECT))
    setAddr NDIRECT 0
  let d ← op .copy
  op (.set { d with size := 0 })
  op .iupdate

/-- What `iput` does between its two critical sections. -/
def iputFree : Code Unit := do
  itrunc
  let d ← op .copy
  op (.set { d with type := .free })
  op .iupdate

/-- The transfer loop of `readi`; only the blocks it maps matter here. -/
def readLoop : Nat → Nat → Nat → Code Unit
  | 0, _, _ => pure ()
  | fuel + 1, off, n =>
      if n = 0 then pure ()
      else do
        let _ ← bmap (off / BSIZE)
        let m := min n (BSIZE - off % BSIZE)
        readLoop fuel (off + m) (n - m)

/-- `readi`.  A device is read by its own code, which does nothing to the inode but
unlock and lock it. -/
def readi (off n : Nat) : Code Unit := do
  let d ← op .copy
  if d.type = .dev then pure ()
  else if off > d.size ∨ (off + n) % UINT < off then pure ()
  else do
    let n := if (off + n) % UINT > d.size then d.size - off else n
    readLoop n off n

/-- The transfer loop of `writei`, with `n` bytes left. -/
def writeLoop : Nat → (Nat → UInt8) → Nat → Nat → Code Unit
  | 0, _, _, _ => pure ()
  | fuel + 1, src, off, n =>
      if n = 0 then pure ()
      else do
        let b ← bmap (off / BSIZE)
        let m := min n (BSIZE - off % BSIZE)
        op (.copyIn b (off % BSIZE) m src)
        writeLoop fuel (fun o => src (o + m)) (off + m) (n - m)

/-- The end of `writei`. -/
def growSize (off n : Nat) : Code Unit := do
  let d ← op .copy
  if n > 0 ∧ off > d.size then do
    op (.set { d with size := off })
    op .iupdate
  else pure ()

/-- `writei`, with devices as in `readi`. -/
def writei (src : Nat → UInt8) (off n : Nat) : Code Unit := do
  let d ← op .copy
  if d.type = .dev then pure ()
  else if off > d.size ∨ (off + n) % UINT < off then pure ()
  else if (off + n) % UINT > MAXFILE * BSIZE then pure ()
  else do
    writeLoop n src off n
    growSize (off + n) n

/-- What a process does with an inode it has locked: `readi`, `writei`, `iupdate`, the
`nlink++` and `nlink--` of `sys_link`, `sys_unlink` and `create`, and what `create`
stores into a new inode. -/
inductive Func where
  | readi (off n : Nat)
  | writei (src : Nat → UInt8) (off n : Nat)
  | iupdate
  | bumpNlink (δ : Int)
  | initInode (major minor : Int)

/-- Its code.  Offsets and lengths are `uint`. -/
def Func.code : Func → Code Unit
  | readi off n => Icache.readi (off % UINT) (n % UINT)
  | writei src off n => Icache.writei src (off % UINT) (n % UINT)
  | iupdate => op .iupdate
  | bumpNlink δ => do
      let d ← op .copy
      op (.set { d with nlink := toShort (d.nlink + δ) })
      op .iupdate
  | initInode major minor => do
      let d ← op .copy
      op (.set { d with major := major, minor := minor, nlink := 1 })
      op .iupdate

/-! ## What these functions rely on and leave behind -/

/-- The slot of `addrs` that leads to block `bn` of a file. -/
def topSlot (bn : Nat) : Nat := min bn NDIRECT

/-- Every block below the size is mapped, as far as `addrs` goes. -/
def Mapped (d : Dinode) : Prop := ∀ bn, bn * BSIZE < d.size → d.addrs (topSlot bn) ≠ 0

/-- The in-memory inode and the one on the disk. -/
structure View where
  copy : Dinode
  disk : Dinode

/-- Nothing waits for an `iupdate`. -/
structure View.Clean (v : View) : Prop where
  eq : v.copy = v.disk
  mapped : Mapped v.copy
  live : v.copy.type ≠ .free

/-- An inode is worked on as long as it is allocated on the disk; what is written back
is mapped.  `balloc` never answers 0, the boot block, and 0 is never freed. -/
def discipline : Discipline Op Op.Res View where
  pre v
    | .iupdate => v.disk.type ≠ .free ∧ (v.copy.type ≠ .free → Mapped v.copy)
    | .bfree b => v.disk.type ≠ .free ∧ b ≠ 0
    | _ => v.disk.type ≠ .free
  fits v
    | .copy, r => r = v.copy
    | .balloc, r => r ≠ 0
    | _, _ => True
  next v
    | .set d, _ => { v with copy := d }
    | .iupdate, _ => { v with disk := v.copy }
    | _, _ => v

/-- The code is allowed to run on the view, and ends with `Q`. -/
abbrev Runs {α : Type} (c : Code α) (v : View) (Q : α → View → Prop) : Prop :=
  c.Typed discipline Q v

theorem runs_copy {α : Type} {f : Dinode → Code α} {v : View} {Q : α → View → Prop}
    (hlive : v.disk.type ≠ .free) (h : Runs (f v.copy) v Q) : Runs (op .copy >>= f) v Q := by
  apply Prog.typed_act hlive
  intro r hr
  cases hr
  exact h

theorem runs_set {α : Type} {d : Dinode} {f : Unit → Code α} {v : View} {Q : α → View → Prop}
    (hlive : v.disk.type ≠ .free) (h : Runs (f ()) { v with copy := d } Q) :
    Runs (op (.set d) >>= f) v Q :=
  Prog.typed_act hlive fun _ _ => h

theorem runs_halt {α : Type} {m : Panic} {v : View} {Q : α → View → Prop}
    (hlive : v.disk.type ≠ .free) : Runs (halt m : Code α) v Q :=
  ⟨hlive, fun r => r.elim⟩

theorem setAddr_runs {s b : Nat} {v : View} (hlive : v.disk.type ≠ .free) :
    Runs (setAddr s b) v fun _ v' =>
      v' = { v with copy := { v.copy with addrs := Function.update v.copy.addrs s b } } :=
  runs_copy hlive ⟨hlive, fun _ _ => rfl⟩

/-- Nothing but empty slots of `addrs` has changed. -/
structure Grown (v v' : View) : Prop where
  disk : v'.disk = v.disk
  rest : v'.copy = { v.copy with addrs := v'.copy.addrs }
  addrs : ∀ s, v.copy.addrs s ≠ 0 → v'.copy.addrs s = v.copy.addrs s

theorem Grown.refl (v : View) : Grown v v := ⟨rfl, rfl, fun _ _ => rfl⟩

theorem Grown.trans {v v' v'' : View} (h : Grown v v') (h' : Grown v' v'') : Grown v v'' where
  disk := h'.disk.trans h.disk
  rest := by
    rw [h'.rest, h.rest]
  addrs s hs := by
    have hs' := h.addrs s hs
    rw [h'.addrs s (hs' ▸ hs), hs']

theorem Grown.size {v v' : View} (h : Grown v v') : v'.copy.size = v.copy.size := by
  rw [h.rest]

theorem Grown.type {v v' : View} (h : Grown v v') : v'.copy.type = v.copy.type := by
  rw [h.rest]

/-- Slot `s` is in use, and if it already was, nothing has changed. -/
structure Filled (v : View) (s : Nat) (v' : View) : Prop where
  grown : Grown v v'
  filled : v'.copy.addrs s ≠ 0
  same : v.copy.addrs s ≠ 0 → v' = v

theorem bmapSlot_runs {s : Nat} {v : View} (hlive : v.disk.type ≠ .free) :
    Runs (bmapSlot s) v fun _ v' => Filled v s v' := by
  apply runs_copy hlive
  split
  · rename_i hzero
    refine Prog.typed_act hlive fun b hb => ?_
    apply Prog.typed_then (setAddr_runs hlive)
    rintro _ v' rfl
    refine ⟨⟨rfl, rfl, fun s' hs' => ?_⟩, ?_, fun h => absurd hzero h⟩
    · have hne : s' ≠ s := by
        rintro rfl
        exact hs' hzero
      exact Function.update_of_ne hne _ _
    · have hself : Function.update v.copy.addrs s b s = b := Function.update_self _ _ _
      exact fun h => hb (hself ▸ h)
  · rename_i hne
    exact ⟨.refl v, hne, fun _ => rfl⟩

theorem bmapEntry_runs {ind j : Nat} {v : View} (hlive : v.disk.type ≠ .free) :
    Runs (bmapEntry ind j) v fun _ v' => v' = v := by
  refine Prog.typed_act hlive fun addr _ => ?_
  split
  · refine Prog.typed_act hlive fun b _ => ?_
    exact Prog.typed_act hlive fun _ _ => rfl
  · rfl

theorem bmap_runs {bn : Nat} {v : View} (hlive : v.disk.type ≠ .free) :
    Runs (bmap bn) v fun _ v' => Filled v (topSlot bn) v' := by
  unfold bmap
  split
  · rename_i hbn
    have htop : topSlot bn = bn := Nat.min_eq_left (by omega)
    rw [htop]
    exact bmapSlot_runs hlive
  · rename_i hbn
    have htop : topSlot bn = NDIRECT := Nat.min_eq_right (by omega)
    split
    · rw [htop]
      apply Prog.typed_then (bmapSlot_runs hlive)
      intro ind v' hv'
      have hlive' : v'.disk.type ≠ .free := by
        rw [hv'.grown.disk]
        exact hlive
      apply Prog.typed_mono (bmapEntry_runs hlive')
      rintro _ _ rfl
      exact hv'
    · exact runs_halt hlive

/-- Block `bn` has some of the `n` bytes from `off` on. -/
def Touched (off n bn : Nat) : Prop := 0 < n ∧ off / BSIZE ≤ bn ∧ bn * BSIZE < off + n

/-- The blocks of `n` bytes from `off` on are mapped, and if they already were, nothing
has changed. -/
structure Covered (v : View) (off n : Nat) (v' : View) : Prop where
  grown : Grown v v'
  filled : ∀ bn, Touched off n bn → v'.copy.addrs (topSlot bn) ≠ 0
  same : (∀ bn, Touched off n bn → v.copy.addrs (topSlot bn) ≠ 0) → v' = v

theorem Covered.zero (v : View) (off : Nat) : Covered v off 0 v :=
  ⟨.refl v, fun _ h => absurd h.1 (Nat.lt_irrefl 0), fun _ => rfl⟩

/-- One round of a transfer loop, and the rest. -/
theorem Covered.round {v v₁ v₂ : View} {off n m : Nat} (hn : n ≠ 0)
    (hm : m = min n (BSIZE - off % BSIZE)) (h : Filled v (topSlot (off / BSIZE)) v₁)
    (h' : Covered v₁ (off + m) (n - m) v₂) : Covered v off n v₂ := by
  have hpos : Touched off n (off / BSIZE) := by
    refine ⟨by omega, Nat.le_refl _, ?_⟩
    have := Nat.div_add_mod off BSIZE
    simp only [BSIZE] at *
    omega
  have hrest : ∀ bn, Touched (off + m) (n - m) bn → Touched off n bn := by
    rintro bn ⟨h₁, h₂, h₃⟩
    simp only [Touched, BSIZE] at *
    omega
  have hsplit : ∀ bn, Touched off n bn → bn = off / BSIZE ∨ Touched (off + m) (n - m) bn := by
    rintro bn ⟨h₁, h₂, h₃⟩
    simp only [Touched, BSIZE] at *
    omega
  refine ⟨h.grown.trans h'.grown, ?_, ?_⟩
  · intro bn hbn
    rcases hsplit bn hbn with rfl | hlater
    · rw [h'.grown.addrs _ h.filled]
      exact h.filled
    · exact h'.filled bn hlater
  · intro hall
    have hv₁ : v₁ = v := h.same (hall _ hpos)
    rw [hv₁] at h'
    exact h'.same fun bn hbn => hall bn (hrest bn hbn)

theorem readLoop_runs (fuel : Nat) {off n : Nat} {v : View} (hn : n ≤ fuel)
    (hlive : v.disk.type ≠ .free) :
    Runs (readLoop fuel off n) v fun _ v' => Covered v off n v' := by
  induction fuel generalizing off n v with
  | zero =>
      rw [Nat.le_zero.1 hn]
      exact Covered.zero v off
  | succ fuel ih =>
      rw [readLoop]
      split
      · rename_i hzero
        rw [hzero]
        exact Covered.zero v off
      · rename_i hne
        apply Prog.typed_then (bmap_runs hlive)
        intro _ v₁ hv₁
        have hm : 0 < BSIZE - off % BSIZE := by
          have := Nat.mod_lt off (show 0 < BSIZE by decide)
          omega
        apply Prog.typed_mono (ih (by omega) (hv₁.grown.disk ▸ hlive))
        intro _ v₂ hv₂
        exact Covered.round hne rfl hv₁ hv₂

theorem writeLoop_runs (fuel : Nat) {src : Nat → UInt8} {off n : Nat} {v : View}
    (hn : n ≤ fuel) (hlive : v.disk.type ≠ .free) :
    Runs (writeLoop fuel src off n) v fun _ v' => Covered v off n v' := by
  induction fuel generalizing src off n v with
  | zero =>
      rw [Nat.le_zero.1 hn]
      exact Covered.zero v off
  | succ fuel ih =>
      rw [writeLoop]
      split
      · rename_i hzero
        rw [hzero]
        exact Covered.zero v off
      · rename_i hne
        apply Prog.typed_then (bmap_runs hlive)
        intro b v₁ hv₁
        have hlive₁ : v₁.disk.type ≠ .free := hv₁.grown.disk ▸ hlive
        have hm : 0 < BSIZE - off % BSIZE := by
          have := Nat.mod_lt off (show 0 < BSIZE by decide)
          omega
        refine Prog.typed_act hlive₁ fun _ _ => ?_
        apply Prog.typed_mono (ih (by omega) hlive₁)
        intro _ v₂ hv₂
        exact Covered.round hne rfl hv₁ hv₂

/-- A transfer below the size changes nothing. -/
theorem Covered.eq_of_le {v v' : View} {off n : Nat} (h : Covered v off n v')
    (hmapped : Mapped v.copy) (hle : n = 0 ∨ off + n ≤ v.copy.size) : v' = v := by
  apply h.same
  rintro bn ⟨hpos, -, hlt⟩
  exact hmapped bn (by omega)

/-- After a transfer that ends behind the size, everything before its end is mapped. -/
theorem Covered.mapped {v v' : View} {off n : Nat} (h : Covered v off n v')
    (hmapped : Mapped v.copy) (hn : 0 < n) (hoff : off ≤ v.copy.size) :
    Mapped { v'.copy with size := off + n } := by
  intro bn hbn
  by_cases hold : bn * BSIZE < v.copy.size
  · have hmap := hmapped bn hold
    exact (h.grown.addrs _ hmap).symm ▸ hmap
  · refine h.filled bn ⟨hn, ?_, hbn⟩
    simp only [BSIZE] at *
    omega

theorem readi_runs {off n : Nat} {v : View} (hv : v.Clean) (hoff : off < UINT) (hn : n < UINT) :
    Runs (readi off n) v fun _ v' => v'.Clean := by
  have hlive : v.disk.type ≠ .free := hv.eq ▸ hv.live
  apply runs_copy hlive
  split
  · exact hv
  · split
    · exact hv
    · rename_i hguard
      rw [not_or, Nat.not_lt, Nat.not_lt] at hguard
      apply Prog.typed_mono (readLoop_runs _ (Nat.le_refl _) hlive)
      intro _ v' hcov
      rw [hcov.eq_of_le hv.mapped]
      · exact hv
      · split <;> simp only [UINT] at * <;> omega

theorem writei_runs {src : Nat → UInt8} {off n : Nat} {v : View} (hv : v.Clean) :
    Runs (writei src off n) v fun _ v' => v'.Clean := by
  have hlive : v.disk.type ≠ .free := hv.eq ▸ hv.live
  apply runs_copy hlive
  split
  · exact hv
  · split
    · exact hv
    · rename_i hguard
      rw [not_or, Nat.not_lt, Nat.not_lt] at hguard
      split
      · exact hv
      · apply Prog.typed_then (writeLoop_runs _ (Nat.le_refl _) hlive)
        intro _ v₁ hcov
        have hlive₁ : v₁.disk.type ≠ .free := hcov.grown.disk ▸ hlive
        apply runs_copy hlive₁
        rw [hcov.grown.size]
        split
        · rename_i hgrow
          -- the blocks the loop allocated lie below the new size, which is written back
          have hmapped := hcov.mapped hv.mapped hgrow.1 hguard.1
          apply runs_set hlive₁
          refine ⟨⟨hlive₁, fun _ => hmapped⟩, fun _ _ => ⟨rfl, hmapped, ?_⟩⟩
          exact hcov.grown.type ▸ hv.live
        · rename_i hstay
          rw [hcov.eq_of_le hv.mapped]
          · exact hv
          · omega

/-- A change of other fields that is written back at once. -/
theorem runs_change {v : View} (hv : v.Clean) (f : Dinode → Dinode)
    (htype : (f v.copy).type = v.copy.type) (hsize : (f v.copy).size = v.copy.size)
    (haddrs : (f v.copy).addrs = v.copy.addrs) :
    Runs (do
      let d ← op .copy
      op (.set (f d))
      op .iupdate) v fun _ v' => v'.Clean := by
  have hlive : v.disk.type ≠ .free := hv.eq ▸ hv.live
  have hmapped : Mapped (f v.copy) := by
    intro bn hbn
    rw [haddrs]
    exact hv.mapped bn (hsize ▸ hbn)
  apply runs_copy hlive
  apply runs_set hlive
  exact ⟨⟨hlive, fun _ => hmapped⟩, fun _ _ => ⟨rfl, hmapped, htype.symm ▸ hv.live⟩⟩

/-- Every function leaves the inode as it is on the disk. -/
theorem Func.runs (f : Func) {v : View} (hv : v.Clean) :
    Runs f.code v fun _ v' => v'.Clean := by
  cases f with
  | readi off n =>
      exact readi_runs hv (Nat.mod_lt _ (by decide)) (Nat.mod_lt _ (by decide))
  | writei src off n => exact writei_runs hv
  | iupdate =>
      have hlive : v.disk.type ≠ .free := hv.eq ▸ hv.live
      exact ⟨⟨hlive, fun _ => hv.mapped⟩, fun _ _ => ⟨rfl, hv.mapped, hv.live⟩⟩
  | bumpNlink δ =>
      exact runs_change hv (fun d => { d with nlink := toShort (d.nlink + δ) }) rfl rfl rfl
  | initInode major minor =>
      exact runs_change hv (fun d => { d with major := major, minor := minor, nlink := 1 })
        rfl rfl rfl

/-- Allocated in memory and on the disk. -/
structure View.Live (v : View) : Prop where
  copy : v.copy.type ≠ .free
  disk : v.disk.type ≠ .free

theorem freeSlot_runs {i : Nat} {v : View} (hv : v.Live) :
    Runs (do
      let d ← op .copy
      if d.addrs i = 0 then pure ()
      else do
        op (.bfree (d.addrs i))
        setAddr i 0) v fun _ v' => v'.Live := by
  apply runs_copy hv.disk
  split
  · exact hv
  · rename_i hne
    refine Prog.typed_act ⟨hv.disk, hne⟩ fun _ _ => ?_
    apply Prog.typed_mono (setAddr_runs hv.disk)
    rintro _ _ rfl
    exact ⟨hv.copy, hv.disk⟩

theorem freeEntry_runs {b j : Nat} {v : View} (hv : v.Live) :
    Runs (do
      let addr ← op (.word b j)
      if addr = 0 then pure () else op (.bfree addr)) v fun _ v' => v'.Live := by
  refine Prog.typed_act hv.disk fun addr _ => ?_
  split
  · exact hv
  · rename_i hne
    exact ⟨⟨hv.disk, hne⟩, fun _ _ => hv⟩

theorem itrunc_runs {v : View} (hv : v.Live) : Runs itrunc v fun _ v' => v'.Live := by
  apply Prog.typed_then (Prog.typed_forEach _ hv fun i v' _ hv' => freeSlot_runs hv')
  intro _ v₁ hv₁
  apply runs_copy hv₁.disk
  have hend : ∀ v', v'.Live → Runs (do
      let d ← op .copy
      op (.set { d with size := 0 })
      op .iupdate) v' fun _ v'' => v''.Live := by
    intro v' hv'
    apply runs_copy hv'.disk
    apply runs_set hv'.disk
    have hmapped : Mapped { v'.copy with size := 0 } := fun bn hbn => absurd hbn (Nat.not_lt_zero _)
    exact ⟨⟨hv'.disk, fun _ => hmapped⟩, fun _ _ => ⟨hv'.copy, hv'.copy⟩⟩
  split
  · exact hend v₁ hv₁
  · rename_i hne
    apply Prog.typed_then (Prog.typed_forEach _ hv₁ fun j v' _ hv' => freeEntry_runs hv')
    intro _ v₂ hv₂
    refine Prog.typed_act ⟨hv₂.disk, hne⟩ fun _ _ => ?_
    apply Prog.typed_then (setAddr_runs hv₂.disk)
    rintro _ _ rfl
    exact hend _ ⟨hv₂.copy, hv₂.disk⟩

/-- `itrunc` writes back an inode without blocks; then the inode is marked free, on the
disk last of all. -/
theorem iputFree_runs {v : View} (hv : v.Clean) : Runs iputFree v fun _ _ => True := by
  have hlive : v.Live := ⟨hv.live, hv.eq ▸ hv.live⟩
  apply Prog.typed_then (itrunc_runs hlive)
  intro _ v' hv'
  apply runs_copy hv'.disk
  apply runs_set hv'.disk
  exact ⟨⟨hv'.disk, fun h => absurd rfl h⟩, fun _ _ => trivial⟩

end Xv6.Kernel.Icache
