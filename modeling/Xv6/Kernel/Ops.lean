import Xv6.Kernel.Inode

/-!
# Sequences of inode operations

The inode layer as the rest of the kernel uses it: inodes are referenced,
locked, read, written, allocated, unlocked and let go of, in any order, inside
and outside of transactions.  Whatever the order, the blocks stay owned.
-/

namespace Xv6.Kernel

open Xv6.Verified
open Exec

/-- `iput`. -/
def iput (ip : Nat) : K Unit := do
  if ← iputCheck ip then iputFree ip else pure ()

/-- A call into the inode layer.  `off` and `n` are `uint`. -/
inductive Op where
  | beginTrans
  | commitTrans
  | iget (inum : Nat)
  | ilock (ip : Nat)
  | iunlock (ip : Nat)
  | readi (ip : Nat) (off n : UInt32)
  | writei (ip : Nat) (src : Nat → UInt8) (off n : UInt32)
  | iput (ip : Nat)
  | ialloc (type : InodeType)

namespace Op

/-- The function behind the call; its value does not matter here. -/
def code : Op → K Unit
  | beginTrans => Kernel.beginTrans
  | commitTrans => Kernel.commitTrans
  | iget inum => Kernel.iget inum
  | ilock ip => Kernel.ilock ip
  | iunlock ip => Kernel.iunlock ip
  | readi ip off n => do
      let _ ← Kernel.readi ip off.toNat n.toNat
  | writei ip src off n => do
      let _ ← Kernel.writei ip src off.toNat n.toNat
  | iput ip => Kernel.iput ip
  | ialloc type => do
      let _ ← Kernel.ialloc type

/-- What the caller sees to: contents are read and written through an inode that
has been locked, so that the cached copy is good. -/
def Allowed (k : State) : Op → Prop
  | readi ip _ _ => (k.icache ip).valid = true
  | writei ip _ _ _ => (k.icache ip).valid = true
  | _ => True

end Op

/-- The states that calls lead to. -/
inductive Steps (k : State) : State → Prop
  | refl : Steps k k
  | step {k₁ k₂ : State} (o : Op) (h : Steps k k₁) (hallowed : o.Allowed k₁)
      (hrun : o.code.run k₁ = .ok () k₂) : Steps k k₂

/-! ## Each operation keeps the disk well formed -/

/-- A run that ends unstarved was never starved. -/
def Fed (k k' : State) : Prop := k'.starved = false → k.starved = false

instance : IsPreorder State Fed where
  refl _ h := h
  trans _ _ _ h h' hs := h (h' hs)

theorem fed_of_frame {α : Type} {m : K α} (h : Preserves Frame m) : Preserves Fed m :=
  h.imp fun _ _ hf => hf.fed

theorem readi_fed (ip off n : Nat) : Preserves Fed (readi ip off n) := by
  refine .bind .get fun k => .ite (.ite (.pure _) ?_) (.ite (.pure _)
    (.bind (fed_of_frame (readLoop_frame ip _ _ _)) fun _ => .pure _))
  split
  · exact .pure _
  · exact .bind (.modify fun _ h => h) fun _ => .pure _

theorem writei_fed (ip : Nat) (src : Nat → UInt8) (off n : Nat) :
    Preserves Fed (writei ip src off n) := by
  refine .bind .get fun k => .ite (.ite (.pure _) ?_) (.ite (.pure _) (.ite (.pure _)
    (.bind (fed_of_frame (writeLoop_frame ip _ _ _ _)) fun _ =>
      .bind (fed_of_frame (growSize_frame ip _ _)) fun _ => .pure _)))
  split
  · exact .pure _
  · exact .bind (.modify fun _ h => h) fun _ => .pure _

theorem iput_fed (ip : Nat) : Preserves Fed (iput ip) := by
  have hcheck : Preserves Fed (iputCheck ip) :=
    .bind .get fun _ => .ite (.ite (.stop _) (.bind (.modify fun _ h => h) fun _ => .pure _))
      (.bind (.modify fun _ h => h) fun _ => .pure _)
  have hfree : Preserves Fed (iputFree ip) :=
    .bind (fed_of_frame (itrunc_frame ip)) fun _ => .bind (.modify fun _ h => h) fun _ =>
      .bind (fed_of_frame (iupdate_frame ip)) fun _ => .modify fun _ h => h
  exact .bind hcheck fun _ => .ite hfree (.pure ())

theorem iget_fed (inum : Nat) : Preserves Fed (iget inum) :=
  .bind .get fun _ => .ite (.modify fun _ h => h) (.ite (.stop _) (.modify fun _ h => h))

theorem ialloc_fed (type : InodeType) : Preserves Fed (ialloc type) := by
  refine .bind .get fun k => ?_
  cases firstFreeInode k.dinode (k.sb.ninodes - 1) 1 with
  | none => exact .stop _
  | some inum =>
      exact .bind (.modify fun _ h => h) fun _ =>
        .bind (fed_of_frame (logWrite_frame _)) fun _ => .bind (iget_fed inum) fun _ => .pure _

theorem Op.code_fed (o : Op) : Preserves Fed o.code := by
  cases o with
  | beginTrans => exact .bind .get fun _ => .ite (.stop _) (.modify fun _ h => h)
  | commitTrans => exact .modify fun _ h => h
  | iget inum => exact iget_fed inum
  | ilock ip =>
      exact .bind .get fun _ => .ite (.stop _) (.ite (.stop _) (.bind (.modify fun _ h => h)
        fun _ => .ite (.pure ()) (.bind (.modify fun _ h => h) fun _ => .ite (.stop _) (.pure ()))))
  | iunlock ip => exact .bind .get fun _ => .ite (.stop _) (.modify fun _ h => h)
  | readi ip off n => exact .bind (readi_fed ip _ _) fun _ => .pure ()
  | writei ip src off n => exact .bind (writei_fed ip _ _ _) fun _ => .pure ()
  | iput ip => exact iput_fed ip
  | ialloc type => exact .bind (ialloc_fed type) fun _ => .pure ()

/-- The operation keeps the disk well formed and does not stop because a block it
frees is free already. -/
def Sound (o : Op) (k : State) : Prop :=
  wp o.code (fun _ k' => k'.starved = false → Wf k')
    (fun e k' => k'.starved = false → e ≠ .panic .freeingFreeBlock) k

theorem LogStop.ne {e : Stop} (h : LogStop e) : e ≠ .panic .freeingFreeBlock := by
  rcases h with rfl | rfl <;> decide

section Sound

variable {k : State}

theorem sound_beginTrans (h : Wf k) : Sound .beginTrans k := by
  unfold Sound Op.code Kernel.beginTrans
  rw [wp_bind, wp_get, wp_ite]
  refine ⟨fun _ => (wp_stop _).2 fun _ => by decide, fun _ => (wp_modify _).2 fun _ => ?_⟩
  exact h.of_same ⟨rfl, rfl, rfl, rfl, rfl, fun _ _ => rfl⟩ fun _ hv => ⟨hv, rfl⟩

theorem sound_commitTrans (h : Wf k) : Sound .commitTrans k := by
  refine (wp_modify _).2 fun _ => ?_
  refine h.of_same ⟨rfl, rfl, rfl, rfl, rfl, fun b hb => ?_⟩ fun _ hv => ⟨hv, rfl⟩
  dsimp only
  split
  · rfl
  · exact Function.update_of_ne (by omega) _ _

theorem sound_setEntry (h : Wf k) (i : Nat) {e : CacheEntry}
    (hv : e.valid = true → (k.icache i).valid = true) : Wf (k.setEntry i e) := by
  refine h.of_same (.setEntry k i e) fun j hj => ⟨?_, rfl⟩
  by_cases hji : j = i
  · subst hji
    rw [State.setEntry_self] at hj
    exact hv hj
  · rwa [State.setEntry_of_ne _ _ hji] at hj

theorem sound_iget (h : Wf k) (inum : Nat) : Sound (.iget inum) k := by
  refine wp_mono (iget_spec k inum) ?_ fun _ _ he _ => by rw [he.1]; decide
  rintro _ k' rfl _
  apply sound_setEntry h
  unfold CacheEntry.got
  split
  · exact id
  · intro hv
    cases hv

theorem sound_ilock (h : Wf k) (ip : Nat) : Sound (.ilock ip) k := by
  unfold Sound
  cases hrun : (Op.code (.ilock ip)).run k with
  | ok u k' =>
      refine wp_of_ok hrun fun _ => ?_
      obtain ⟨-, hfree, rfl⟩ := ilock_ok hrun
      refine (h.of_disk (by exact ⟨rfl, rfl, rfl, rfl, rfl, fun _ _ => rfl⟩) fun i hi => ?_).1
      by_cases hip : i = ip
      · subst hip
        cases hv : (k.icache i).valid with
        | true => simpa using ⟨h.coherent i hv, h.live i hv⟩
        | false => simpa using hfree hv
      · simp only [Function.update_of_ne hip] at hi
        refine ⟨?_, h.live i hi⟩
        dsimp only
        split
        · exact h.coherent i hi
        · rw [Function.update_of_ne hip]
          exact h.coherent i hi
  | fail e k' =>
      refine wp_of_fail hrun fun _ => ?_
      rcases ilock_stop hrun with ⟨rfl, -⟩ | ⟨rfl, -⟩ | ⟨rfl, -⟩ <;> decide

theorem sound_iunlock (h : Wf k) (ip : Nat) : Sound (.iunlock ip) k := by
  unfold Sound Op.code Kernel.iunlock
  rw [wp_bind, wp_get, wp_ite]
  refine ⟨fun _ => (wp_stop _).2 fun _ => by decide, fun _ => (wp_modify _).2 fun _ => ?_⟩
  exact sound_setEntry h ip id

/-- `readi` of a locked inode returns and changes no block. -/
theorem readi_reads (h : Wf k) {ip : Nat} (hv : (k.icache ip).valid = true) (off n : UInt32) :
    wp (readi ip off.toNat n.toNat)
      (fun _ k' => k' = k ∨ k' = { k with devCalls := k.devCalls + 1 }) (fun _ _ => False) k := by
  rcases InodeType.data_or_dev (h.live ip hv) with ht | ht
  · exact wp_of_ok (run_readi h hv ht off.toNat_lt n.toNat_lt) (.inl rfl)
  · exact readi_dev (by rw [h.coherent ip hv, ht])

theorem wf_devices (h : Wf k) (n : Nat) : Wf { k with devCalls := n } :=
  h.of_same ⟨rfl, rfl, rfl, rfl, rfl, fun _ _ => rfl⟩ fun _ hv => ⟨hv, rfl⟩

theorem sound_readi (h : Wf k) {ip : Nat} (hv : (k.icache ip).valid = true) (off n : UInt32) :
    Sound (.readi ip off n) k := by
  unfold Sound Op.code
  rw [wp_bind]
  refine wp_mono (readi_reads h hv off n) ?_ fun _ _ he => he.elim
  rintro _ k' (rfl | rfl)
  · exact (wp_pure _).2 fun _ => h
  · exact (wp_pure _).2 fun _ => wf_devices h _

theorem sound_writei (h : Wf k) {ip : Nat} (hv : (k.icache ip).valid = true)
    (src : Nat → UInt8) (off n : UInt32) : Sound (.writei ip src off n) k := by
  unfold Sound Op.code
  rw [wp_bind]
  rcases InodeType.data_or_dev (h.live ip hv) with ht | ht
  · by_cases hbad : off.toNat > (k.dinode ip).size ∨ (off.toNat + n.toNat) % UINT < off.toNat ∨
        (off.toNat + n.toNat) % UINT > MAXFILE * BSIZE
    · exact wp_of_ok (run_writei_error h hv ht hbad) ((wp_pure _).2 fun _ => h)
    · have hlt := off.toNat_lt
      have hlt' := n.toNat_lt
      have hmax : off.toNat + n.toNat ≤ MAXFILE * BSIZE := by
        simp only [UINT, MAXFILE, BSIZE] at *
        omega
      refine wp_mono (writei_spec h hv ht (by omega) hmax) ?_ fun _ _ he hs => (he hs).ne
      intro _ k' hw
      exact (wp_pure _).2 fun hs => (hw hs).2.wf
  · refine wp_mono (writei_dev (by rw [h.coherent ip hv, ht])) ?_ fun _ _ he => he.elim
    rintro _ k' (rfl | rfl)
    · exact (wp_pure _).2 fun _ => h
    · exact (wp_pure _).2 fun _ => wf_devices h _

/-- `iput` that frees: the blocks of the inode and no others are given back. -/
theorem iput_frees (h : Wf k) {ip : Nat} {k' : State} (hlast : (k.icache ip).ref = 1)
    (hv : (k.icache ip).valid = true) (hlink : (k.icopy ip).nlink = 0)
    (hrun : (iput ip).run k = .ok () k') :
    (∀ s, k'.ref (ip, s) = 0) ∧ ∀ b, k'.bitmap b = true ↔
      k.bitmap b = true ∧ ∀ s, k.ref (ip, s) ≠ 0 → k.ref (ip, s) ≠ b := by
  obtain ⟨r, k₁, hcheck, hfree⟩ := run_bind_eq_ok hrun
  rcases iputCheck_ok hcheck with ⟨rfl, -, -, rfl⟩ | ⟨-, hnot, -⟩
  · have hwf := sound_setEntry h ip (e := { k.icache ip with busy := some k.cur }) id
    have hvalid : ((k.setEntry ip { k.icache ip with busy := some k.cur }).icache ip).valid =
        true := by
      rw [State.setEntry_self]
      exact hv
    have hr := ok_of_wp (iputFree_spec hwf hvalid) hfree
    have href : (k.setEntry ip { k.icache ip with busy := some k.cur }).ref = k.ref :=
      (h.of_disk (.setEntry k ip _) fun i hi => ⟨hwf.coherent i hi, hwf.live i hi⟩).2.1
    refine ⟨hr.dropped, fun b => ?_⟩
    rw [hr.bits b, href]
    rfl
  · exact absurd ⟨hlast, hv, hlink⟩ hnot

theorem sound_iput (h : Wf k) (ip : Nat) : Sound (.iput ip) k := by
  unfold Sound Op.code Kernel.iput
  rw [wp_bind]
  cases hcheck : (iputCheck ip).run k with
  | ok r k₁ =>
      refine wp_of_ok hcheck ?_
      rcases iputCheck_ok hcheck with ⟨rfl, ⟨-, hv, -⟩, -, rfl⟩ | ⟨rfl, -, rfl⟩
      · have hwf := sound_setEntry h ip (e := { k.icache ip with busy := some k.cur }) id
        refine wp_mono (iputFree_spec hwf ?_) (fun _ _ hr _ => hr.wf) fun _ _ he _ => he.ne
        rw [State.setEntry_self]
        exact hv
      · exact (wp_pure _).2 fun _ => sound_setEntry h ip id
  | fail e k₁ =>
      obtain ⟨rfl, -⟩ := iputCheck_stop hcheck
      exact wp_of_fail hcheck fun _ => by decide

theorem sound_ialloc (h : Wf k) (type : InodeType) : Sound (.ialloc type) k := by
  unfold Sound Op.code
  rw [wp_bind]
  refine wp_mono (ialloc_spec h) (fun _ _ ha => (wp_pure _).2 fun _ => ha.wf) ?_
  rintro e _ (he | rfl | rfl) _
  · exact he.ne
  · decide
  · decide

/-- **Every operation is sound** on a well-formed disk. -/
theorem Op.sound (h : Wf k) (o : Op) (hallowed : o.Allowed k) : Sound o k := by
  cases o with
  | beginTrans => exact sound_beginTrans h
  | commitTrans => exact sound_commitTrans h
  | iget inum => exact sound_iget h inum
  | ilock ip => exact sound_ilock h ip
  | iunlock ip => exact sound_iunlock h ip
  | readi ip off n => exact sound_readi h hallowed off n
  | writei ip src off n => exact sound_writei h hallowed src off n
  | iput ip => exact sound_iput h ip
  | ialloc type => exact sound_ialloc h type

end Sound

/-! ## Every sequence -/

/-- What block ownership means in a state, for its blocks and for the next
operation. -/
structure BlockSafe (k : State) : Prop where
  /-- No block is referenced twice. -/
  once : ∀ x y, k.ref x ≠ 0 → k.ref x = k.ref y → x = y
  /-- A referenced block has its bit set. -/
  marked : ∀ x, k.ref x ≠ 0 → k.bitmap (k.ref x) = true
  /-- A free block is referenced by nobody. -/
  free : ∀ b, b ≠ 0 → k.bitmap b = false → ∀ x, k.ref x ≠ b
  /-- The blocks of a file up to its size are there. -/
  mapped : ∀ i, (k.dinode i).type.HasData → ∀ o, o < (k.dinode i).size →
    k.ref (i, blockSlot (o / BSIZE)) ≠ 0
  /-- `readi` allocates nothing. -/
  reads : ∀ ip off n k', (k.icache ip).valid = true →
    (Op.readi ip off n).code.run k = .ok () k' → k'.allocs = k.allocs ∧ k'.bitmap = k.bitmap
  /-- `iput` that frees the inode frees exactly the blocks it referenced. -/
  frees : ∀ ip k', (k.icache ip).ref = 1 → (k.icache ip).valid = true →
    (k.icopy ip).nlink = 0 → (iput ip).run k = .ok () k' →
    (∀ s, k'.ref (ip, s) = 0) ∧ ∀ b, k'.bitmap b = true ↔
      k.bitmap b = true ∧ ∀ s, k.ref (ip, s) ≠ 0 → k.ref (ip, s) ≠ b
  /-- No operation frees a free block. -/
  halts : ∀ o : Op, o.Allowed k → ∀ e k', o.code.run k = .fail e k' → k'.starved = false →
    e ≠ .panic .freeingFreeBlock

theorem Wf.blockSafe {k : State} (h : Wf k) : BlockSafe k where
  once := h.owned.excl.inj
  marked := h.owned.excl.held
  free b hb hbit := h.owned.excl.ne_of_not_used (by simp [hbit]) hb
  mapped i ht o ho := h.mapped i ht o (Nat.zero_le _) (by omega)
  reads ip off n k' hv hrun := by
    obtain ⟨r, k₁, hread, hret⟩ := run_bind_eq_ok hrun
    cases hret
    rcases ok_of_wp (readi_reads h hv off n) hread with rfl | rfl
    · exact ⟨rfl, rfl⟩
    · exact ⟨rfl, rfl⟩
  frees ip k' hlast hv hlink hrun := iput_frees h hlast hv hlink hrun
  halts o ho e k' hrun := fail_of_wp (o.sound h ho) hrun

theorem Steps.wf {k k' : State} (hs : Steps k k') (h : Wf k) (hfed : k'.starved = false) :
    Wf k' := by
  induction hs with
  | refl => exact h
  | step o _ hallowed hrun ih =>
      have hfed₁ := ok_of_wp (o.code_fed.wp _) hrun hfed
      exact ok_of_wp (o.sound (ih hfed₁) hallowed) hrun hfed

/-- **Block ownership.**  Whatever sequence of inode operations a well-formed
file system goes through, while `balloc` finds free data blocks its blocks stay
owned. -/
theorem blocks_stay_owned {k k' : State} (h : Wf k) (hs : Steps k k')
    (hfed : k'.starved = false) : BlockSafe k' :=
  (hs.wf h hfed).blockSafe

instance (k : State) : (o : Op) → Decidable (o.Allowed k)
  | .readi ip _ _ => inferInstanceAs (Decidable ((k.icache ip).valid = true))
  | .writei ip _ _ _ => inferInstanceAs (Decidable ((k.icache ip).valid = true))
  | .beginTrans | .commitTrans | .iget _ | .ilock _ | .iunlock _ | .iput _ | .ialloc _ =>
      inferInstanceAs (Decidable True)

/-- Run the operations in turn, as long as they are allowed and return. -/
def runOps : List Op → State → Option State
  | [], k => some k
  | o :: os, k =>
      if o.Allowed k then
        match o.code.run k with
        | .ok _ k' => runOps os k'
        | .fail _ _ => none
      else none

theorem Steps.of_runOps {k : State} (os : List Op) :
    ∀ {k₁ k₂ : State}, Steps k k₁ → runOps os k₁ = some k₂ → Steps k k₂ := by
  induction os with
  | nil =>
      intro k₁ k₂ hs h
      cases h
      exact hs
  | cons o os ih =>
      intro k₁ k₂ hs h
      rw [runOps] at h
      split at h
      · rename_i hallowed
        cases hrun : o.code.run k₁ with
        | ok u k' =>
            rw [hrun] at h
            exact ih (hs.step o hallowed hrun) h
        | fail e k' =>
            rw [hrun] at h
            cases h
      · cases h

/-- Make a file, write its first block, and let go of it again, which frees it
because no directory names it. -/
def writeAndDrop : List Op :=
  [.beginTrans, .ialloc .file, .ilock 2, .writei 2 (fun _ => 1) 0 1024,
    .commitTrans, .beginTrans, .iunlock 2, .iput 2, .commitTrans]

theorem blocks_stay_owned_write_and_drop :
    ∃ k', Steps smallDisk k' ∧ k'.allocs = [5] ∧ k'.bitmap 5 = false ∧ BlockSafe k' := by
  have hrun : (runOps writeAndDrop smallDisk).map
      (fun k => (k.allocs, k.bitmap 5, k.starved)) = some ([5], false, false) := by
    decide +kernel
  obtain ⟨k', hk', hsees⟩ := Option.map_eq_some_iff.1 hrun
  have hsteps := Steps.of_runOps writeAndDrop .refl hk'
  obtain ⟨hallocs, hbit, hfed⟩ : k'.allocs = [5] ∧ k'.bitmap 5 = false ∧ k'.starved = false := by
    simpa using hsees
  exact ⟨k', hsteps, hallocs, hbit, blocks_stay_owned smallDisk_wf hsteps hfed⟩

end Xv6.Kernel
