import Xv6.Mkfs.Image
import Xv6.Kernel.Blocks

/-!
# The block table of the image

`mkfs` hands out blocks one after the other and never takes one back.  `Table` says what
that makes of the inodes' addresses: every block handed out stands in exactly one slot of
one inode, and the blocks that have not been handed out are zero.  Taking the next block
into an empty slot keeps this and changes the bytes of no file.
-/

namespace Xv6.Mkfs

open Xv6.Verified
open Xv6.Kernel
open Exec

theorem metablocks_eq : metablocks = 16 := by decide

/-- The block in slot `x.2` of inode `x.1`, 0 if none. -/
def refOf (sec : Nat → Block) (ino : Nat → Dinode) (x : Nat × Nat) : Nat :=
  slotAddr sec (ino x.1) x.2

/-- Byte `o` of a file, zero where it has no block. -/
def byteOf (sec : Nat → Block) (d : Dinode) (o : Nat) : UInt8 :=
  if slotAddr sec d (blockSlot (o / BSIZE)) = 0 then 0
  else sec (slotAddr sec d (blockSlot (o / BSIZE))) (o % BSIZE)

/-- The blocks from `metablocks` up to `free` are the ones in use, each in one slot. -/
structure Table (sec : Nat → Block) (ino : Nat → Dinode) (free : Nat) : Prop where
  inj : ∀ x y, refOf sec ino x ≠ 0 → refOf sec ino x = refOf sec ino y → x = y
  range : ∀ x, refOf sec ino x ≠ 0 → metablocks ≤ refOf sec ino x ∧ refOf sec ino x < free
  cover : ∀ b, metablocks ≤ b → b < free → ∃ x, refOf sec ino x = b
  clean : ∀ b, free ≤ b → sec b = Block.zero
  low : metablocks ≤ free

section Refs

variable {sec sec' : Nat → Block} {ino ino' : Nat → Dinode} {free : Nat}

theorem refOf_of_le (sec : Nat → Block) {i s : Nat} (h : s ≤ NDIRECT) :
    refOf sec ino (i, s) = (ino i).addrs s := by
  simp [refOf, slotAddr, h]

theorem refOf_of_gt {i s : Nat} (h : NDIRECT < s) (h' : s < NSLOT)
    (hind : (ino i).addrs NDIRECT ≠ 0) :
    refOf sec ino (i, s) = (sec ((ino i).addrs NDIRECT)).word (s - 13) := by
  simp only [refOf, slotAddr]
  rw [if_neg (by omega), if_pos ⟨h', hind⟩]

theorem refOf_of_no_indirect {i s : Nat} (h : NDIRECT < s) (hind : (ino i).addrs NDIRECT = 0) :
    refOf sec ino (i, s) = 0 := by
  simp only [refOf, slotAddr]
  rw [if_neg (by omega), if_neg (fun hs => hs.2 hind)]

theorem refOf_of_ge {i s : Nat} (h : NSLOT ≤ s) : refOf sec ino (i, s) = 0 := by
  have hslots := slot_counts
  simp only [refOf, slotAddr]
  rw [if_neg (by omega), if_neg (by omega)]

/-- The table depends on the addresses and on the contents of indirect blocks. -/
theorem refOf_congr {x : Nat × Nat} (haddrs : (ino' x.1).addrs = (ino x.1).addrs)
    (hsec : (ino x.1).addrs NDIRECT ≠ 0 →
      sec' ((ino x.1).addrs NDIRECT) = sec ((ino x.1).addrs NDIRECT)) :
    refOf sec' ino' x = refOf sec ino x := by
  simp only [refOf, slotAddr, haddrs]
  by_cases hind : (ino x.1).addrs NDIRECT = 0
  · simp [hind]
  · rw [hsec hind]

/-- The bytes of a file depend on its table and on its blocks. -/
theorem byteOf_congr {i o : Nat}
    (href : refOf sec' ino' (i, blockSlot (o / BSIZE)) = refOf sec ino (i, blockSlot (o / BSIZE)))
    (hsec : refOf sec ino (i, blockSlot (o / BSIZE)) ≠ 0 →
      sec' (refOf sec ino (i, blockSlot (o / BSIZE))) =
        sec (refOf sec ino (i, blockSlot (o / BSIZE)))) :
    byteOf sec' (ino' i) o = byteOf sec (ino i) o := by
  show (if refOf sec' ino' (i, blockSlot (o / BSIZE)) = 0 then 0
    else sec' (refOf sec' ino' (i, blockSlot (o / BSIZE))) (o % BSIZE)) =
    if refOf sec ino (i, blockSlot (o / BSIZE)) = 0 then 0
    else sec (refOf sec ino (i, blockSlot (o / BSIZE))) (o % BSIZE)
  rw [href]
  split
  · rfl
  · rename_i h0
    rw [hsec h0]

/-- An inode's indirect block is in no other slot. -/
theorem Table.indirect_ne (h : Table sec ino free) {i : Nat} (hind : (ino i).addrs NDIRECT ≠ 0)
    {x : Nat × Nat} (hx : x ≠ (i, NDIRECT)) : refOf sec ino x ≠ (ino i).addrs NDIRECT := by
  rw [← refOf_of_le sec (Nat.le_refl _)] at hind ⊢
  exact fun heq => hx (h.inj _ _ hind heq.symm).symm

/-! ## Taking the next block -/

/-- The next block went into slot `s` of inode `inum`, which was empty. -/
structure Took (inum s : Nat) (sec : Nat → Block) (ino : Nat → Dinode) (free : Nat)
    (sec' : Nat → Block) (ino' : Nat → Dinode) : Prop where
  table : Table sec' ino' (free + 1)
  refs : refOf sec' ino' = Function.update (refOf sec ino) (inum, s) free
  bytes : ∀ i o, byteOf sec' (ino' i) o = byteOf sec (ino i) o
  below : ∀ b, b < metablocks → sec' b = sec b

/-- What makes the table grow by one block. -/
theorem Table.take (h : Table sec ino free) {inum s : Nat}
    (hempty : refOf sec ino (inum, s) = 0)
    (hrefs : refOf sec' ino' = Function.update (refOf sec ino) (inum, s) free)
    (hsec : ∀ i s', s' ≠ NDIRECT → refOf sec ino (i, s') ≠ 0 →
      sec' (refOf sec ino (i, s')) = sec (refOf sec ino (i, s')))
    (hfree : ∀ b, free ≤ b → sec' b = sec b) (hbelow : ∀ b, b < metablocks → sec' b = sec b) :
    Took inum s sec ino free sec' ino' := by
  have hlow := h.low
  have hmeta := metablocks_eq
  have hold : ∀ x, refOf sec ino x ≠ free := by
    intro x hx
    have := h.range x (by omega)
    omega
  refine ⟨⟨?_, ?_, ?_, ?_, by omega⟩, hrefs, ?_, hbelow⟩
  · rw [hrefs]
    intro x y hx hxy
    by_cases hxs : x = (inum, s)
    · by_cases hys : y = (inum, s)
      · rw [hxs, hys]
      · rw [hxs, Function.update_self, Function.update_of_ne hys] at hxy
        exact absurd hxy.symm (hold y)
    · by_cases hys : y = (inum, s)
      · rw [hys, Function.update_self, Function.update_of_ne hxs] at hxy
        exact absurd hxy (hold x)
      · rw [Function.update_of_ne hxs] at hx hxy
        rw [Function.update_of_ne hys] at hxy
        exact h.inj x y hx hxy
  · rw [hrefs]
    intro x hx
    by_cases hxs : x = (inum, s)
    · rw [hxs, Function.update_self]
      omega
    · rw [Function.update_of_ne hxs] at hx ⊢
      have := h.range x hx
      omega
  · rw [hrefs]
    intro b hb hlt
    by_cases heq : b = free
    · exact ⟨(inum, s), by rw [Function.update_self, heq]⟩
    · obtain ⟨x, hx⟩ := h.cover b hb (by omega)
      refine ⟨x, ?_⟩
      rw [Function.update_of_ne]
      · exact hx
      · rintro rfl
        rw [hempty] at hx
        omega
  · intro b hb
    rw [hfree b (by omega)]
    exact h.clean b (by omega)
  · intro i o
    by_cases hslot : (i, blockSlot (o / BSIZE)) = (inum, s)
    · -- the block is new: it was read as zero and is zero
      have hnew : slotAddr sec' (ino' i) (blockSlot (o / BSIZE)) = free := by
        show refOf sec' ino' (i, blockSlot (o / BSIZE)) = free
        rw [hrefs, hslot, Function.update_self]
      have hnone : slotAddr sec (ino i) (blockSlot (o / BSIZE)) = 0 := by
        show refOf sec ino (i, blockSlot (o / BSIZE)) = 0
        rw [hslot]
        exact hempty
      rw [byteOf, byteOf, hnew, hnone, if_pos rfl, hfree free (Nat.le_refl _),
        h.clean free (Nat.le_refl _)]
      split <;> rfl
    · apply byteOf_congr
      · rw [hrefs, Function.update_of_ne hslot]
      · exact hsec i _ (blockSlot_ne _)

/-- The block goes into the inode itself. -/
theorem Table.take_addr (h : Table sec ino free) {inum s : Nat} (hs : s ≤ NDIRECT)
    (hempty : (ino inum).addrs s = 0) :
    Took inum s sec ino free sec (Function.update ino inum
      { ino inum with addrs := Function.update (ino inum).addrs s free }) := by
  have hslots := slot_counts
  have hmeta := metablocks_eq
  apply h.take (by rw [refOf_of_le _ hs]; exact hempty)
  · funext ⟨i, s'⟩
    by_cases hi : i = inum
    · subst hi
      by_cases hs' : s' = s
      · subst hs'
        rw [Function.update_self, refOf_of_le _ hs, Function.update_self]
        exact Function.update_self _ _ _
      · have hne : ((i, s') : Nat × Nat) ≠ (i, s) := fun heq => hs' (Prod.mk.inj heq).2
        rw [Function.update_of_ne hne]
        by_cases hle : s' ≤ NDIRECT
        · rw [refOf_of_le _ hle, refOf_of_le _ hle, Function.update_self]
          exact Function.update_of_ne hs' _ _
        · by_cases hsn : s = NDIRECT
          · -- a new indirect block has no entries yet
            subst hsn
            rw [refOf_of_no_indirect (by omega) hempty]
            by_cases hlt : s' < NSLOT
            · have hind : (Function.update ino i
                  { ino i with addrs := Function.update (ino i).addrs NDIRECT free } i).addrs
                    NDIRECT = free := by
                rw [Function.update_self]
                show Function.update (ino i).addrs NDIRECT free NDIRECT = free
                exact Function.update_self _ _ _
              have hlow := h.low
              rw [refOf_of_gt (by omega) hlt (by omega), hind, h.clean free (Nat.le_refl _),
                Block.word_zero]
            · exact refOf_of_ge (by omega)
          · simp only [refOf, slotAddr, Function.update_self]
            rw [Function.update_of_ne (Ne.symm hsn), if_neg hle, if_neg hle]
    · have hne : ((i, s') : Nat × Nat) ≠ (inum, s) := fun heq => hi (Prod.mk.inj heq).1
      rw [Function.update_of_ne hne]
      apply refOf_congr
      · rw [Function.update_of_ne hi]
      · exact fun _ => rfl
  · exact fun _ _ _ _ => rfl
  · exact fun _ _ => rfl
  · exact fun _ _ => rfl

/-- The block goes into the inode's indirect block. -/
theorem Table.take_word (h : Table sec ino free) {inum j : Nat} (hj : j < NINDIRECT)
    (hind : (ino inum).addrs NDIRECT ≠ 0)
    (hempty : (sec ((ino inum).addrs NDIRECT)).word j = 0) (hfree : free < UINT) :
    Took inum (j + 13) sec ino free (Function.update sec ((ino inum).addrs NDIRECT)
      ((sec ((ino inum).addrs NDIRECT)).setWord j free)) ino := by
  have hslots := slot_counts
  have hrange := h.range (inum, NDIRECT) (by rw [refOf_of_le _ (Nat.le_refl _)]; exact hind)
  rw [refOf_of_le _ (Nat.le_refl _)] at hrange
  apply h.take
  · rw [refOf_of_gt (by omega) (by omega) hind, show j + 13 - 13 = j by omega]
    exact hempty
  · funext ⟨i, s'⟩
    by_cases hi : i = inum
    · subst hi
      by_cases hs' : s' = j + 13
      · subst hs'
        rw [Function.update_self, refOf_of_gt (by omega) (by omega) hind, Function.update_self,
          show j + 13 - 13 = j by omega, Block.word_setWord_self, Nat.mod_eq_of_lt hfree]
      · have hne : ((i, s') : Nat × Nat) ≠ (i, j + 13) := fun heq => hs' (Prod.mk.inj heq).2
        rw [Function.update_of_ne hne]
        by_cases hle : s' ≤ NDIRECT
        · rw [refOf_of_le _ hle, refOf_of_le _ hle]
        · by_cases hlt : s' < NSLOT
          · rw [refOf_of_gt (by omega) hlt hind, refOf_of_gt (by omega) hlt hind,
              Function.update_self, Block.word_setWord_of_ne _ _ (by omega)]
          · rw [refOf_of_ge (by omega), refOf_of_ge (by omega)]
    · have hne : ((i, s') : Nat × Nat) ≠ (inum, j + 13) := fun heq => hi (Prod.mk.inj heq).1
      rw [Function.update_of_ne hne]
      apply refOf_congr rfl
      intro hind'
      apply Function.update_of_ne
      rw [← refOf_of_le sec (Nat.le_refl _)]
      exact h.indirect_ne hind fun heq => hi (Prod.mk.inj heq).1
  · intro i s' hs' _
    apply Function.update_of_ne
    exact h.indirect_ne hind fun heq => hs' (Prod.mk.inj heq).2
  · intro b hb
    exact Function.update_of_ne (by omega) _ _
  · intro b hb
    exact Function.update_of_ne (by omega) _ _

/-! ## Storing into a block -/

/-- Storing into a data block leaves the table alone. -/
theorem Table.store (h : Table sec ino free) {inum bn : Nat}
    (hx : refOf sec ino (inum, blockSlot bn) ≠ 0) (buf : Block) :
    Table (Function.update sec (refOf sec ino (inum, blockSlot bn)) buf) ino free ∧
    refOf (Function.update sec (refOf sec ino (inum, blockSlot bn)) buf) ino = refOf sec ino ∧
    (∀ i o, i ≠ inum ∨ o / BSIZE ≠ bn →
      byteOf (Function.update sec (refOf sec ino (inum, blockSlot bn)) buf) (ino i) o =
        byteOf sec (ino i) o) ∧
    ∀ o, o / BSIZE = bn →
      byteOf (Function.update sec (refOf sec ino (inum, blockSlot bn)) buf) (ino inum) o =
        buf (o % BSIZE) := by
  obtain ⟨x, hxeq⟩ : ∃ x, x = refOf sec ino (inum, blockSlot bn) := ⟨_, rfl⟩
  have hrange := h.range _ hx
  rw [← hxeq] at hx hrange ⊢
  have hother : ∀ y, y ≠ (inum, blockSlot bn) → refOf sec ino y ≠ x := by
    intro y hy heq
    exact hy (h.inj _ _ (by rw [heq]; exact hx) (heq.trans hxeq))
  have hrefs : refOf (Function.update sec x buf) ino = refOf sec ino := by
    funext ⟨i, s⟩
    apply refOf_congr rfl
    intro _
    apply Function.update_of_ne
    rw [← refOf_of_le sec (Nat.le_refl _)]
    exact hother _ fun heq => blockSlot_ne bn (Prod.mk.inj heq).2.symm
  refine ⟨⟨?_, ?_, ?_, ?_, h.low⟩, hrefs, ?_, ?_⟩
  · rw [hrefs]
    exact h.inj
  · rw [hrefs]
    exact h.range
  · rw [hrefs]
    exact h.cover
  · intro b hb
    rw [Function.update_of_ne (by omega)]
    exact h.clean b hb
  · intro i o hio
    apply byteOf_congr
    · rw [hrefs]
    · intro _
      apply Function.update_of_ne
      apply hother
      intro heq
      rcases hio with hi | ho
      · exact hi (Prod.mk.inj heq).1
      · exact ho (blockSlot_inj (Prod.mk.inj heq).2)
  · intro o ho
    have href : slotAddr (Function.update sec x buf) (ino inum) (blockSlot (o / BSIZE)) = x := by
      show refOf (Function.update sec x buf) ino (inum, blockSlot (o / BSIZE)) = x
      rw [hrefs, ho, ← hxeq]
    rw [byteOf, href, if_neg hx, Function.update_self]

end Refs

end Xv6.Mkfs
