import Xv6.Mkfs.Table

/-!
# Appending to a file of the image

`iappend` adds bytes at the end of a file.  `blockFor` finds or takes the block, one slot
at a time; the loop copies into one block after the other.  The number of blocks of a file
depends on its size only.
-/

namespace Xv6.Mkfs

open Xv6.Verified
open Xv6.Kernel
open Exec

/-- The blocks of a file of `n` bytes, its indirect block included. -/
def need (n : Nat) : Nat := (n + (BSIZE - 1)) / BSIZE + if NDIRECT * BSIZE < n then 1 else 0

/-- The slots of inode `i` that are in use are those a file of `n` bytes needs. -/
structure Sized (ref : Nat × Nat → Nat) (i n : Nat) : Prop where
  blocks : ∀ b, b < MAXFILE → (ref (i, blockSlot b) ≠ 0 ↔ b * BSIZE < n)
  indirect : ref (i, NDIRECT) ≠ 0 ↔ NDIRECT * BSIZE < n

/-- Slot `s` of inode `inum` has a block, taken if it was empty. -/
structure SlotReady (inum s : Nat) (ino : Nat → Dinode) (g : Image) (d : Dinode) (g' : Image) :
    Prop where
  table : Table g'.sector (Function.update ino inum d) g'.freeblock
  only : ∀ x, x ≠ (inum, s) →
    refOf g'.sector (Function.update ino inum d) x = refOf g.sector ino x
  there : refOf g'.sector (Function.update ino inum d) (inum, s) ≠ 0
  bytes : ∀ i o, byteOf g'.sector (Function.update ino inum d i) o = byteOf g.sector (ino i) o
  below : ∀ b, b < metablocks → g'.sector b = g.sector b
  fields : d = { ino inum with addrs := d.addrs }
  slots : ∀ s, NDIRECT < s → d.addrs s = (ino inum).addrs s
  count : g'.freeblock =
    g.freeblock + if refOf g.sector ino (inum, s) = 0 then 1 else 0
  last : refOf g.sector ino (inum, s) = 0 →
    refOf g'.sector (Function.update ino inum d) (inum, s) + 1 = g'.freeblock
  used : g'.usedblocks = g'.freeblock
  inodes : g'.freeinode = g.freeinode

section Slots

variable {inum : Nat} {ino : Nat → Dinode} {g : Image}

theorem wp_rsect {sec : Nat} {Q : Block → Image → Prop} {E : Abort → Image → Prop}
    (hQ : sec < size → Q (g.sector sec) g) (hE : size ≤ sec → E .read g) :
    wp (rsect sec) Q E g := by
  unfold rsect
  rw [wp_bind, wp_get, wp_ite]
  exact ⟨fun h => (wp_pure _).2 (hQ h), fun h => (wp_stop _).2 (hE (by omega))⟩

/-- The slot was in use before. -/
theorem SlotReady.refl {s : Nat} (h : Table g.sector ino g.freeblock)
    (hused : g.usedblocks = g.freeblock) (hs : refOf g.sector ino (inum, s) ≠ 0) :
    SlotReady inum s ino g (ino inum) g := by
  have hsame : Function.update ino inum (ino inum) = ino := Function.update_eq_self _ _
  refine ⟨?_, ?_, ?_, ?_, fun _ _ => rfl, rfl, fun _ _ => rfl, ?_, fun hc => absurd hc hs, hused,
    rfl⟩
  · rw [hsame]
    exact h
  · rw [hsame]
    exact fun _ _ => rfl
  · rw [hsame]
    exact hs
  · rw [hsame]
    exact fun _ _ => rfl
  · rw [if_neg hs]
    rfl

/-- The slot was filled. -/
theorem SlotReady.of_took {s : Nat} {sec' : Nat → Block} {d : Dinode}
    (h : Table g.sector ino g.freeblock)
    (hused : g.usedblocks = g.freeblock) (hs : refOf g.sector ino (inum, s) = 0)
    (ht : Took inum s g.sector ino g.freeblock sec' (Function.update ino inum d))
    (hfields : d = { ino inum with addrs := d.addrs })
    (hslots : ∀ s, NDIRECT < s → d.addrs s = (ino inum).addrs s) :
    SlotReady inum s ino g d { g with
      sector := sec', freeblock := g.freeblock + 1, usedblocks := g.usedblocks + 1 } := by
  have hlow := h.low
  have hmeta := metablocks_eq
  refine ⟨ht.table, ?_, ?_, ht.bytes, ht.below, hfields, hslots, ?_, fun _ => ?_, ?_, rfl⟩
  · intro x hx
    show refOf sec' _ x = _
    rw [ht.refs, Function.update_of_ne hx]
  · show refOf sec' _ _ ≠ 0
    rw [ht.refs, Function.update_self]
    omega
  · rw [if_pos hs]
  · show refOf sec' _ _ + 1 = g.freeblock + 1
    rw [ht.refs, Function.update_self]
  · show g.usedblocks + 1 = g.freeblock + 1
    rw [hused]

/-- `fillAddr` makes a slot of the inode itself ready. -/
theorem fillAddr_wp {s : Nat} (hs : s ≤ NDIRECT) (h : Table g.sector ino g.freeblock)
    (hused : g.usedblocks = g.freeblock) {Q : Dinode → Image → Prop} {E : Abort → Image → Prop}
    (hQ : ∀ d g', SlotReady inum s ino g d g' → Q d g') : wp (fillAddr (ino inum) s) Q E g := by
  have href : refOf g.sector ino (inum, s) = (ino inum).addrs s := refOf_of_le _ hs
  unfold fillAddr
  rw [wp_ite]
  constructor
  · intro hempty
    have ht := h.take_addr hs hempty
    unfold takeBlock
    simp only [wp_bind, wp_get, wp_modify, wp_pure]
    apply hQ
    apply SlotReady.of_took h hused (by rw [href]; exact hempty) ht rfl
    intro s' hs'
    exact Function.update_of_ne (by omega) _ _
  · intro hthere
    exact (wp_pure _).2 (hQ _ _ (SlotReady.refl h hused (by rw [href]; exact hthere)))

/-- The second half of `blockFor`, once the indirect block is there. -/
def entryFor (din : Dinode) (fbn : Nat) : M (Dinode × Nat) := do
  let indirect ← rsect (din.addrs NDIRECT)
  if indirect.word (fbn - NDIRECT) = 0 then do
    let x ← takeBlock
    wsect (din.addrs NDIRECT) (indirect.setWord (fbn - NDIRECT) x)
    return (din, x)
  else return (din, indirect.word (fbn - NDIRECT))

theorem entryFor_wp {fbn : Nat} (hfbn : NDIRECT ≤ fbn) (hmax : fbn < MAXFILE)
    (h : Table g.sector ino g.freeblock) (hused : g.usedblocks = g.freeblock)
    (hind : (ino inum).addrs NDIRECT ≠ 0) (hfree : g.freeblock ≤ size + 1)
    {Q : Dinode × Nat → Image → Prop} {E : Abort → Image → Prop}
    (hQ : ∀ g', SlotReady inum (fbn + 1) ino g (ino inum) g' → (ino inum).addrs NDIRECT < size →
      Q (ino inum, refOf g'.sector ino (inum, fbn + 1)) g')
    (hE : size ≤ (ino inum).addrs NDIRECT → E .read g) : wp (entryFor (ino inum) fbn) Q E g := by
  have hslots := slot_counts
  have href : refOf g.sector ino (inum, fbn + 1) =
      (g.sector ((ino inum).addrs NDIRECT)).word (fbn - NDIRECT) := by
    rw [refOf_of_gt (by omega) (by omega) hind, show fbn + 1 - 13 = fbn - NDIRECT by omega]
  have hsame : Function.update ino inum (ino inum) = ino := Function.update_eq_self _ _
  unfold entryFor
  rw [wp_bind]
  apply wp_rsect
  · intro hlt
    rw [wp_ite]
    constructor
    · intro hempty
      have ht := h.take_word (show fbn - NDIRECT < NINDIRECT by omega) hind hempty
        (show g.freeblock < UINT by simp only [size, UINT] at *; omega)
      rw [show fbn - NDIRECT + 13 = fbn + 1 by omega] at ht
      have hready := SlotReady.of_took h hused
        (by rw [href]; exact hempty) (by rw [hsame]; exact ht)
        rfl fun _ _ => rfl
      unfold takeBlock wsect
      simp only [wp_bind, wp_get, wp_modify, wp_pure]
      have hnew := hQ _ hready hlt
      rw [show refOf (Function.update g.sector ((ino inum).addrs NDIRECT)
        ((g.sector ((ino inum).addrs NDIRECT)).setWord (fbn - NDIRECT) g.freeblock)) ino
        (inum, fbn + 1) = g.freeblock by rw [ht.refs, Function.update_self]] at hnew
      exact hnew
    · intro hthere
      have hready : SlotReady inum (fbn + 1) ino g (ino inum) g :=
        SlotReady.refl h hused (by rw [href]; exact hthere)
      have hold := hQ g hready hlt
      rw [href] at hold
      exact (wp_pure _).2 hold
  · exact hE

end Slots

/-! ## A block -/

/-- The block at offset `off` of inode `inum` is `x`, taken if it was not there. -/
structure BlockReady (inum off : Nat) (ino : Nat → Dinode) (g : Image) (d : Dinode) (x : Nat)
    (g' : Image) : Prop where
  table : Table g'.sector (Function.update ino inum d) g'.freeblock
  block : x = refOf g'.sector (Function.update ino inum d) (inum, blockSlot (off / BSIZE))
  sized : ∀ n, off / BSIZE * BSIZE < n → n ≤ (off / BSIZE + 1) * BSIZE →
    Sized (refOf g'.sector (Function.update ino inum d)) inum n
  others : ∀ i s, i ≠ inum →
    refOf g'.sector (Function.update ino inum d) (i, s) = refOf g.sector ino (i, s)
  bytes : ∀ i o, byteOf g'.sector (Function.update ino inum d i) o = byteOf g.sector (ino i) o
  below : ∀ b, b < metablocks → g'.sector b = g.sector b
  fields : d = { ino inum with addrs := d.addrs }
  slots : ∀ s, NDIRECT < s → d.addrs s = (ino inum).addrs s
  count : g'.freeblock + need off = g.freeblock + need (off + 1)
  last : g'.freeblock = g.freeblock ∨ x + 1 = g'.freeblock
  used : g'.usedblocks = g'.freeblock
  inodes : g'.freeinode = g.freeinode

section Block

variable {inum off : Nat} {ino : Nat → Dinode} {g : Image}

theorem mul_lt_of_div {b n : Nat} (hn : off / BSIZE * BSIZE < n)
    (hn' : n ≤ (off / BSIZE + 1) * BSIZE) : b * BSIZE < n ↔ b ≤ off / BSIZE := by
  simp only [BSIZE] at *
  omega

/-- Another block of the same file than the one at `off`. -/
theorem mul_lt_of_ne {b : Nat} (hb : b ≠ off / BSIZE) : b * BSIZE < off ↔ b ≤ off / BSIZE := by
  simp only [BSIZE] at *
  omega

theorem Sized.blocks_ready (hs : Sized (refOf g.sector ino) inum off) {ref : Nat × Nat → Nat}
    (hthere : ref (inum, blockSlot (off / BSIZE)) ≠ 0)
    (hsame : ∀ b, b ≠ off / BSIZE → ref (inum, blockSlot b) =
      refOf g.sector ino (inum, blockSlot b))
    (hind : ref (inum, NDIRECT) ≠ 0 ↔ NDIRECT ≤ off / BSIZE) {n : Nat}
    (hn : off / BSIZE * BSIZE < n) (hn' : n ≤ (off / BSIZE + 1) * BSIZE) : Sized ref inum n := by
  constructor
  · intro b hb
    rw [mul_lt_of_div hn hn']
    by_cases hbe : b = off / BSIZE
    · subst hbe
      exact ⟨fun _ => Nat.le_refl _, fun _ => hthere⟩
    · rw [hsame b hbe, hs.blocks b hb, mul_lt_of_ne hbe]
  · rw [hind, mul_lt_of_div hn hn']

/-- The block is one that the inode itself names. -/
theorem SlotReady.direct {d : Dinode} {g' : Image} (hfbn : off / BSIZE < NDIRECT)
    (hs : Sized (refOf g.sector ino) inum off)
    (h : SlotReady inum (off / BSIZE) ino g d g') :
    BlockReady inum off ino g d (d.addrs (off / BSIZE)) g' := by
  have hslots := Kernel.slot_counts
  have hslot : blockSlot (off / BSIZE) = off / BSIZE := if_pos hfbn
  have hne : ∀ s, s ≠ off / BSIZE → ((inum, s) : Nat × Nat) ≠ (inum, off / BSIZE) :=
    fun s hs heq => hs (Prod.mk.inj heq).2
  have hself : refOf g'.sector (Function.update ino inum d) (inum, off / BSIZE) =
      d.addrs (off / BSIZE) := by
    rw [refOf_of_le _ (Nat.le_of_lt hfbn), Function.update_self]
  refine ⟨h.table, ?_, ?_, ?_, h.bytes, h.below, h.fields, h.slots, ?_, ?_, h.used, h.inodes⟩
  · rw [hslot, hself]
  · intro n hn hn'
    apply hs.blocks_ready _ _ _ hn hn'
    · rw [hslot]
      exact h.there
    · intro b hb
      apply h.only
      apply hne
      rw [← hslot]
      exact fun heq => hb (blockSlot_inj heq)
    · rw [h.only _ (hne _ (by omega)), hs.indirect]
      simp only [BSIZE] at *
      omega
  · intro i s hi
    exact h.only _ fun heq => hi (Prod.mk.inj heq).1
  · have hcount := h.count
    have hblock := hs.blocks (off / BSIZE) (by omega)
    rw [hslot] at hblock
    unfold need
    simp only [NDIRECT, BSIZE] at *
    split at hcount <;> split <;> split <;> omega
  · by_cases hempty : refOf g.sector ino (inum, off / BSIZE) = 0
    · rw [← hself]
      exact .inr (h.last hempty)
    · have hcount := h.count
      rw [if_neg hempty] at hcount
      exact .inl hcount

/-- The block is one that the indirect block names. -/
theorem SlotReady.indirect {d : Dinode} {g₁ g' : Image} (hfbn : NDIRECT ≤ off / BSIZE)
    (hmax : off / BSIZE < MAXFILE) (hs : Sized (refOf g.sector ino) inum off)
    (h₁ : SlotReady inum NDIRECT ino g d g₁)
    (h₂ : SlotReady inum (off / BSIZE + 1) (Function.update ino inum d) g₁ d g') :
    BlockReady inum off ino g d
      (refOf g'.sector (Function.update ino inum d) (inum, off / BSIZE + 1)) g' := by
  have hslots := Kernel.slot_counts
  have hslot : blockSlot (off / BSIZE) = off / BSIZE + 1 := if_neg (by omega)
  have hsame : Function.update (Function.update ino inum d) inum d = Function.update ino inum d :=
    Function.update_idem _ _ _
  have htable := h₂.table
  have honly := h₂.only
  have hthere := h₂.there
  have hbytes := h₂.bytes
  rw [hsame] at htable honly hthere hbytes
  have hne : ∀ s s', s ≠ s' → ((inum, s) : Nat × Nat) ≠ (inum, s') :=
    fun s s' hs heq => hs (Prod.mk.inj heq).2
  refine ⟨htable, by rw [hslot], ?_, ?_, ?_, ?_, h₁.fields, h₁.slots, ?_, ?_, h₂.used, ?_⟩
  · intro n hn hn'
    apply hs.blocks_ready _ _ _ hn hn'
    · rw [hslot]
      exact hthere
    · intro b hb
      rw [honly, h₁.only]
      · exact hne _ _ (blockSlot_ne b)
      · apply hne
        rw [← hslot]
        exact fun heq => hb (blockSlot_inj heq)
    · rw [honly _ (hne _ _ (by omega))]
      exact ⟨fun _ => hfbn, fun _ => h₁.there⟩
  · intro i s hi
    rw [honly _ fun heq => hi (Prod.mk.inj heq).1, h₁.only _ fun heq => hi (Prod.mk.inj heq).1]
  · intro i o
    rw [hbytes, h₁.bytes]
  · intro b hb
    rw [h₂.below b hb, h₁.below b hb]
  · have hcount₁ := h₁.count
    have hcount₂ := h₂.count
    have hblock := hs.blocks (off / BSIZE) hmax
    have hind := hs.indirect
    rw [h₁.only _ (hne _ _ (by omega))] at hcount₂
    rw [hslot] at hblock
    unfold need
    simp only [NDIRECT, BSIZE] at *
    split at hcount₁ <;> split at hcount₂ <;> split <;> split <;> omega
  · have hcount₁ := h₁.count
    have hcount₂ := h₂.count
    have hlast := h₂.last
    have hblock := hs.blocks (off / BSIZE) hmax
    have hind := hs.indirect
    rw [hsame] at hlast
    rw [h₁.only _ (hne _ _ (by omega))] at hcount₂ hlast
    rw [hslot] at hblock
    by_cases hempty : refOf g.sector ino (inum, off / BSIZE + 1) = 0
    · exact .inr (hlast hempty)
    · have hthere : refOf g.sector ino (inum, NDIRECT) ≠ 0 := by
        rw [hind]
        exact Nat.lt_of_le_of_lt (Nat.mul_le_mul_right _ hfbn) (hblock.1 hempty)
      rw [if_neg hempty] at hcount₂
      rw [if_neg hthere] at hcount₁
      exact .inl (by omega)
  · rw [h₂.inodes, h₁.inodes]

/-- **`blockFor`.**  It fails only when the image is full. -/
theorem blockFor_wp (h : Table g.sector ino g.freeblock) (hused : g.usedblocks = g.freeblock)
    (hfree : g.freeblock ≤ size) (hmax : off / BSIZE < MAXFILE)
    (hs : Sized (refOf g.sector ino) inum off) {Q : Dinode × Nat → Image → Prop}
    {E : Abort → Image → Prop} (hQ : ∀ d x g', BlockReady inum off ino g d x g' → Q (d, x) g')
    (hE : ∀ a g', size < g.freeblock + (need (off + 1) - need off) → E a g') :
    wp (blockFor (ino inum) (off / BSIZE)) Q E g := by
  have hslots := Kernel.slot_counts
  unfold blockFor
  rw [wp_ite]
  constructor
  · intro hlt
    rw [wp_bind]
    apply fillAddr_wp (Nat.le_of_lt hlt) h hused
    intro d g' hready
    exact (wp_pure _).2 (hQ _ _ _ (hready.direct hlt hs))
  · intro hge
    rw [wp_bind]
    apply fillAddr_wp (Nat.le_refl _) h hused
    intro d g₁ h₁
    have hself : Function.update ino inum d inum = d := Function.update_self _ _ _
    have hind : refOf g₁.sector (Function.update ino inum d) (inum, NDIRECT) = d.addrs NDIRECT := by
      rw [refOf_of_le _ (Nat.le_refl _), hself]
    have hrange := h₁.table.range _ h₁.there
    have hcount := h₁.count
    have hfree₁ : g₁.freeblock ≤ size + 1 := by
      split at hcount <;> omega
    show wp (entryFor d (off / BSIZE)) Q E g₁
    rw [← hself]
    apply entryFor_wp (by omega) hmax h₁.table h₁.used _ hfree₁
    · intro g' h₂ _
      rw [hself] at h₂ ⊢
      exact hQ _ _ _ (SlotReady.indirect (by omega) hmax hs h₁ h₂)
    · intro hfull
      apply hE
      rw [hself, ← hind] at hfull
      have hindirect := hs.indirect
      unfold need
      simp only [NDIRECT, BSIZE, size] at *
      split at hcount <;> split <;> split <;> omega
    · rw [hself, ← hind]
      exact h₁.there

end Block

/-! ## The loop -/

/-- The bytes `p` have been added to inode `inum` from `off` on, `n` of them. -/
structure Extended (inum off n : Nat) (p : Nat → UInt8) (ino : Nat → Dinode) (g : Image)
    (d : Dinode) (g' : Image) : Prop where
  table : Table g'.sector (Function.update ino inum d) g'.freeblock
  sized : Sized (refOf g'.sector (Function.update ino inum d)) inum (off + n)
  others : ∀ i s, i ≠ inum →
    refOf g'.sector (Function.update ino inum d) (i, s) = refOf g.sector ino (i, s)
  kept : ∀ i o, i ≠ inum → byteOf g'.sector (ino i) o = byteOf g.sector (ino i) o
  bytes : ∀ o, byteOf g'.sector d o =
    if off ≤ o ∧ o < off + n then p (o - off) else byteOf g.sector (ino inum) o
  below : ∀ b, b < metablocks → g'.sector b = g.sector b
  fields : d = { ino inum with addrs := d.addrs }
  slots : ∀ s, NDIRECT < s → d.addrs s = (ino inum).addrs s
  count : g'.freeblock + need off = g.freeblock + need (off + n)
  used : g'.usedblocks = g'.freeblock
  inodes : g'.freeinode = g.freeinode
  full : g'.freeblock ≤ size
  fits : 0 < n → off + n ≤ MAXFILE * BSIZE

/-- The image has no room for the bytes, or they make the file too large. -/
def Exceeds (off n : Nat) (g : Image) : Prop :=
  MAXFILE * BSIZE < off + n ∨ size < g.freeblock + (need (off + n) - need off)

theorem need_mono {m n : Nat} (h : m ≤ n) : need m ≤ need n := by
  unfold need
  simp only [NDIRECT, BSIZE]
  split <;> split <;> omega

/-- Sizes that end in the same block need the same blocks. -/
theorem need_same {off n : Nat} (h : off < n) (h' : n ≤ (off / BSIZE + 1) * BSIZE) :
    need (off + 1) = need n := by
  unfold need
  simp only [NDIRECT, BSIZE] at *
  split <;> split <;> omega

section Loop

variable {inum : Nat}

/-- One round of the loop: `m` bytes go into the block at `off`. -/
theorem BlockReady.extended {off m : Nat} {p : Nat → UInt8} {ino : Nat → Dinode} {g g₁ : Image}
    {d : Dinode} {x : Nat} (h : BlockReady inum off ino g d x g₁) (hfree : g.freeblock ≤ size)
    (hx : x < size) (hm : 0 < m) (hend : off + m ≤ (off / BSIZE + 1) * BSIZE)
    (hmax : off / BSIZE < MAXFILE) :
    Extended inum off m p ino g d { g₁ with
      sector := Function.update g₁.sector x
        ((g₁.sector x).copyIn (off - off / BSIZE * 1024) m p) } := by
  have hself : Function.update ino inum d inum = d := Function.update_self _ _ _
  have hsized : Sized (refOf g₁.sector (Function.update ino inum d)) inum (off + m) := by
    apply h.sized _ _ hend
    simp only [BSIZE] at *
    omega
  have hthere : refOf g₁.sector (Function.update ino inum d) (inum,
      blockSlot (off / BSIZE)) ≠ 0 := by
    rw [hsized.blocks _ hmax]
    simp only [BSIZE] at *
    omega
  have hstore := h.table.store hthere ((g₁.sector x).copyIn (off - off / BSIZE * 1024) m p)
  rw [← h.block] at hstore hthere
  obtain ⟨htable, hrefs, hkept, hnew⟩ := hstore
  have hrange := h.table.range (inum, blockSlot (off / BSIZE)) (by rw [← h.block]; exact hthere)
  rw [← h.block] at hrange
  refine ⟨htable, ?_, ?_, ?_, ?_, ?_, h.fields, h.slots, ?_, h.used, h.inodes, ?_, fun _ => ?_⟩
  · show Sized (refOf (Function.update g₁.sector x _) _) inum _
    rw [hrefs]
    exact hsized
  · intro i s hi
    show refOf (Function.update g₁.sector x _) _ _ = _
    rw [hrefs]
    exact h.others i s hi
  · intro i o hi
    have hold := hkept i o (.inl hi)
    rw [Function.update_of_ne hi] at hold
    rw [hold, ← h.bytes i o, Function.update_of_ne hi]
  · intro o
    have hbytes := h.bytes inum o
    rw [hself] at hbytes hnew
    by_cases ho : o / BSIZE = off / BSIZE
    · have hbyte : g₁.sector x (o % BSIZE) = byteOf g₁.sector d o := by
        have hslot : slotAddr g₁.sector d (blockSlot (o / BSIZE)) = x := by
          rw [h.block, ho]
          show _ = slotAddr g₁.sector (Function.update ino inum d inum) _
          rw [hself]
        rw [byteOf, hslot, if_neg hthere]
      rw [hnew o ho, ← hbytes, ← hbyte, Block.copyIn]
      have hiff : (off - off / BSIZE * 1024 ≤ o % BSIZE ∧
          o % BSIZE < off - off / BSIZE * 1024 + m) ↔ (off ≤ o ∧ o < off + m) := by
        simp only [BSIZE] at *
        omega
      by_cases hin : off ≤ o ∧ o < off + m
      · rw [if_pos (hiff.2 hin), if_pos hin]
        congr 1
        simp only [BSIZE] at *
        omega
      · rw [if_neg (fun hc => hin (hiff.1 hc)), if_neg hin]
    · have hold := hkept inum o (.inr ho)
      rw [hself] at hold
      rw [hold, hbytes, if_neg]
      simp only [BSIZE] at *
      omega
  · intro b hb
    show Function.update g₁.sector x _ b = _
    rw [Function.update_of_ne (by omega)]
    exact h.below b hb
  · show g₁.freeblock + need off = _
    rw [h.count, need_same (by omega) hend]
  · show g₁.freeblock ≤ size
    rcases h.last with hlast | hlast <;> omega
  · exact Nat.le_trans hend (Nat.mul_le_mul_right _ hmax)

/-- Two rounds after each other. -/
theorem Extended.trans {off m n : Nat} {p : Nat → UInt8} {ino : Nat → Dinode} {g g₁ g₂ : Image}
    {d₁ d₂ : Dinode} (h₁ : Extended inum off m p ino g d₁ g₁)
    (h₂ : Extended inum (off + m) n (fun o => p (o + m)) (Function.update ino inum d₁) g₁ d₂ g₂) :
    Extended inum off (m + n) p ino g d₂ g₂ := by
  have hidem : Function.update (Function.update ino inum d₁) inum d₂ =
      Function.update ino inum d₂ :=
    Function.update_idem _ _ _
  have hself : Function.update ino inum d₁ inum = d₁ := Function.update_self _ _ _
  obtain ⟨htable, hsized, hothers, hkept, hbytes, hbelow, hfields, hslots, hcount, hused, hinodes,
    hfull, hfits⟩ := h₂
  rw [hidem] at htable hsized hothers
  rw [hself] at hbytes hfields hslots
  refine ⟨htable, by rw [← Nat.add_assoc]; exact hsized, ?_, ?_, ?_, ?_, ?_, ?_, ?_, hused, ?_,
    hfull, ?_⟩
  · intro i s hi
    rw [hothers i s hi, h₁.others i s hi]
  · intro i o hi
    have hold := hkept i o hi
    rw [Function.update_of_ne hi] at hold
    rw [hold, h₁.kept i o hi]
  · intro o
    rw [hbytes, h₁.bytes]
    by_cases hnew : off + m ≤ o ∧ o < off + m + n
    · rw [if_pos hnew, if_pos (by omega), show o - (off + m) + m = o - off by omega]
    · rw [if_neg hnew]
      by_cases hin : off ≤ o ∧ o < off + m
      · rw [if_pos hin, if_pos (by omega)]
      · rw [if_neg hin, if_neg (by omega)]
  · intro b hb
    rw [hbelow b hb, h₁.below b hb]
  · rw [hfields, h₁.fields]
  · intro s hs
    rw [hslots s hs, h₁.slots s hs]
  · have := h₁.count
    rw [← Nat.add_assoc]
    omega
  · rw [hinodes, h₁.inodes]
  · intro hpos
    rcases Nat.eq_zero_or_pos n with rfl | hn
    · exact h₁.fits hpos
    · rw [← Nat.add_assoc]
      exact hfits hn

/-- The loop of `iappend`. -/
theorem appendLoop_wp (fuel : Nat) : ∀ {p : Nat → UInt8} {off n : Nat} {ino : Nat → Dinode}
    {g : Image}, n ≤ fuel → Table g.sector ino g.freeblock → g.usedblocks = g.freeblock →
      g.freeblock ≤ size → Sized (refOf g.sector ino) inum off →
      wp (appendLoop fuel (ino inum) p off n)
        (fun r g' => r.2 = off + n ∧ Extended inum off n p ino g r.1 g')
        (fun _ _ => Exceeds off n g) g := by
  have hbase : ∀ {p : Nat → UInt8} {off : Nat} {ino : Nat → Dinode} {g : Image},
      Table g.sector ino g.freeblock → g.usedblocks = g.freeblock → g.freeblock ≤ size →
      Sized (refOf g.sector ino) inum off → Extended inum off 0 p ino g (ino inum) g := by
    intro p off ino g h hused hfree hs
    have hsame : Function.update ino inum (ino inum) = ino := Function.update_eq_self _ _
    refine ⟨?_, ?_, ?_, fun _ _ _ => rfl, ?_, fun _ _ => rfl, rfl, fun _ _ => rfl, rfl, hused, rfl,
      hfree, fun hpos => absurd hpos (Nat.lt_irrefl 0)⟩
    · rw [hsame]
      exact h
    · rw [hsame]
      exact hs
    · rw [hsame]
      exact fun _ _ _ => rfl
    · intro o
      rw [if_neg (by omega)]
  induction fuel with
  | zero =>
      intro p off n ino g hn h hused hfree hs
      obtain rfl : n = 0 := by omega
      exact (wp_pure _).2 ⟨rfl, hbase h hused hfree hs⟩
  | succ fuel ih =>
      intro p off n ino g hn h hused hfree hs
      rw [appendLoop]
      by_cases hzero : n = 0
      · subst hzero
        rw [if_pos rfl]
        exact (wp_pure _).2 ⟨rfl, hbase h hused hfree hs⟩
      rw [if_neg hzero, wp_bind]
      unfold assert
      rw [wp_ite]
      refine ⟨fun hmax => ?_, fun hmax => ?_⟩
      · rw [wp_pure, wp_bind]
        apply blockFor_wp h hused hfree hmax hs
        · intro d x g₁ hready
          obtain ⟨m, hm⟩ : ∃ m, m = min n ((off / BSIZE + 1) * 1024 - off) := ⟨_, rfl⟩
          have hpos : 0 < m := by
            simp only [BSIZE] at *
            omega
          have hend : off + m ≤ (off / BSIZE + 1) * BSIZE := by
            simp only [BSIZE] at *
            omega
          have hle : m ≤ n := by omega
          have hneed : need (off + m) ≤ need (off + n) := need_mono (by omega)
          have hneed' : need off ≤ need (off + m) := need_mono (by omega)
          dsimp only
          rw [← hm, wp_bind]
          apply wp_rsect
          · intro hx
            have hext := hready.extended (p := p) hfree hx hpos hend hmax
            unfold wsect
            rw [wp_bind, wp_modify]
            have hself : Function.update ino inum d inum = d := Function.update_self _ _ _
            have hrest := ih (p := fun o => p (o + m)) (n := n - m) (by omega)
              hext.table hext.used hext.full hext.sized
            rw [hself] at hrest
            refine wp_mono hrest ?_ ?_
            · intro r g' hr
              obtain ⟨hoff, hext'⟩ := hr
              have hall := hext.trans hext'
              rw [show m + (n - m) = n by omega] at hall
              exact ⟨by omega, hall⟩
            · intro a g' hex
              have hcount : g₁.freeblock + need off = g.freeblock + need (off + m) := hext.count
              unfold Exceeds at hex
              rw [show off + m + (n - m) = off + n by omega] at hex
              rcases hex with hex | hex
              · exact .inl hex
              · replace hex : size < g₁.freeblock + (need (off + n) - need (off + m)) := hex
                exact .inr (by omega)
          · intro hx
            have hsame := need_same (n := off + m) (by omega) hend
            have hcount := hready.count
            have hsized := hready.sized (off + m) (by simp only [BSIZE] at *; omega) hend
            have hrange := hready.table.range (inum, blockSlot (off / BSIZE)) (by
              rw [hsized.blocks _ hmax]
              simp only [BSIZE] at *
              omega)
            rw [← hready.block] at hrange
            exact .inr (by omega)
        · intro a g' hfull
          have h1 : need (off + 1) ≤ need (off + n) := need_mono (by omega)
          exact .inr (by omega)
      · rw [wp_stop]
        refine .inl ?_
        simp only [MAXFILE, BSIZE] at *
        omega

end Loop

end Xv6.Mkfs
