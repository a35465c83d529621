import Xv6.Kernel.Frame
import Xv6.Verified.Ownership

/-!
# Who owns which block

An inode refers to blocks through 269 slots: its twelve direct addresses, the
indirect block, and that block's 256 entries.  `State.ref` is this table for the
whole file system, and `Owned` says that it is exclusive: no block sits in two
slots, every referenced block is a data block whose bitmap bit is set.

`balloc` hands out a block nobody refers to, so putting it into an empty slot
keeps ownership; `bmap` does this at most twice.  `Grown` is what a call of
`bmap` does to the file system: some slots of one inode are filled with zeroed
blocks, and nothing a file contains changes.
-/

namespace Xv6.Kernel

open Xv6.Verified
open Xv6.Verified.Ownership
open Exec

/-! ## The reference table -/

/-- Slots of an inode. -/
abbrev NSLOT : Nat := 269

theorem slot_counts : NDIRECT = 12 ∧ NINDIRECT = 256 ∧ MAXFILE = 268 ∧ NSLOT = 269 := by decide

/-- The block in slot `s` of an inode: direct addresses and the indirect block
first, then the indirect block's entries. -/
def slotAddr (data : Nat → Block) (d : Dinode) (s : Nat) : Nat :=
  if s ≤ NDIRECT then d.addrs s
  else if s < NSLOT ∧ d.addrs NDIRECT ≠ 0 then (data (d.addrs NDIRECT)).word (s - 13)
  else 0

/-- The slot that holds an inode's `bn`-th block. -/
def blockSlot (bn : Nat) : Nat := if bn < NDIRECT then bn else bn + 1

theorem blockSlot_ne (bn : Nat) : blockSlot bn ≠ NDIRECT := by
  unfold blockSlot
  split <;> omega

theorem blockSlot_inj {a b : Nat} (h : blockSlot a = blockSlot b) : a = b := by
  unfold blockSlot at h
  split at h <;> split at h <;> omega

/-- The block in slot `x.2` of inode `x.1`, 0 if none. -/
def State.ref (k : State) (x : Nat × Nat) : Nat := slotAddr k.data (k.ino x.1) x.2

theorem ref_of_le (k : State) {i s : Nat} (h : s ≤ NDIRECT) :
    k.ref (i, s) = (k.ino i).addrs s := by
  simp [State.ref, slotAddr, h]

theorem ref_of_gt (k : State) {i s : Nat} (h : NDIRECT < s) (h' : s < NSLOT)
    (hind : k.ref (i, NDIRECT) ≠ 0) :
    k.ref (i, s) = (k.data (k.ref (i, NDIRECT))).word (s - 13) := by
  rw [ref_of_le k (Nat.le_refl _)] at hind ⊢
  simp only [State.ref, slotAddr]
  rw [if_neg (by omega), if_pos ⟨h', hind⟩]

/-- An inode without an indirect block has no entries. -/
theorem ref_of_no_indirect (k : State) {i s : Nat} (h : NDIRECT ≤ s)
    (hind : k.ref (i, NDIRECT) = 0) : k.ref (i, s) = 0 := by
  rcases Nat.eq_or_lt_of_le h with rfl | hlt
  · exact hind
  · rw [ref_of_le k (Nat.le_refl _)] at hind
    simp only [State.ref, slotAddr]
    rw [if_neg (by omega), if_neg (fun hs => hs.2 hind)]

/-- The table depends on the inodes and on the contents of indirect blocks. -/
theorem ref_congr {k k' : State} (hino : ∀ i, k'.ino i = k.ino i)
    (hdata : ∀ i, k.ref (i, NDIRECT) ≠ 0 →
      k'.data (k.ref (i, NDIRECT)) = k.data (k.ref (i, NDIRECT))) :
    k'.ref = k.ref := by
  funext ⟨i, s⟩
  have hi : k'.ref (i, NDIRECT) = k.ref (i, NDIRECT) := by
    rw [ref_of_le _ (Nat.le_refl _), ref_of_le _ (Nat.le_refl _), hino]
  by_cases hind : k.ref (i, NDIRECT) = 0
  · rcases Nat.lt_or_ge s NDIRECT with hs | hs
    · rw [ref_of_le _ (by omega), ref_of_le _ (by omega), hino]
    · rw [ref_of_no_indirect k hs hind, ref_of_no_indirect k' hs (hi.trans hind)]
  · simp only [State.ref, slotAddr, hino]
    have := hdata i hind
    rw [ref_of_le _ (Nat.le_refl _)] at this
    rw [this]

/-! ## Ownership -/

/-- The block-ownership invariant. -/
structure Owned (k : State) : Prop where
  excl : Exclusive 0 (fun b => k.bitmap b = true) k.ref
  region : ∀ x, k.ref x ≠ 0 → k.DataBlock (k.ref x)
  marked : ∀ b, b < k.sb.dataStart → k.bitmap b = true
  log_end : k.log.start + k.log.size = k.sb.size
  size_le : k.sb.size ≤ UINT

/-- Two states with the same table, bitmap and geometry are owned alike. -/
theorem Owned.congr {k k' : State} (h : Owned k) (href : k'.ref = k.ref)
    (hbm : k'.bitmap = k.bitmap) (hf : Frame k k') : Owned k' := by
  refine ⟨by rw [href, hbm]; exact h.excl, ?_, ?_, ?_, ?_⟩
  · intro x hx
    rw [href] at hx ⊢
    simpa [State.DataBlock, hf.sb, hf.start] using h.region x hx
  · rw [hf.sb, hbm]
    exact h.marked
  · rw [hf.start, hf.size, hf.sb]
    exact h.log_end
  · rw [hf.sb]
    exact h.size_le

/-- A block is in one slot of one inode. -/
theorem Owned.inj {k : State} (h : Owned k) {i s j t : Nat} (hx : k.ref (i, s) ≠ 0)
    (heq : k.ref (i, s) = k.ref (j, t)) : i = j ∧ s = t :=
  Prod.mk.inj (h.excl.inj _ _ hx heq)

/-- A referenced block lies below the log. -/
theorem Owned.ref_lt {k : State} (h : Owned k) {x : Nat × Nat} (hx : k.ref x ≠ 0) :
    k.ref x < k.log.start := (h.region x hx).2

/-! ## `log_write` -/

/-- The two panics of `log_write`. -/
def LogStop (e : Stop) : Prop :=
  e = .panic .tooBigTransaction ∨ e = .panic .writeOutsideTrans

theorem logWrite_spec (k : State) (b : Nat) :
    wp (logWrite b) (fun _ k' => k' = k.logged b) (fun e k' => LogStop e ∧ k' = k) k := by
  simp [logWrite, panic, LogStop]

/-- A logged block changes nothing below the log. -/
theorem data_logged (k : State) (b : Nat) {c : Nat} (h : c < k.log.start) :
    (k.logged b).data c = k.data c := by
  simp only [State.logged]
  exact Function.update_of_ne (by omega) _ _

theorem ref_logged {k : State} (b : Nat)
    (h : ∀ i, k.ref (i, NDIRECT) ≠ 0 → k.ref (i, NDIRECT) < k.log.start) :
    (k.logged b).ref = k.ref :=
  ref_congr (fun _ => rfl) fun i hi => data_logged k b (h i hi)

/-! ## `balloc` -/

theorem firstFree_some {bm : Nat → Bool} {n b c : Nat} (h : firstFree bm n b = some c) :
    b ≤ c ∧ c < b + n ∧ bm c = false ∧ ∀ d, b ≤ d → d < c → bm d = true := by
  induction n generalizing b with
  | zero => simp [firstFree] at h
  | succ n ih =>
      rw [firstFree] at h
      split at h
      · rename_i hb
        obtain ⟨h1, h2, h3, h4⟩ := ih h
        refine ⟨by omega, by omega, h3, fun d hd hdc => ?_⟩
        rcases Nat.eq_or_lt_of_le hd with rfl | hlt
        · exact hb
        · exact h4 d hlt hdc
      · rename_i hb
        cases h
        exact ⟨Nat.le_refl _, by omega, by simpa using hb, fun d hd hdc => by omega⟩

theorem firstFree_none {bm : Nat → Bool} {n b : Nat} (h : firstFree bm n b = none) :
    ∀ d, b ≤ d → d < b + n → bm d = true := by
  induction n generalizing b with
  | zero => intro d hd hdn; omega
  | succ n ih =>
      rw [firstFree] at h
      split at h
      · rename_i hb
        intro d hd hdn
        rcases Nat.eq_or_lt_of_le hd with rfl | hlt
        · exact hb
        · exact ih h d hlt (by omega)
      · cases h

/-- How a function that may allocate can stop, unless it ran out of data
blocks. -/
def AllocStop (e : Stop) (k' : State) : Prop := k'.starved = false → LogStop e

/-- Sequencing for results that are only promised while `balloc` was not asked
in vain: once it was, that stays recorded, whatever runs next. -/
theorem wp_bind_fed {α β : Type} {m : K α} {f : α → K β} {k : State}
    {P : α → State → Prop} {Q : β → State → Prop}
    (hm : wp m (fun a k' => k'.starved = false → P a k') AllocStop k)
    (hframe : ∀ a, Preserves Frame (f a))
    (hf : ∀ a k', P a k' → wp (f a) (fun b k'' => k''.starved = false → Q b k'') AllocStop k') :
    wp (m >>= f) (fun b k'' => k''.starved = false → Q b k'') AllocStop k := by
  rw [wp_bind]
  refine wp_imp hm fun a k' ha => ?_
  cases hs : k'.starved with
  | false => exact hf a k' (ha hs)
  | true =>
      refine wp_mono ((hframe a).wp k') ?_ ?_
      · intro b k'' hfr hs'
        simp [hfr.fed hs'] at hs
      · intro e k'' hfr hs'
        simp [hfr.fed hs'] at hs

/-- What `balloc` did: block `b` was free, is now marked, zeroed and recorded. -/
structure Fresh (k : State) (b : Nat) (k' : State) : Prop where
  frame : Frame k k'
  free : k.bitmap b = false
  lt : b < k.sb.size
  first : ∀ c, c < b → k.bitmap c = true
  bitmap : k'.bitmap = Function.update k.bitmap b true
  zeroed : b < k.log.start → k'.data b = Block.zero
  data : ∀ c, c < k.log.start → c ≠ b → k'.data c = k.data c
  dinode : k'.dinode = k.dinode
  icopy : k'.icopy = k.icopy
  allocs : k'.allocs = k.allocs ++ [b]
  starved : k'.starved = (k.starved || k.dataFull)

theorem balloc_spec (k : State) :
    wp balloc (fun b k' => Fresh k b k')
      (fun e k' => LogStop e ∨ (e = .panic .ballocOutOfBlocks ∧
        (∀ c, c < k.sb.size → k.bitmap c = true) ∧
        k'.starved = (k.starved || k.dataFull))) k := by
  have hframed : wp balloc (fun b k' => Frame k k' → Fresh k b k')
      (fun e k' => LogStop e ∨ (e = .panic .ballocOutOfBlocks ∧
        (∀ c, c < k.sb.size → k.bitmap c = true) ∧
        k'.starved = (k.starved || k.dataFull))) k := ?_
  · exact wp_mono (wp_and (balloc_frame.wp k) hframed) (fun b k' h => h.2 h.1)
      (fun e k' h => h.2)
  unfold balloc
  rw [wp_bind, wp_get, wp_bind, wp_modify]
  cases hfree : firstFree k.bitmap k.sb.size 0 with
  | none =>
      have hall := firstFree_none hfree
      exact (wp_stop _).2 (.inr ⟨rfl, fun c hc => hall c (by omega) (by omega), rfl⟩)
  | some b =>
      obtain ⟨-, hlt, hbit, hbefore⟩ := firstFree_some hfree
      simp only [bzero, wp_bind, wp_modify]
      refine wp_mono (logWrite_spec _ _) ?_ fun e _ he => .inl he.1
      rintro _ k₁ rfl
      refine wp_mono (logWrite_spec _ _) ?_ fun e _ he => .inl he.1
      rintro _ k₂ rfl
      simp only [wp_pure]
      intro hframe
      refine
        { frame := hframe
          free := hbit
          lt := by omega
          first := fun c hc => hbefore c (by omega) hc
          bitmap := rfl
          zeroed := fun hb => ?_
          data := fun c hc hcb => ?_
          dinode := rfl
          icopy := rfl
          allocs := rfl
          starved := rfl }
      · rw [data_logged _ _ (by simpa using hb), State.setData_self]
      · rw [data_logged _ _ (by simpa using hc), State.setData_of_ne _ _ hcb]
        exact data_logged _ _ hc

/-- An allocation that was not starved yields a data block. -/
theorem Fresh.dataBlock {k k' : State} {b : Nat} (h : Fresh k b k') (ho : Owned k)
    (hs : k'.starved = false) : k.DataBlock b := by
  have hfull : k.dataFull = false := by
    rw [h.starved, Bool.or_eq_false_iff] at hs
    exact hs.2
  have hlo : k.sb.dataStart ≤ b := by
    by_contra hlt
    have := ho.marked b (by omega)
    rw [h.free] at this
    exact absurd this (by decide)
  refine ⟨hlo, ?_⟩
  by_contra hge
  unfold State.dataFull at hfull
  cases hff : firstFree k.bitmap (k.log.start - k.sb.dataStart) k.sb.dataStart with
  | none => simp [hff] at hfull
  | some c =>
      obtain ⟨-, hc, hbit, -⟩ := firstFree_some hff
      have := h.first c (by omega)
      rw [hbit] at this
      exact absurd this (by decide)

/-- A bitmap with every bit set has no free data block. -/
theorem dataFull_of_all {k : State} (ho : Owned k)
    (h : ∀ c, c < k.sb.size → k.bitmap c = true) : k.dataFull = true := by
  unfold State.dataFull
  cases hff : firstFree k.bitmap (k.log.start - k.sb.dataStart) k.sb.dataStart with
  | none => rfl
  | some c =>
      obtain ⟨hlo, hc, hbit, -⟩ := firstFree_some hff
      have hend := ho.log_end
      have := h c (by omega)
      rw [hbit] at this
      exact absurd this (by decide)

/-- `balloc` over an owned file system. -/
theorem balloc_owned {k : State} (ho : Owned k) :
    wp balloc (fun b k' => Fresh k b k') AllocStop k := by
  refine wp_mono (balloc_spec k) (fun _ _ h => h) ?_
  rintro e k' (h | ⟨h, hall, hs⟩) hfed
  · exact h
  · rw [hs, dataFull_of_all ho hall, Bool.or_true] at hfed
    exact absurd hfed (by decide)

/-- The block `balloc` returned is in no slot, and the table is as before. -/
theorem Fresh.ref_ne {k k' : State} {b : Nat} (h : Fresh k b k') (ho : Owned k)
    (hb : b ≠ 0) (x : Nat × Nat) : k.ref x ≠ b :=
  ho.excl.ne_of_not_used (by simp [h.free]) hb x

theorem Fresh.ino {k k' : State} {b : Nat} (h : Fresh k b k') (i : Nat) :
    k'.ino i = k.ino i := by
  simp [State.ino, h.frame.icache, h.icopy, h.dinode]

theorem Fresh.ref {k k' : State} {b : Nat} (h : Fresh k b k') (ho : Owned k) (hb : b ≠ 0) :
    k'.ref = k.ref :=
  ref_congr h.ino fun _ hi => h.data _ (ho.ref_lt hi) (h.ref_ne ho hb _)

theorem Superblock.dataStart_pos (sb : Superblock) : 0 < sb.dataStart := by
  simp only [Superblock.dataStart, IPB, BPB]
  omega

theorem Fresh.owned {k k' : State} {b : Nat} (h : Fresh k b k') (ho : Owned k)
    (hb : b ≠ 0) : Owned k' := by
  have href := h.ref ho hb
  refine ⟨?_, ?_, ?_, ?_, ?_⟩
  · rw [href]
    refine ho.excl.drop (fun _ => .inl rfl) fun x _ hx => ?_
    rw [h.bitmap]
    by_cases hxb : k.ref x = b
    · simp [hxb]
    · simpa [Function.update_of_ne hxb] using hx
  · intro x hx
    rw [href] at hx ⊢
    simpa [State.DataBlock, h.frame.sb, h.frame.start] using ho.region x hx
  · intro c hc
    rw [h.bitmap]
    by_cases hcb : c = b
    · simp [hcb]
    · rw [Function.update_of_ne hcb]
      exact ho.marked c (by rwa [h.frame.sb] at hc)
  · rw [h.frame.start, h.frame.size, h.frame.sb]
    exact ho.log_end
  · rw [h.frame.sb]
    exact ho.size_le

/-! ## `bmap` -/

/-- Empty slots of inode `ip` may have been filled, each with a block that was
free; ownership and everything else in the tables is kept. -/
structure Extends (ip : Nat) (k k' : State) : Prop where
  frame : Frame k k'
  owned : Owned k'
  dinode : k'.dinode = k.dinode
  others : ∀ j, j ≠ ip → k'.icopy j = k.icopy j
  fields : ∃ a, k'.icopy ip = { k.icopy ip with addrs := a }
  keep : ∀ x, k.ref x ≠ 0 → k'.ref x = k.ref x
  elsewhere : ∀ x, x.1 ≠ ip → k'.ref x = k.ref x
  bits : ∀ b, k.bitmap b = true → k'.bitmap b = true
  taken : ∀ b, k'.bitmap b = true → k.bitmap b = true ∨ b ≠ 0 ∧ ∃ x, k'.ref x = b

namespace Extends

theorem rfl {ip : Nat} {k : State} (h : Owned k) : Extends ip k k where
  frame := Frame.rfl k
  owned := h
  dinode := Eq.refl _
  others _ _ := Eq.refl _
  fields := ⟨(k.icopy ip).addrs, Eq.refl _⟩
  keep _ _ := Eq.refl _
  elsewhere _ _ := Eq.refl _
  bits _ := id
  taken _ := Or.inl

theorem trans {ip : Nat} {k₁ k₂ k₃ : State} (h : Extends ip k₁ k₂)
    (h' : Extends ip k₂ k₃) : Extends ip k₁ k₃ where
  frame := h.frame.trans h'.frame
  owned := h'.owned
  dinode := h'.dinode.trans h.dinode
  others j hj := (h'.others j hj).trans (h.others j hj)
  fields := by
    obtain ⟨a, ha⟩ := h.fields
    obtain ⟨a', ha'⟩ := h'.fields
    exact ⟨a', by rw [ha', ha]⟩
  keep x hx := by
    have h1 := h.keep x hx
    rw [h'.keep x (by rwa [h1]), h1]
  elsewhere x hx := (h'.elsewhere x hx).trans (h.elsewhere x hx)
  bits b hb := h'.bits b (h.bits b hb)
  taken b hb := by
    rcases h'.taken b hb with h2 | h2
    · rcases h.taken b h2 with h1 | ⟨h0, x, hx⟩
      · exact .inl h1
      · exact .inr ⟨h0, x, by rw [h'.keep x (by rwa [hx]), hx]⟩
    · exact .inr h2

/-- A slot in use stays in use. -/
theorem mapped {ip : Nat} {k k' : State} (h : Extends ip k k') {x : Nat × Nat}
    (hx : k.ref x ≠ 0) : k'.ref x ≠ 0 := by
  rwa [h.keep x hx]

end Extends

/-- What mapping blocks of inode `ip` does: the new blocks are zeroed, and no
block of a file's contents changes. -/
structure Grown (ip : Nat) (k k' : State) : Prop extends Extends ip k k' where
  blocks : ∀ x, x.2 ≠ NDIRECT → k.ref x ≠ 0 → k'.data (k.ref x) = k.data (k.ref x)
  zeroed : ∀ x, x.2 ≠ NDIRECT → k.ref x = 0 → k'.ref x ≠ 0 →
    k'.data (k'.ref x) = Block.zero

namespace Grown

theorem rfl {ip : Nat} {k : State} (h : Owned k) : Grown ip k k where
  toExtends := Extends.rfl h
  blocks _ _ _ := Eq.refl _
  zeroed _ _ h0 h1 := absurd h0 h1

theorem trans {ip : Nat} {k₁ k₂ k₃ : State} (h : Grown ip k₁ k₂) (h' : Grown ip k₂ k₃) :
    Grown ip k₁ k₃ where
  toExtends := h.toExtends.trans h'.toExtends
  blocks x hs hx := by
    have h1 := h.keep x hx
    have h2 := h'.blocks x hs (by rwa [h1])
    rw [h1] at h2
    rw [h2, h.blocks x hs hx]
  zeroed x hs hx hx' := by
    by_cases hmid : k₂.ref x = 0
    · exact h'.zeroed x hs hmid hx'
    · rw [h'.keep x hmid, h'.blocks x hs hmid]
      exact h.zeroed x hs hx hmid

end Grown

/-- Putting a fresh block into an empty slot of `ip`.  The hypotheses say how
the table and the contents of other blocks read after the store. -/
theorem Fresh.grown {ip s b : Nat} {k k₁ k' : State} (h : Fresh k b k₁) (ho : Owned k)
    (hs : k₁.starved = false) (hempty : k.ref (ip, s) = 0)
    (hframe : Frame k k') (hbm : k'.bitmap = k₁.bitmap) (hdin : k'.dinode = k.dinode)
    (hothers : ∀ j, j ≠ ip → k'.icopy j = k.icopy j)
    (hfields : ∃ a, k'.icopy ip = { k.icopy ip with addrs := a })
    (href : k'.ref = Function.update k.ref (ip, s) b)
    (hdata : ∀ x, x.2 ≠ NDIRECT → k.ref x ≠ 0 → k'.data (k.ref x) = k.data (k.ref x))
    (hzero : k'.data b = Block.zero) : Grown ip k k' := by
  have hblock := h.dataBlock ho hs
  have hb : b ≠ 0 := by
    have := k.sb.dataStart_pos
    have := hblock.1
    omega
  have hne : ∀ x, k.ref x ≠ 0 → x ≠ (ip, s) := fun x hx heq => hx (heq ▸ hempty)
  refine
    { frame := hframe
      owned := ?_
      dinode := hdin
      others := hothers
      fields := hfields
      keep := fun x hx => by rw [href, Function.update_of_ne (hne x hx)]
      elsewhere := fun x hx => by
        rw [href, Function.update_of_ne fun heq => hx (by rw [heq])]
      bits := ?_
      taken := ?_
      blocks := hdata
      zeroed := ?_ }
  · refine ⟨?_, ?_, ?_, ?_, ?_⟩
    · rw [href, hbm, h.bitmap]
      refine ho.excl.take (ip, s) (by simp [h.free]) hb (fun c hc => ?_) (by simp)
      by_cases hcb : c = b
      · simp [hcb]
      · simpa [Function.update_of_ne hcb] using hc
    · intro x hx
      rw [href] at hx ⊢
      simp only [State.DataBlock, hframe.sb, hframe.start]
      by_cases hxs : x = (ip, s)
      · rw [hxs, Function.update_self]
        exact hblock
      · rw [Function.update_of_ne hxs] at hx ⊢
        exact ho.region x hx
    · intro c hc
      rw [hbm, h.bitmap]
      by_cases hcb : c = b
      · simp [hcb]
      · rw [Function.update_of_ne hcb]
        exact ho.marked c (by rwa [hframe.sb] at hc)
    · rw [hframe.start, hframe.size, hframe.sb]
      exact ho.log_end
    · rw [hframe.sb]
      exact ho.size_le
  · intro c hc
    rw [hbm, h.bitmap]
    by_cases hcb : c = b
    · simp [hcb]
    · rwa [Function.update_of_ne hcb]
  · intro c hc
    rw [hbm, h.bitmap] at hc
    by_cases hcb : c = b
    · exact .inr ⟨hcb ▸ hb, (ip, s), by rw [href, Function.update_self, hcb]⟩
    · rw [Function.update_of_ne hcb] at hc
      exact .inl hc
  · intro x _ hx hx'
    rw [href] at hx' ⊢
    by_cases hxs : x = (ip, s)
    · rw [hxs, Function.update_self]
      exact hzero
    · rw [Function.update_of_ne hxs] at hx'
      exact absurd hx hx'

/-- The table after `ip->addrs[s] = b`, for a direct slot or, when the inode has
no indirect block yet, for a zeroed indirect block. -/
theorem ref_setAddr {k : State} {ip s b : Nat} (hv : (k.icache ip).valid = true)
    (hs : s ≤ NDIRECT)
    (hind : s = NDIRECT → k.ref (ip, NDIRECT) = 0 ∧ k.data b = Block.zero) :
    (k.setCopy ip { k.icopy ip with
      addrs := Function.update (k.icopy ip).addrs s b }).ref =
      Function.update k.ref (ip, s) b := by
  have hino : k.ino ip = k.icopy ip := by simp [State.ino, hv]
  funext ⟨i, t⟩
  by_cases hi : i = ip
  · subst hi
    have hino' : (k.setCopy i { k.icopy i with
        addrs := Function.update (k.icopy i).addrs s b }).ino i =
        { k.icopy i with addrs := Function.update (k.icopy i).addrs s b } := by
      simp [State.ino, State.setCopy, hv]
    by_cases hts : t = s
    · subst hts
      rw [Function.update_self, ref_of_le _ hs, hino']
      exact Function.update_self _ _ _
    · have hne : ((i, t) : Nat × Nat) ≠ (i, s) := fun heq => hts (Prod.ext_iff.1 heq).2
      rw [Function.update_of_ne hne]
      rcases Nat.lt_or_ge NDIRECT t with ht | ht
      · rcases Nat.eq_or_lt_of_le hs with rfl | hlt
        · -- a new indirect block: all its entries are zero, and there were none
          obtain ⟨h0, hz⟩ := hind rfl
          rw [ref_of_no_indirect k (Nat.le_of_lt ht) h0]
          simp only [State.ref, slotAddr, hino', Function.update_self]
          rw [if_neg (by omega)]
          split
          · simp only [State.setCopy, hz, Block.word_zero]
          · rfl
        · have hsame : Function.update (k.icopy i).addrs s b NDIRECT =
              (k.icopy i).addrs NDIRECT := Function.update_of_ne (by omega) _ _
          simp only [State.ref, slotAddr, hino', hino, hsame, State.setCopy_data]
          rw [if_neg (Nat.not_le.2 ht), if_neg (Nat.not_le.2 ht)]
      · rw [ref_of_le _ ht, ref_of_le _ ht, hino', hino]
        exact Function.update_of_ne hts _ _
  · have hne : ((i, t) : Nat × Nat) ≠ (ip, s) := fun heq => hi (Prod.ext_iff.1 heq).1
    rw [Function.update_of_ne hne]
    simp [State.ref, State.ino, State.setCopy, Function.update_of_ne hi]

/-- What a call of `bmap` returns: the block that now is in the slot. -/
structure Maps (ip s : Nat) (k : State) (b : Nat) (k' : State) : Prop where
  grown : Grown ip k k'
  block : b = k'.ref (ip, s)
  ne_zero : b ≠ 0
  same : k.ref (ip, s) ≠ 0 → k' = k

theorem bmapDirect_spec {k : State} {ip s : Nat} (ho : Owned k)
    (hv : (k.icache ip).valid = true) (hs : s ≤ NDIRECT) :
    wp (bmapDirect ip s) (fun b k' => k'.starved = false → Maps ip s k b k') AllocStop k := by
  have hino : k.ino ip = k.icopy ip := by simp [State.ino, hv]
  unfold bmapDirect
  rw [wp_bind, wp_get, wp_ite]
  constructor
  · intro h0
    rw [wp_bind]
    refine wp_imp (balloc_owned ho) fun b k₁ hfr => ?_
    simp only [setAddr, wp_bind, wp_modify, wp_pure]
    intro hst
    have hst₁ : k₁.starved = false := hst
    have hblock := hfr.dataBlock ho hst₁
    have hb : b ≠ 0 := by
      have := k.sb.dataStart_pos
      have := hblock.1
      omega
    have hempty : k.ref (ip, s) = 0 := by rw [ref_of_le k hs, hino, h0]
    have hz : k₁.data b = Block.zero := hfr.zeroed hblock.2
    have href₁ := hfr.ref ho hb
    have hv₁ : (k₁.icache ip).valid = true := by rw [hfr.frame.icache]; exact hv
    have href := ref_setAddr (b := b) hv₁ hs fun hs12 => by
      rw [href₁]
      exact ⟨hs12 ▸ hempty, hz⟩
    have hgrown := hfr.grown ho hst₁ hempty
      (hfr.frame.trans (frame_setCopy k₁ ip { k₁.icopy ip with
        addrs := Function.update (k₁.icopy ip).addrs s b })) rfl hfr.dinode
      (fun j hj => by simp [State.setCopy, Function.update_of_ne hj, hfr.icopy])
      ⟨Function.update (k₁.icopy ip).addrs s b, by simp [State.setCopy, hfr.icopy]⟩
      (by rw [href, href₁])
      (fun x _ hx => hfr.data _ (ho.ref_lt hx) (hfr.ref_ne ho hb x)) hz
    exact ⟨hgrown, by rw [href, Function.update_self], hb, fun h => absurd hempty h⟩
  · intro h0
    rw [wp_pure]
    intro _
    refine ⟨Grown.rfl ho, ?_, h0, fun _ => rfl⟩
    rw [ref_of_le k hs, hino]

/-- The table after `a[j] = b` in the indirect block of `ip`. -/
theorem ref_setWord {k : State} {ip j b : Nat} (ho : Owned k)
    (hind : k.ref (ip, NDIRECT) ≠ 0) (hj : j < NINDIRECT) (hb : b < UINT) :
    (k.setData (k.ref (ip, NDIRECT))
      ((k.data (k.ref (ip, NDIRECT))).setWord j b)).ref =
      Function.update k.ref (ip, 13 + j) b := by
  have hslots := slot_counts
  let k' := k.setData (k.ref (ip, NDIRECT)) ((k.data (k.ref (ip, NDIRECT))).setWord j b)
  have hlow : ∀ i t, t ≤ NDIRECT → k'.ref (i, t) = k.ref (i, t) := by
    intro i t ht
    rw [ref_of_le _ ht, ref_of_le _ ht]
    rfl
  funext ⟨i, t⟩
  show k'.ref (i, t) = _
  rcases Nat.lt_or_ge NDIRECT t with ht | ht
  · by_cases h0 : k.ref (i, NDIRECT) = 0
    · have hi : i ≠ ip := fun heq => hind (heq ▸ h0)
      have hne : ((i, t) : Nat × Nat) ≠ (ip, 13 + j) := fun heq => hi (Prod.ext_iff.1 heq).1
      rw [Function.update_of_ne hne, ref_of_no_indirect k (by omega) h0,
        ref_of_no_indirect k' (by omega) (by rw [hlow i _ (Nat.le_refl _), h0])]
    · rcases Nat.lt_or_ge t NSLOT with htn | htn
      · have h0' : k'.ref (i, NDIRECT) ≠ 0 := by rwa [hlow i _ (Nat.le_refl _)]
        rw [ref_of_gt k' ht htn h0', hlow i _ (Nat.le_refl _)]
        by_cases hi : i = ip
        · subst hi
          simp only [k', State.setData_self]
          by_cases htj : t = 13 + j
          · subst htj
            rw [Function.update_self, show 13 + j - 13 = j by omega,
              Block.word_setWord_self, Nat.mod_eq_of_lt hb]
          · have hne : ((i, t) : Nat × Nat) ≠ (i, 13 + j) := fun heq =>
              htj (Prod.ext_iff.1 heq).2
            rw [Function.update_of_ne hne, Block.word_setWord_of_ne _ _ (by omega),
              ref_of_gt k ht htn h0]
        · have hne : ((i, t) : Nat × Nat) ≠ (ip, 13 + j) := fun heq =>
            hi (Prod.ext_iff.1 heq).1
          have hdiff : k.ref (i, NDIRECT) ≠ k.ref (ip, NDIRECT) := fun heq =>
            hi (ho.inj h0 heq).1
          rw [State.setData_of_ne _ _ hdiff]
          rw [Function.update_of_ne hne, ref_of_gt k ht htn h0]
      · have hne : ((i, t) : Nat × Nat) ≠ (ip, 13 + j) := fun heq => by
          have := (Prod.ext_iff.1 heq).2
          simp only at this
          omega
        rw [Function.update_of_ne hne]
        simp only [State.ref, slotAddr]
        rw [if_neg (by omega), if_neg (by omega), if_neg (by omega), if_neg (by omega)]
  · have hne : ((i, t) : Nat × Nat) ≠ (ip, 13 + j) := fun heq => by
      have := (Prod.ext_iff.1 heq).2
      simp only at this
      omega
    rw [hlow i t ht, Function.update_of_ne hne]

theorem bmapEntry_spec {k : State} {ip j : Nat} (ho : Owned k)
    (hind : k.ref (ip, NDIRECT) ≠ 0) (hj : j < NINDIRECT) :
    wp (bmapEntry (k.ref (ip, NDIRECT)) j)
      (fun b k' => k'.starved = false → Maps ip (13 + j) k b k') AllocStop k := by
  have hslots := slot_counts
  have hword : k.ref (ip, 13 + j) = (k.data (k.ref (ip, NDIRECT))).word j := by
    rw [ref_of_gt k (by omega) (by omega) hind, show 13 + j - 13 = j by omega]
  unfold bmapEntry
  rw [wp_bind, wp_get, wp_ite]
  constructor
  · intro h0
    rw [wp_bind]
    refine wp_imp (balloc_owned ho) fun b k₁ hfr => ?_
    simp only [wp_bind, wp_modify, wp_pure]
    refine wp_mono (logWrite_spec _ _) ?_ fun e _ he _ => he.1
    rintro _ k₃ rfl hst
    have hst₁ : k₁.starved = false := hst
    have hblock := hfr.dataBlock ho hst₁
    have hb : b ≠ 0 := by
      have := k.sb.dataStart_pos
      have := hblock.1
      omega
    have href₁ := hfr.ref ho hb
    have ho₁ := hfr.owned ho hb
    have hlt : b < UINT := Nat.lt_of_lt_of_le hfr.lt ho.size_le
    have hne₁ := hfr.ref_ne ho hb (ip, NDIRECT)
    have hset := ref_setWord (b := b) ho₁ (by rwa [href₁]) hj hlt
    rw [href₁] at hset
    let k₂ := k₁.setData (k.ref (ip, NDIRECT))
      ((k₁.data (k.ref (ip, NDIRECT))).setWord j b)
    have hstart : k₂.log.start = k.log.start := hfr.frame.start
    have href₃ : (k₂.logged (k.ref (ip, NDIRECT))).ref =
        Function.update k.ref (ip, 13 + j) b := by
      rw [ref_logged, hset]
      intro i hi
      rw [hset, Function.update_of_ne (fun heq => by
        have := (Prod.ext_iff.1 heq).2
        simp only at this
        omega)] at hi ⊢
      rw [hstart]
      exact ho.ref_lt hi
    have hframe : Frame k (k₂.logged (k.ref (ip, NDIRECT))) :=
      (hfr.frame.trans (frame_setData k₁ _ _)).trans
        (frame_logged k₂ _)
    have hgrown : Grown ip k (k₂.logged (k.ref (ip, NDIRECT))) := by
      refine hfr.grown ho hst₁ (by rw [hword, h0]) hframe rfl hfr.dinode
        (fun i _ => by simp [k₂, hfr.icopy])
        ⟨(k.icopy ip).addrs, by simp [k₂, hfr.icopy]⟩ href₃ ?_ ?_
      · intro x hx12 hx
        have hxind : k.ref x ≠ k.ref (ip, NDIRECT) := fun heq =>
          hx12 (ho.inj hx heq).2
        rw [data_logged k₂ _ (by rw [hstart]; exact ho.ref_lt hx)]
        rw [State.setData_of_ne _ _ hxind]
        exact hfr.data _ (ho.ref_lt hx) (hfr.ref_ne ho hb x)
      · rw [data_logged k₂ _ (by rw [hstart]; exact hblock.2)]
        rw [State.setData_of_ne _ _ hne₁.symm]
        exact hfr.zeroed hblock.2
    exact ⟨hgrown, by rw [href₃, Function.update_self], hb, fun h => absurd (hword.trans h0) h⟩
  · intro h0
    rw [wp_pure]
    intro _
    exact ⟨Grown.rfl ho, hword.symm, h0, fun _ => rfl⟩

/-- **`bmap`.**  Over an owned file system, `bmap` of a locked inode returns the
block in the slot it was asked for, after filling at most that slot and the
indirect block's. -/
theorem bmap_spec {k : State} {ip bn : Nat} (ho : Owned k)
    (hv : (k.icache ip).valid = true) (hbn : bn < MAXFILE) :
    wp (bmap ip bn) (fun b k' => k'.starved = false → Maps ip (blockSlot bn) k b k')
      AllocStop k := by
  have hslots := slot_counts
  unfold bmap
  rw [wp_ite, wp_ite]
  refine ⟨fun hd => ?_, fun hd => ⟨fun _ => ?_, fun hbig => by omega⟩⟩
  · rw [blockSlot, if_pos hd]
    exact bmapDirect_spec ho hv (by omega)
  · refine wp_bind_fed (bmapDirect_spec ho hv (Nat.le_refl _))
      (fun ind => bmapEntry_frame ind _) ?_
    rintro _ k₁ ⟨hg, rfl, h0, hsame⟩
    refine wp_imp (bmapEntry_spec hg.owned h0 (j := bn - NDIRECT) (by omega)) ?_
    intro b k₂ hmap hst
    obtain ⟨hg₂, hb, hb0, hsame₂⟩ := hmap hst
    rw [show 13 + (bn - NDIRECT) = bn + 1 by omega] at hb hsame₂
    rw [blockSlot, if_neg hd]
    refine ⟨hg.trans hg₂, hb, hb0, fun hx => ?_⟩
    have hind : k.ref (ip, NDIRECT) ≠ 0 := fun h => hx (ref_of_no_indirect k (by omega) h)
    have hk₁ := hsame hind
    rw [hsame₂ (by rwa [hk₁]), hk₁]

end Xv6.Kernel
