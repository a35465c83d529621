import Xv6.Mkfs.Geometry

/-!
# The kernel on a new image

What `mount` makes of an image that stays within its geometry: a well-formed file system
whose inodes are the files of the plan, with no other block in use.
-/

namespace Xv6.Mkfs

open Xv6.Verified
open Xv6.Kernel

/-- The image of a plan that stays within the geometry. -/
structure Fresh (P : Plan) (g : Image) : Prop where
  built : Built P g
  marked : Marked g
  inodes : P.next ≤ ninodes
  blocks : P.free ≤ size - nlog

/-- An image with few arguments that end before the log. -/
theorem Writes.fresh {files : List Input} {g : Image} (h : Writes files g)
    (hfew : files.length ≤ 191) (hfits : blocksNeeded files ≤ size - nlog) :
    Fresh (plan files) g := by
  have hroom : 9 + files.length ≤ inodeSlots := by
    simp only [inodeSlots]
    omega
  obtain ⟨hb, hm⟩ := h.built hroom
  refine ⟨hb, hm, ?_, by rw [plan_free hroom]; exact hfits⟩
  rw [← hb.next, writes_count h]
  simp only [ninodes]
  omega

theorem readsb_blank : readsb blank.sector = superblock := rfl

section Mounted

variable {P : Plan} {g : Image}

/-- The state of the kernel on the image. -/
abbrev kernelOn (g : Image) : State := mount g.sector

theorem Fresh.readsb (h : Fresh P g) : Kernel.readsb g.sector = superblock := by
  rw [← readsb_blank]
  simp only [Kernel.readsb, h.built.boot 1 (by decide)]

theorem Fresh.sb (h : Fresh P g) : (kernelOn g).sb = superblock := h.readsb

/-- There is nothing to recover. -/
theorem Fresh.data (h : Fresh P g) {b : Nat} (hb : b ≠ size - nlog) :
    (kernelOn g).data b = g.sector b := by
  show recovered g.sector (Kernel.readsb g.sector) b = _
  rw [h.readsb]
  have hfree := h.built.free
  have hblocks := h.blocks
  have hclean := h.built.table.clean (size - nlog) (by omega)
  apply recovered_of_empty _ hb
  show headCount (g.sector (size - nlog)) = 0
  rw [hclean]
  rfl

theorem Fresh.dinode (h : Fresh P g) : (kernelOn g).dinode = inoOf g.sector := by
  funext i
  show (if i < (Kernel.readsb g.sector).ninodes then
    dinodeAt ((kernelOn g).data (iblock i)) (i % IPB) else Dinode.zero) = _
  rw [h.readsb]
  by_cases hi : i < superblock.ninodes
  · have hslot : i < inodeSlots := Nat.lt_trans hi (by decide)
    have hlow := i2b_lt hslot
    have hne : iblock i ≠ size - nlog := by
      show i2b i ≠ _
      simp only [size, nlog, LOGSIZE]
      omega
    rw [if_pos hi, h.data hne]
    exact inoOf_of_lt g.sector hslot
  · rw [if_neg hi]
    symm
    apply h.built.unused
    by_contra hc
    have := (h.built.alloc i).1 hc
    have := h.inodes
    exact hi (show i < ninodes by omega)

/-- No inode has been read yet. -/
theorem mount_invalid (disk : Nat → Block) (i : Nat) : ((mount disk).icache i).valid = false := by
  show (if i = ROOTINO then (⟨1, none, false⟩ : CacheEntry) else ⟨0, none, false⟩).valid = false
  split <;> rfl

theorem Fresh.ino (h : Fresh P g) : (kernelOn g).ino = inoOf g.sector := by
  funext i
  rw [← h.dinode]
  unfold State.ino
  rw [mount_invalid, if_neg (by decide)]

theorem Fresh.ref_lt (h : Fresh P g) {x : Nat × Nat}
    (hx : refOf g.sector (inoOf g.sector) x ≠ 0) :
    refOf g.sector (inoOf g.sector) x < size - nlog := by
  have := (h.built.table.range x hx).2
  have := h.built.free
  have := h.blocks
  omega

theorem Fresh.ref (h : Fresh P g) : (kernelOn g).ref = refOf g.sector (inoOf g.sector) := by
  funext x
  show refOf (kernelOn g).data (kernelOn g).ino x = _
  rw [h.ino]
  apply refOf_congr rfl
  intro hind
  apply h.data
  have hlt := h.ref_lt (x := (x.1, NDIRECT)) (by rw [refOf_of_le _ (Nat.le_refl _)]; exact hind)
  rw [refOf_of_le _ (Nat.le_refl _)] at hlt
  omega

/-- The bitmap marks the blocks in use. -/
theorem Fresh.bitmap (h : Fresh P g) {b : Nat} (hb : b < size) :
    (kernelOn g).bitmap b = decide (b < g.freeblock) := by
  have hdiv : b / BPB = 0 := by
    simp only [size, BPB] at *
    omega
  have hmod : b % BPB = b := by
    simp only [size, BPB] at *
    omega
  show bitAt ((kernelOn g).data ((Kernel.readsb g.sector).bblock b)) (b % BPB) = _
  have hblock : (Kernel.readsb g.sector).bblock b = superblock.bblock 0 := by
    rw [h.readsb]
    simp only [Superblock.bblock, hdiv, Nat.zero_div]
  rw [hblock, h.data (by decide), hmod]
  apply h.marked
  simp only [size, BSIZE] at *
  omega

/-- The blocks in use are the metadata and those the inodes refer to. -/
theorem Fresh.bitmap_exact (h : Fresh P g) {b : Nat} (hb : b < size) :
    (kernelOn g).bitmap b = true ↔
      b < (kernelOn g).sb.dataStart ∨ ∃ x, (kernelOn g).ref x ≠ 0 ∧ (kernelOn g).ref x = b := by
  have hlow := h.built.table.low
  have hmeta := metablocks_eq
  have hstart : (kernelOn g).sb.dataStart = 16 := by
    rw [h.sb]
    decide
  rw [h.bitmap hb, h.ref, hstart, decide_eq_true_iff]
  constructor
  · intro hlt
    by_cases hb16 : b < 16
    · exact .inl hb16
    · obtain ⟨x, hx⟩ := h.built.table.cover b (by omega) hlt
      exact .inr ⟨x, by omega, hx⟩
  · rintro (hlt | ⟨x, hx, rfl⟩)
    · omega
    · exact (h.built.table.range x hx).2

theorem Fresh.byteAt (h : Fresh P g) (i o : Nat) :
    (kernelOn g).byteAt i o = byteOf g.sector (inoOf g.sector i) o := by
  unfold State.byteAt
  rw [h.ref]
  show _ = if refOf g.sector (inoOf g.sector) (i, blockSlot (o / BSIZE)) = 0 then 0
    else g.sector (refOf g.sector (inoOf g.sector) (i, blockSlot (o / BSIZE))) (o % BSIZE)
  split
  · rfl
  · rename_i h0
    have := h.ref_lt h0
    rw [h.data (by omega)]

/-- The inode of a file, without its blocks. -/
def fileNode (x : InodeType × List UInt8) : Node :=
  ⟨x.1, 0, 0, 1, x.2.length, fun o => x.2.getD o 0⟩

/-- The inodes are the files of the plan. -/
theorem Fresh.node (h : Fresh P g) {i : Nat} {x : InodeType × List UInt8}
    (hx : P.node i = some x) : (kernelOn g).node i = fileNode x := by
  have hold := h.built.files i x hx
  have hino := hold.inode
  unfold State.node fileNode
  rw [h.dinode]
  rw [hino]
  simp only [Node.mk.injEq, true_and]
  funext o
  rw [h.byteAt]
  exact hold.bytes o

/-- The others are free. -/
theorem Fresh.free (h : Fresh P g) {i : Nat} (hi : P.node i = none) :
    (kernelOn g).dinode i = Dinode.zero := by
  rw [h.dinode]
  exact h.built.unused i hi

/-- **The file system is well formed.** -/
theorem Fresh.wf (h : Fresh P g) : Wf (kernelOn g) := by
  have hmeta := metablocks_eq
  have hstart : (kernelOn g).sb.dataStart = 16 := by
    rw [h.sb]
    decide
  have hlog : (kernelOn g).log.start = size - nlog := by
    show (Kernel.readsb g.sector).logStart = _
    rw [h.readsb]
    rfl
  have hused : ∀ i, ((kernelOn g).dinode i).type.HasData → ∃ x, P.node i = some x := by
    intro i ht
    apply Option.ne_none_iff_exists'.1
    intro hnone
    rw [h.free hnone] at ht
    rcases ht with ht | ht <;> cases ht
  refine ⟨⟨⟨?_, ?_⟩, ?_, ?_, ?_, ?_⟩, ?_, ?_, ?_, ?_⟩
  · rw [h.ref]
    exact h.built.table.inj
  · intro x hx
    have hlt : (kernelOn g).ref x < size := by
      rw [h.ref] at hx ⊢
      exact Nat.lt_of_lt_of_le (h.ref_lt hx) (by decide)
    exact (h.bitmap_exact hlt).2 (.inr ⟨x, hx, rfl⟩)
  · intro x hx
    show _ ≤ _ ∧ _ < (kernelOn g).log.start
    rw [h.ref] at hx ⊢
    rw [hstart, hlog]
    have := (h.built.table.range x hx).1
    exact ⟨by omega, h.ref_lt hx⟩
  · intro b hb
    exact (h.bitmap_exact (Nat.lt_trans hb (by rw [hstart]; decide))).2 (.inl hb)
  · show (Kernel.readsb g.sector).logStart + (Kernel.readsb g.sector).nlog =
      (Kernel.readsb g.sector).size
    rw [h.readsb]
    rfl
  · rw [h.sb]
    decide
  · intro i hv
    rw [mount_invalid] at hv
    cases hv
  · intro i hv
    rw [mount_invalid] at hv
    cases hv
  · intro i ht
    obtain ⟨x, hx⟩ := hused i ht
    have hnode := h.node hx
    rw [show ((kernelOn g).dinode i).size = ((kernelOn g).node i).size from rfl, hnode]
    exact (h.built.files i x hx).fits
  · intro i ht o _ ho
    obtain ⟨x, hx⟩ := hused i ht
    have hold := h.built.files i x hx
    have hsize : ((kernelOn g).dinode i).size = x.2.length := by
      rw [show ((kernelOn g).dinode i).size = ((kernelOn g).node i).size from rfl, h.node hx]
      rfl
    rw [hsize] at ho
    have hfits := hold.fits
    rw [h.ref]
    apply (hold.sized.blocks (o / BSIZE) _).2
    · simp only [BSIZE] at *
      omega
    · simp only [MAXFILE, BSIZE] at *
      omega

end Mounted

end Xv6.Mkfs
