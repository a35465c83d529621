import Xv6.Mkfs.Main

/-!
# The regions of the image

The image has `ninodes` inodes in front of the bitmap and its log at the end.  `mkfs` checks
neither bound: it stops only at the end of the file.  Whether the image stays within its
regions is decided by the number and the sizes of the arguments.

## Main results

* `image_within_geometry`: the image is within its regions exactly if there are at most 191
  arguments and the blocks in use end before the log.
-/

namespace Xv6.Mkfs

open Xv6.Verified
open Xv6.Kernel
open Exec

/-- The inode numbers, the block numbers and the bitmap are within the regions of the
superblock. -/
structure WithinGeometry (g : Image) : Prop where
  addrs : ∀ i, 1 ≤ i → i < g.freeinode → ∀ s,
    slotAddr g.sector (dinodeAt (g.sector (i2b i)) (i % IPB)) s < size - nlog
  inums : ∀ i, 1 ≤ i → i < g.freeinode → i < ninodes
  inodes : ∀ i, 1 ≤ i → i < g.freeinode → 2 ≤ i2b i ∧ i2b i < superblock.bblock 0
  bitmap : Marked g

/-! ## Numbers handed out -/

section Count

/-- The next inode number is the same. -/
def SameCount (g g' : Image) : Prop := g'.freeinode = g.freeinode

instance : IsPreorder Image SameCount where
  refl _ := rfl
  trans _ _ _ h h' := h'.trans h

theorem rsect_count (sec : Nat) : Preserves SameCount (rsect sec) := by
  unfold rsect
  exact .bind .get fun _ => .ite (.pure _) (.stop _)

theorem wsect_count (sec : Nat) (buf : Block) : Preserves SameCount (wsect sec buf) :=
  .modify fun _ => rfl

theorem winode_count (inum : Nat) (d : Dinode) : Preserves SameCount (winode inum d) :=
  .bind (rsect_count _) fun _ => wsect_count _ _

theorem rinode_count (inum : Nat) : Preserves SameCount (rinode inum) :=
  .bind (rsect_count _) fun _ => .pure _

theorem assert_count (c : Prop) [Decidable c] : Preserves SameCount (assert c) :=
  .ite (.pure _) (.stop _)

theorem takeBlock_count : Preserves SameCount takeBlock :=
  .bind .get fun _ => .bind (.modify fun _ => rfl) fun _ => .pure _

theorem fillAddr_count (d : Dinode) (s : Nat) : Preserves SameCount (fillAddr d s) :=
  .ite (.bind takeBlock_count fun _ => .pure _) (.pure _)

theorem blockFor_count (d : Dinode) (fbn : Nat) : Preserves SameCount (blockFor d fbn) := by
  unfold blockFor
  apply Preserves.ite
  · exact .bind (fillAddr_count _ _) fun _ => .pure _
  · apply Preserves.bind (fillAddr_count _ _)
    intro d
    apply Preserves.bind (rsect_count _)
    intro indirect
    apply Preserves.ite
    · exact .bind takeBlock_count fun _ => .bind (wsect_count _ _) fun _ => .pure _
    · exact .pure _

theorem appendLoop_count (fuel : Nat) (d : Dinode) (p : Nat → UInt8) (off n : Nat) :
    Preserves SameCount (appendLoop fuel d p off n) := by
  induction fuel generalizing d p off n with
  | zero => exact .pure _
  | succ fuel ih =>
      rw [appendLoop]
      apply Preserves.ite (.pure _)
      apply Preserves.bind (assert_count _)
      intro _
      apply Preserves.bind (blockFor_count _ _)
      rintro ⟨d, x⟩
      apply Preserves.bind (rsect_count _)
      intro buf
      exact .bind (wsect_count _ _) fun _ => ih _ _ _ _

theorem iappend_count (inum : Nat) (xs : List UInt8) : Preserves SameCount (iappend inum xs) :=
  .bind (rinode_count _) fun _ => .bind (appendLoop_count _ _ _ _ _) fun _ => winode_count _ _

theorem copyFile_count (inum fuel : Nat) (bytes : List UInt8) :
    Preserves SameCount (copyFile inum fuel bytes) := by
  induction fuel generalizing bytes with
  | zero => exact .pure _
  | succ fuel ih =>
      rw [copyFile]
      exact .ite (.pure _) (.bind (iappend_count _ _) fun _ => ih _)

theorem roundRoot_count : Preserves SameCount roundRoot :=
  .bind (rinode_count _) fun _ => winode_count _ _

theorem balloc_count (used : Nat) : Preserves SameCount (balloc used) :=
  .bind (assert_count _) fun _ => wsect_count _ _

theorem ialloc_count (t : InodeType) (g : Image) :
    wp (ialloc t) (fun _ g' => g'.freeinode = g.freeinode + 1) (fun _ _ => True) g := by
  unfold ialloc
  rw [wp_bind, wp_get, wp_bind, wp_modify, wp_bind]
  refine wp_mono ((winode_count _ _).wp _) ?_ fun _ _ _ => trivial
  intro _ g' h
  exact (wp_pure _).2 h

theorem addFile_count (dirs : Nat × Nat × Nat) (f : Input) (g : Image) :
    wp (addFile dirs f) (fun _ g' => g'.freeinode = g.freeinode + 1) (fun _ _ => True) g := by
  unfold addFile
  show wp (assert _ >>= _) _ _ g
  rw [wp_bind]
  refine wp_mono ((assert_count _).wp g) ?_ fun _ _ _ => trivial
  intro _ g₁ h₁
  rw [wp_bind]
  refine wp_mono (ialloc_count _ g₁) ?_ fun _ _ _ => trivial
  intro inum g₂ h₂
  refine wp_mono ((Preserves.bind (iappend_count _ _) fun _ => copyFile_count _ _ _).wp g₂) ?_
    fun _ _ _ => trivial
  intro _ g₃ h₃
  exact h₃.trans (h₂.trans (congrArg (· + 1) h₁))

theorem addFiles_count (dirs : Nat × Nat × Nat) (fs : List Input) (g : Image) :
    wp (addFiles dirs fs) (fun _ g' => g'.freeinode = g.freeinode + fs.length)
      (fun _ _ => True) g := by
  induction fs generalizing g with
  | nil => exact (wp_pure _).2 rfl
  | cons f fs ih =>
      rw [addFiles, wp_bind]
      refine wp_mono (addFile_count dirs f g) ?_ fun _ _ _ => trivial
      intro _ g₁ h₁
      refine wp_mono (ih g₁) ?_ fun _ _ _ => trivial
      intro _ g₂ h₂
      rw [h₂, h₁, List.length_cons]
      omega

/-- Every argument takes an inode number, and eight directories do. -/
theorem writes_count {files : List Input} {g : Image} (h : Writes files g) :
    g.freeinode = 9 + files.length := by
  have hwp : wp (main files) (fun _ g => g.freeinode = 9 + files.length) (fun _ _ => True)
      blank := by
    unfold main
    rw [wp_bind]
    apply makeDirs_wp
    intro g₁ h₁
    rw [wp_bind]
    refine wp_mono (addFiles_count _ files g₁) ?_ fun _ _ _ => trivial
    intro _ g₂ h₂
    refine wp_mono ((Preserves.bind roundRoot_count fun _ => .bind .get fun _ =>
      balloc_count _).wp g₂) ?_ fun _ _ _ => trivial
    intro _ g₃ h₃
    rw [h₃, h₂, h₁.next]
    rfl
  exact ok_of_wp hwp h

end Count

/-! ## The regions -/

section Regions

variable {files : List Input} {g : Image}

/-- With few arguments the image is that of the plan. -/
theorem Writes.built (h : Writes files g) (hfew : 9 + files.length ≤ inodeSlots) :
    Built (plan files) g ∧ Marked g := ok_of_wp (main_wp hfew) h

theorem inoOf_of_lt (sec : Nat → Block) {i : Nat} (h : i < inodeSlots) :
    dinodeAt (sec (i2b i)) (i % IPB) = inoOf sec i := (if_pos h).symm

/-- A slot in use belongs to an inode that has been handed out. -/
theorem BuiltOn.handed_out {P : Plan} (h : Built P g) {x : Nat × Nat}
    (hx : refOf g.sector (inoOf g.sector) x ≠ 0) : 1 ≤ x.1 ∧ x.1 < g.freeinode := by
  rw [h.next, ← h.alloc]
  intro hnone
  apply hx
  have hzero := h.unused x.1 hnone
  by_cases hs : x.2 ≤ NDIRECT
  · rw [show x = (x.1, x.2) from rfl, refOf_of_le _ hs, hzero]
    rfl
  · exact refOf_of_no_indirect (by omega) (by rw [hzero]; rfl)

/-- **The regions of the image.**  An image that `mkfs` writes is within its geometry exactly
if the arguments leave the inodes and the data blocks enough room. -/
theorem image_within_geometry (h : Writes files g) :
    WithinGeometry g ↔ files.length ≤ 191 ∧ blocksNeeded files ≤ size - nlog := by
  have hcount := writes_count h
  constructor
  · intro hin
    have hfew : files.length ≤ 191 := by
      by_contra hmany
      have := hin.inums ninodes (by decide) (by simp only [ninodes]; omega)
      omega
    have hroom : 9 + files.length ≤ inodeSlots := by
      simp only [inodeSlots]
      omega
    obtain ⟨hb, -⟩ := h.built hroom
    refine ⟨hfew, ?_⟩
    by_contra hmany
    -- the first block of the log is in use: some slot has its number
    have hfree : g.freeblock = blocksNeeded files := hb.free.trans (plan_free hroom)
    obtain ⟨x, hx⟩ := hb.table.cover (size - nlog) (by decide) (by omega)
    obtain ⟨hlow, hhigh⟩ := hb.handed_out (x := x) (by rw [hx]; decide)
    have := hin.addrs x.1 hlow hhigh x.2
    rw [inoOf_of_lt _ (by simp only [inodeSlots]; omega)] at this
    rw [refOf] at hx
    omega
  · rintro ⟨hfew, hfits⟩
    have hroom : 9 + files.length ≤ inodeSlots := by
      simp only [inodeSlots]
      omega
    obtain ⟨hb, hm⟩ := h.built hroom
    have hfree : g.freeblock = blocksNeeded files := hb.free.trans (plan_free hroom)
    refine ⟨?_, ?_, ?_, hm⟩
    · intro i _ hi s
      rw [inoOf_of_lt _ (by simp only [inodeSlots]; omega)]
      by_cases h0 : refOf g.sector (inoOf g.sector) (i, s) = 0
      · show refOf g.sector (inoOf g.sector) (i, s) < _
        rw [h0]
        decide
      · have := (hb.table.range _ h0).2
        show refOf g.sector (inoOf g.sector) (i, s) < _
        omega
    · intro i _ hi
      simp only [ninodes]
      omega
    · intro i _ hi
      exact i2b_lt (by simp only [inodeSlots]; omega)

/-- A plan that fits is written. -/
theorem exists_writes (hroom : 9 + files.length ≤ inodeSlots)
    (hslash : ∀ f, f ∈ files → ¬HasSlash f) (hsmall : (Plan.dirs.addFiles files).Small) :
    ∃ g, Writes files g := by
  have hwp := main_wp hroom
  cases hrun : (main files).run blank with
  | ok u g => exact ⟨g, hrun⟩
  | fail e g =>
      rcases fail_of_wp hwp hrun with ⟨f, hf, hc⟩ | hc
      · exact absurd hc (hslash f hf)
      · exact absurd hsmall hc

/-- The files "a", of three blocks, and "b", which is empty. -/
def twoFiles : List Input := [⟨[97], List.replicate 3000 120⟩, ⟨[98], []⟩]

/-- With these the image is within its geometry. -/
theorem image_within_geometry_two_files :
    ∃ g, Writes twoFiles g ∧ WithinGeometry g := by
  have hslash : ∀ f, f ∈ twoFiles → ¬HasSlash f := by
    unfold HasSlash
    decide +kernel
  have hfits : ∀ f, f ∈ twoFiles → f.bytes.length ≤ MAXFILE * BSIZE := by decide +kernel
  obtain ⟨g, hg⟩ := exists_writes (by decide) hslash
    (addFiles_small (by decide) hfits (by decide +kernel))
  exact ⟨g, hg, (image_within_geometry hg).2 (by decide +kernel)⟩

/-- Empty files "aa", "ab" and so on. -/
def emptyFiles (n : Nat) : List Input :=
  (List.range n).map fun i => ⟨[97 + UInt8.ofNat (i / 16), 97 + UInt8.ofNat (i % 16)], []⟩

/-- With 192 empty files, inode 200 is handed out, which `ninodes` does not allow. -/
theorem many_files_overrun :
    ∃ g, Writes (emptyFiles 192) g ∧ ¬WithinGeometry g := by
  have hroom : 9 + (emptyFiles 192).length ≤ inodeSlots := by decide +kernel
  have hslash : ∀ f, f ∈ emptyFiles 192 → ¬HasSlash f := by
    unfold HasSlash
    decide +kernel
  have hempty : ∀ f, f ∈ emptyFiles 192 → f.bytes.length ≤ MAXFILE * BSIZE := by decide +kernel
  obtain ⟨g, hg⟩ := exists_writes hroom hslash (addFiles_small hroom hempty (by decide +kernel))
  refine ⟨g, hg, fun hin => ?_⟩
  have hcount := writes_count hg
  have hlarge := hin.inums 200 (by decide) (by rw [hcount]; decide +kernel)
  exact absurd hlarge (by decide)

end Regions

end Xv6.Mkfs
