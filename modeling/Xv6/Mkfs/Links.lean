import Xv6.Mkfs.Decode

/-!
# Link counts of the image

The kernel counts a directory's links as `create` and `sys_unlink` do: one for its entry in
its parent and one for the ".." of each of its subdirectories.  `ialloc` of `mkfs` sets every
count to one and `adddir` never adds to its parent's, so directories with subdirectories
have too few links.

## Main results

* `image_links_disagree`: no image follows the kernel's convention.
-/

namespace Xv6.Mkfs

open Xv6.Verified
open Xv6.Kernel
open Exec

/-- Inode `i` of the image. -/
def imageInode (g : Image) (i : Nat) : Dinode := dinodeAt (g.sector (i2b i)) (i % IPB)

/-- The inode with the bytes of its blocks. -/
def imageNode (g : Image) (i : Nat) : Node :=
  { type := (imageInode g i).type
    major := (imageInode g i).major
    minor := (imageInode g i).minor
    nlink := (imageInode g i).nlink
    size := (imageInode g i).size
    byte := byteOf g.sector (imageInode g i) }

/-- The directories other than `d` whose ".." is `d`. -/
def subdirectories (g : Image) (d : Nat) : List Nat :=
  (List.range g.freeinode).filter fun s => s ≠ d ∧ (imageNode g s).entry dotdot = some d

/-- The entries that name inode `i`. -/
def entriesOf (g : Image) (i : Nat) : List (Nat × Nat) :=
  (List.range g.freeinode).flatMap fun d =>
    ((List.range (imageNode g d).slots).filter fun j =>
      (imageNode g d).type = .dir ∧ ((imageNode g d).slot j).map Prod.snd = some i).map fun j =>
        (d, j)

/-- The convention of `create` and `sys_unlink`. -/
structure LinksAgree (g : Image) : Prop where
  dirs : ∀ d, 1 ≤ d → d < g.freeinode → (imageNode g d).type = .dir →
    (imageNode g d).nlink = 1 + ((subdirectories g d).length : Int)
  files : ∀ i, 1 ≤ i → i < g.freeinode → (imageNode g i).type = .file →
    (imageNode g i).nlink = ((entriesOf g i).length : Int)

section Links

variable {P : Plan} {g : Image}

/-- The inodes of the image are the files of the plan. -/
theorem BuiltOn.imageNode (h : Built P g) {i : Nat} {x : InodeType × List UInt8}
    (hx : P.node i = some x) : imageNode g i = fileNode x := by
  have hlt := h.lt (i := i) (by simp [hx])
  have hold := h.files i x hx
  have hino := hold.inode
  unfold Mkfs.imageNode imageInode fileNode
  rw [inoOf_of_lt _ hlt, hino]
  simp only [Node.mk.injEq, true_and]
  funext o
  rw [← hold.bytes o, ← hino]

/-- "usr" has one link, and "usr/bin" is one of its subdirectories. -/
theorem usr_links {files : List Input} (h : Writes files g) (hfew : 9 + files.length ≤ inodeSlots) :
    (imageNode g 3).type = .dir ∧ (imageNode g 3).nlink = 1 ∧ 5 ∈ subdirectories g 3 := by
  obtain ⟨hb, -⟩ := h.built hfew
  have hcount := writes_count h
  have hdir : ∀ d, 1 ≤ d → d < 9 → imageNode g d =
      fileNode (.dir, encode (dirEntries files d) ++ List.replicate (padding d) 0) :=
    fun d hd hd' => hb.imageNode (plan_dir files hd hd')
  have hparent : (imageNode g 5).entry dotdot = some 3 := by
    rw [hdir 5 (by decide) (by decide)]
    show (fileNode (.dir, _)).names (cstr dotdot) = some 3
    rw [names_encode]
    · exact entryNamed_base files (by decide)
    · intro e he
      have := mem_dirEntries he
      simp only [inodeSlots] at hfew
      omega
  have hsub : 5 ∈ subdirectories g 3 := by
    apply List.mem_filter.2
    exact ⟨List.mem_range.2 (by omega), decide_eq_true ⟨by decide, hparent⟩⟩
  rw [hdir 3 (by decide) (by decide)]
  exact ⟨rfl, rfl, hsub⟩

/-- **Link counts.**  Whatever the arguments, the count of "usr" is too small. -/
theorem image_links_disagree {files : List Input} (h : Writes files g)
    (hfew : 9 + files.length ≤ inodeSlots) : ¬LinksAgree g := by
  obtain ⟨htype, hone, hsub⟩ := usr_links h hfew
  have hcount := writes_count h
  intro hagree
  have hlinks := hagree.dirs 3 (by decide) (by omega) htype
  have hpos := List.length_pos_of_mem hsub
  omega

/-- One argument, a program for /bin. -/
theorem image_links_disagree_one_file :
    ∃ g, Writes [⟨[108, 115], [1, 2, 3]⟩] g ∧ ¬LinksAgree g := by
  have hroom : 9 + [(⟨[108, 115], [1, 2, 3]⟩ : Input)].length ≤ inodeSlots := by decide
  have hslash : ∀ f, f ∈ [(⟨[108, 115], [1, 2, 3]⟩ : Input)] → ¬HasSlash f := by
    unfold HasSlash
    decide
  obtain ⟨g, hg⟩ := exists_writes hroom hslash (addFiles_small hroom (by decide) (by decide))
  exact ⟨g, hg, image_links_disagree hg hroom⟩

/-- The image without arguments: "usr" has one link and a subdirectory. -/
theorem usr_has_too_few_links :
    ∃ g, Writes [] g ∧ (imageNode g 3).nlink = 1 ∧ 0 < (subdirectories g 3).length ∧
      ¬LinksAgree g := by
  have hroom : 9 + ([] : List Input).length ≤ inodeSlots := by decide
  obtain ⟨g, hg⟩ := exists_writes hroom (fun f hf => by cases hf) Plan.dirs_small
  obtain ⟨htype, hone, hsub⟩ := usr_links hg (by decide)
  have hpos := List.length_pos_of_mem hsub
  have hcount := writes_count hg
  refine ⟨g, hg, hone, hpos, fun hagree => ?_⟩
  have hlinks := hagree.dirs 3 (by decide) (by rw [hcount]; decide) htype
  omega

end Links

end Xv6.Mkfs
