import Xv6.Mkfs.Files
import Xv6.Kernel.Directory

/-!
# The image `mkfs` writes

`plan` lists the files of the image: the eight directories and the arguments.  `main`
builds it, as long as the inodes fit in front of the bitmap, and marks the blocks in use.

## Main results

* `main_wp`: `main` builds the plan, and fails only if it does not fit.
* `plan_free`: how many blocks the plan takes, from the sizes of the arguments alone.
-/

namespace Xv6.Mkfs

open Xv6.Verified
open Xv6.Kernel
open Exec
open Finset

namespace Plan

/-- The plan of the blank image. -/
def empty : Plan := ⟨fun _ => none, 1⟩

/-- `adddir` in the plan. -/
def adddir (P : Plan) (name : List UInt8) (par : Nat) : Plan :=
  (((P.alloc .dir).append par (dirent P.next name)).append P.next (dirent P.next dot)).append P.next
    (dirent par dotdot)

/-- The root directory alone. -/
def root : Plan := ((empty.alloc .dir).append 1 (dirent 1 dot)).append 1 (dirent 1 dotdot)

/-- The directories of every image. -/
def dirs : Plan :=
  ((((((root.adddir [98, 105, 110] 1).adddir [117, 115, 114] 1).adddir [101, 116, 99] 1).adddir
    [98, 105, 110] 3).adddir [100, 101, 118] 1).adddir [115, 104, 97, 114, 101] 3).adddir
    [105, 99, 111, 110, 115] 7

/-- The directory an argument goes to. -/
def target (f : Input) : Nat := (place f.path (2, 4, 8)).2

/-- The name an argument gets. -/
def fileName (f : Input) : List UInt8 := (place f.path (2, 4, 8)).1

/-- `addFile` in the plan. -/
def addFile (P : Plan) (f : Input) : Plan :=
  ((P.alloc .file).append (target f) (dirent P.next (fileName f))).append P.next f.bytes

/-- The directories and the arguments. -/
def addFiles (P : Plan) (fs : List Input) : Plan := fs.foldl addFile P

/-- The root directory filled up with zeroes. -/
def roundRoot (P : Plan) : Plan :=
  P.append ROOTINO (List.replicate ((P.length ROOTINO / BSIZE + 1) * BSIZE - P.length ROOTINO) 0)

end Plan

/-- The files of the image. -/
def plan (files : List Input) : Plan := (Plan.dirs.addFiles files).roundRoot

/-! ## Appending in the plan -/

namespace Plan

section Node

variable {P : Plan} {i : Nat} {t : InodeType} {bs : List UInt8}

theorem node_append_self (h : P.node i = some (t, bs)) (xs : List UInt8) :
    (P.append i xs).node i = some (t, bs ++ xs) := by
  show Function.update P.node i _ i = _
  rw [Function.update_self, h]
  rfl

theorem node_append_of_ne (P : Plan) {i j : Nat} (xs : List UInt8) (h : j ≠ i) :
    (P.append i xs).node j = P.node j := Function.update_of_ne h _ _

theorem node_alloc_self (P : Plan) (t : InodeType) : (P.alloc t).node P.next = some (t, []) :=
  Function.update_self _ _ _

theorem node_alloc_of_ne (P : Plan) (t : InodeType) {j : Nat} (h : j ≠ P.next) :
    (P.alloc t).node j = P.node j := Function.update_of_ne h _ _

theorem append_nil (h : P.node i = some (t, bs)) : P.append i [] = P := by
  have hnode : (P.append i []).node = P.node := by
    show Function.update P.node i _ = P.node
    rw [h]
    simp only [Option.map_some, List.append_nil]
    rw [← h, Function.update_eq_self]
  unfold append at *
  rw [show P = ⟨P.node, P.next⟩ from rfl]
  simp only at *
  rw [hnode]

theorem append_append (P : Plan) (i : Nat) (xs ys : List UInt8) :
    (P.append i xs).append i ys = P.append i (xs ++ ys) := by
  unfold append
  simp only [Function.update_self, Function.update_idem]
  cases P.node i with
  | none => rfl
  | some x => simp

end Node

/-- The inodes of the plan are those handed out. -/
def Wf (P : Plan) : Prop := 1 ≤ P.next ∧ ∀ i, P.node i ≠ none ↔ 1 ≤ i ∧ i < P.next

section Wf

variable {P : Plan}

theorem Wf.fresh (h : P.Wf) : P.node P.next = none := by
  by_contra hc
  have := (h.2 P.next).1 hc
  omega

theorem Wf.alloc (h : P.Wf) (t : InodeType) : (P.alloc t).Wf := by
  have hfirst := h.1
  refine ⟨Nat.le_add_left _ _, fun i => ?_⟩
  show _ ↔ 1 ≤ i ∧ i < P.next + 1
  by_cases hi : i = P.next
  · subst hi
    rw [node_alloc_self]
    constructor
    · intro _
      omega
    · simp
  · rw [node_alloc_of_ne _ _ hi, h.2]
    omega

theorem Wf.append (h : P.Wf) (i : Nat) (xs : List UInt8) : (P.append i xs).Wf := by
  refine ⟨h.1, fun j => ?_⟩
  show _ ↔ 1 ≤ j ∧ j < P.next
  rw [← h.2]
  by_cases hj : j = i
  · subst hj
    show Function.update P.node j _ j ≠ none ↔ _
    rw [Function.update_self]
    cases P.node j <;> simp
  · rw [node_append_of_ne _ _ hj]

theorem Wf.adddir (h : P.Wf) (name : List UInt8) (par : Nat) : (P.adddir name par).Wf :=
  (((h.alloc _).append _ _).append _ _).append _ _

theorem Wf.addFile (h : P.Wf) (f : Input) : (P.addFile f).Wf :=
  ((h.alloc _).append _ _).append _ _

theorem Wf.le_adddir (h : P.Wf) (name : List UInt8) (par : Nat) : P.Le (P.adddir name par) :=
  ((le_alloc _ h.fresh).trans (le_append _ _ _)).trans ((le_append _ _ _).trans (le_append _ _ _))

theorem Wf.le_addFile (h : P.Wf) (f : Input) : P.Le (P.addFile f) :=
  ((le_alloc _ h.fresh).trans (le_append _ _ _)).trans (le_append _ _ _)

theorem Wf.addFiles (h : P.Wf) (fs : List Input) : (P.addFiles fs).Wf ∧ P.Le (P.addFiles fs) ∧
    (P.addFiles fs).next = P.next + fs.length := by
  induction fs generalizing P with
  | nil => exact ⟨h, fun _ => Nat.le_refl _, rfl⟩
  | cons f fs ih =>
      obtain ⟨hwf, hle, hnext⟩ := ih (h.addFile f)
      refine ⟨hwf, (h.le_addFile f).trans hle, ?_⟩
      show ((P.addFile f).addFiles fs).next = _
      rw [hnext, List.length_cons]
      show P.next + 1 + fs.length = _
      omega

theorem root_wf : root.Wf := by
  have hempty : empty.Wf := by
    refine ⟨Nat.le_refl _, fun i => ?_⟩
    show (none ≠ none) ↔ 1 ≤ i ∧ i < 1
    constructor
    · intro hc
      exact absurd rfl hc
    · omega
  exact ((hempty.alloc _).append _ _).append _ _

theorem dirs_wf : dirs.Wf :=
  ((((((root_wf.adddir _ _).adddir _ _).adddir _ _).adddir _ _).adddir _ _).adddir _ _).adddir _ _

/-- No directory is longer than the root directory. -/
theorem dirs_small : dirs.Small := by
  have hbelow : ∀ i, i < 9 → dirs.length i ≤ 96 := by decide +kernel
  have hfree : dirs.free = 24 := by decide +kernel
  refine ⟨fun i => ?_, by rw [hfree]; decide⟩
  by_cases hi : i < 9
  · exact Nat.le_trans (hbelow i hi) (by decide)
  · have hnone : dirs.node i = none := by
      by_contra hc
      have := (dirs_wf.2 i).1 hc
      exact hi this.2
    rw [length, hnone]
    exact Nat.zero_le _

end Wf

end Plan

section Steps

variable {P : Plan} {g : Image}

/-- The copying loop of `main`. -/
theorem copyFile_wp {inum : Nat} (fuel : Nat) : ∀ {P : Plan} {g : Image} {t : InodeType}
    {bs bytes : List UInt8}, bytes.length ≤ fuel → Built P g → P.node inum = some (t, bs) →
      wp (copyFile inum fuel bytes) (fun _ g' => Built (P.append inum bytes) g')
        (fun _ _ => ¬(P.append inum bytes).Small) g := by
  induction fuel with
  | zero =>
      intro P g t bs bytes hlen h hx
      obtain rfl := List.length_eq_zero_iff.1 (Nat.le_zero.1 hlen)
      rw [copyFile, wp_pure, Plan.append_nil hx]
      exact h
  | succ fuel ih =>
      intro P g t bs bytes hlen h hx
      rw [copyFile]
      by_cases hnil : bytes = []
      · subst hnil
        rw [if_pos rfl, wp_pure, Plan.append_nil hx]
        exact h
      · rw [if_neg hnil, wp_bind]
        have hpos : 0 < bytes.length := List.length_pos_iff.2 hnil
        have hall : (P.append inum (bytes.take BSIZE)).append inum (bytes.drop BSIZE) =
            P.append inum bytes := by
          rw [Plan.append_append, List.take_append_drop]
        apply iappend_wp h hx
        · intro g₁ h₁
          have hlast : (bytes.drop BSIZE).length ≤ fuel := by
            rw [List.length_drop]
            simp only [BSIZE]
            omega
          have hrest := ih hlast h₁ (Plan.node_append_self hx (bytes.take BSIZE))
          rw [hall] at hrest
          exact hrest
        · intro a g' hsmall hs
          rw [← hall] at hs
          exact hsmall ((Plan.le_append _ _ _).small hs)

theorem adddir_wp (h : Built P g) (hroom : P.next < inodeSlots) {par : Nat} {t : InodeType}
    {bs : List UInt8} (hpar : P.node par = some (t, bs)) (name : List UInt8)
    {Q : Nat → Image → Prop} {E : Abort → Image → Prop}
    (hQ : ∀ g', Built (P.adddir name par) g' → Q P.next g')
    (hE : ∀ a g', ¬(P.adddir name par).Small → E a g') : wp (adddir name par) Q E g := by
  have hne : par ≠ P.next := by
    rintro rfl
    rw [h.fresh] at hpar
    cases hpar
  unfold adddir
  rw [wp_bind]
  apply ialloc_wp h hroom
  intro g₁ h₁
  rw [wp_bind]
  have hpar₁ : (P.alloc .dir).node par = some (t, bs) := by
    rw [Plan.node_alloc_of_ne _ _ hne, hpar]
  apply iappend_wp h₁ hpar₁
  · intro g₂ h₂
    rw [wp_bind]
    have hself : ((P.alloc .dir).append par (dirent P.next name)).node P.next =
        some (.dir, []) := by
      rw [Plan.node_append_of_ne _ _ (Ne.symm hne), Plan.node_alloc_self]
    apply iappend_wp h₂ hself
    · intro g₃ h₃
      rw [wp_bind]
      apply iappend_wp h₃ (Plan.node_append_self hself _)
      · intro g₄ h₄
        exact (wp_pure _).2 (hQ g₄ h₄)
      · exact hE
    · exact fun a g' hs => hE a g' fun hall => hs ((Plan.le_append _ _ _).small hall)
  · exact fun a g' hs => hE a g' fun hall =>
      hs (((Plan.le_append _ _ _).trans (Plan.le_append _ _ _)).small hall)

theorem dinodeAt_zero (j : Nat) : dinodeAt Block.zero j = Dinode.zero := by
  simp [dinodeAt, Block.zero, Block.short, Block.word, toShort, Dinode.zero, InodeType.ofCode]

/-- The blank image. -/
theorem blank_built : Built Plan.empty blank := by
  have hmeta := metablocks_eq
  have hsec : ∀ b, b ≠ 1 → blank.sector b = Block.zero := fun b hb => if_neg hb
  have hino : ∀ i, inoOf blank.sector i = Dinode.zero := by
    intro i
    unfold inoOf
    split
    · rename_i hi
      rw [hsec _ (by have := i2b_lt hi; omega), dinodeAt_zero]
    · rfl
  have hrefs : ∀ x, refOf blank.sector (inoOf blank.sector) x = 0 := by
    intro x
    simp only [refOf, slotAddr, hino, Dinode.zero]
    split <;> simp
  refine ⟨⟨?_, ?_, ?_, ?_, Nat.le_refl _⟩, ?_, fun i _ => hino i, ?_, rfl, Nat.le_refl _, by decide,
    ?_, by decide, rfl, fun _ _ => rfl⟩
  · intro x y hx
    exact absurd (hrefs x) hx
  · intro x hx
    exact absurd (hrefs x) hx
  · intro b hb hlt
    exact absurd hlt (Nat.not_lt.2 hb)
  · intro b hb
    exact hsec b (by simp only [blank] at hb; omega)
  · intro i x hx
    cases hx
  · intro i
    show (none ≠ none) ↔ 1 ≤ i ∧ i < 1
    constructor
    · intro hc
      exact absurd rfl hc
    · omega
  · have hnone : ∀ i, need (Plan.empty.length i) = 0 := by
      intro i
      show need 0 = 0
      decide
    unfold Plan.free
    simp only [hnone, sum_const_zero]
    rfl

/-- The eight directories. -/
theorem makeDirs_wp {Q : Nat × Nat × Nat → Image → Prop} {E : Abort → Image → Prop}
    (hQ : ∀ g, Built Plan.dirs g → Q (2, 4, 8) g) : wp makeDirs Q E blank := by
  have w₀ := Plan.root_wf
  have w₁ := w₀.adddir [98, 105, 110] 1
  have w₂ := w₁.adddir [117, 115, 114] 1
  have w₃ := w₂.adddir [101, 116, 99] 1
  have w₄ := w₃.adddir [98, 105, 110] 3
  have w₅ := w₄.adddir [100, 101, 118] 1
  have w₆ := w₅.adddir [115, 104, 97, 114, 101] 3
  have s₇ := Plan.dirs_small
  have s₆ := (w₆.le_adddir [105, 99, 111, 110, 115] 7).small s₇
  have s₅ := (w₅.le_adddir _ _).small s₆
  have s₄ := (w₄.le_adddir _ _).small s₅
  have s₃ := (w₃.le_adddir _ _).small s₄
  have s₂ := (w₂.le_adddir _ _).small s₃
  have s₁ := (w₁.le_adddir _ _).small s₂
  have s₀ := (w₀.le_adddir _ _).small s₁
  unfold makeDirs
  rw [wp_bind]
  apply ialloc_wp blank_built (by decide)
  intro g₁ h₁
  rw [wp_bind]
  show wp (assert ((1 : Nat) = ROOTINO)) _ _ _
  unfold assert
  rw [if_pos rfl, wp_pure, wp_bind]
  apply iappend_wp h₁ (Plan.node_alloc_self _ _) (dirent 1 dot)
  · intro g₂ h₂
    rw [wp_bind]
    apply iappend_wp h₂ (Plan.node_append_self (Plan.node_alloc_self _ _) _) (dirent 1 dotdot)
    · intro g₃ h₃
      rw [wp_bind]
      apply adddir_wp (P := Plan.root) h₃ (by decide) (show Plan.root.node 1 = some _ from rfl)
      · intro g₄ h₄
        rw [wp_bind]
        apply adddir_wp h₄ (by decide) (show Plan.node _ 1 = some _ from rfl)
        · intro g₅ h₅
          rw [wp_bind]
          apply adddir_wp h₅ (by decide) (show Plan.node _ 1 = some _ from rfl)
          · intro g₆ h₆
            rw [wp_bind]
            apply adddir_wp h₆ (by decide) (show Plan.node _ 3 = some _ from rfl)
            · intro g₇ h₇
              rw [wp_bind]
              apply adddir_wp h₇ (by decide) (show Plan.node _ 1 = some _ from rfl)
              · intro g₈ h₈
                rw [wp_bind]
                apply adddir_wp h₈ (by decide) (show Plan.node _ 3 = some _ from rfl)
                · intro g₉ h₉
                  rw [wp_bind]
                  apply adddir_wp h₉ (by decide) (show Plan.node _ 7 = some _ from rfl)
                  · intro g' h'
                    exact (wp_pure _).2 (hQ g' h')
                  · exact fun _ _ hs => absurd s₇ hs
                · exact fun _ _ hs => absurd s₆ hs
              · exact fun _ _ hs => absurd s₅ hs
            · exact fun _ _ hs => absurd s₄ hs
          · exact fun _ _ hs => absurd s₃ hs
        · exact fun _ _ hs => absurd s₂ hs
      · exact fun _ _ hs => absurd s₁ hs
    · exact fun _ _ hs => absurd s₀ hs
  · exact fun _ _ hs => absurd ((Plan.le_append _ _ _).small s₀) hs

/-- The directory of an argument is one of three. -/
theorem target_mem (f : Input) : Plan.target f = 2 ∨ Plan.target f = 4 ∨ Plan.target f = 8 := by
  unfold Plan.target place
  simp only
  split
  · exact .inr (.inr rfl)
  · split
    · exact .inr (.inl rfl)
    · exact .inl rfl

/-- The name of an argument has a slash: `mkfs` stops there. -/
def HasSlash (f : Input) : Prop := Sys.slash ∈ Plan.fileName f

theorem addFile_wp (h : Built P g) (hwf : P.Wf) (hnext : 9 ≤ P.next) (hroom : P.next < inodeSlots)
    (f : Input) {Q : Unit → Image → Prop} {E : Abort → Image → Prop}
    (hQ : ∀ g', ¬HasSlash f → Built (P.addFile f) g' → Q () g')
    (hE : ∀ a g', HasSlash f ∨ ¬(P.addFile f).Small → E a g') : wp (addFile (2, 4, 8) f) Q E g := by
  have hmem := target_mem f
  obtain ⟨x, hx⟩ : ∃ x, P.node (Plan.target f) = some x := by
    apply Option.ne_none_iff_exists'.1
    rw [hwf.2]
    omega
  obtain ⟨t, bs⟩ := x
  have hne : Plan.target f ≠ P.next := by omega
  unfold addFile
  show wp (assert (Sys.slash ∉ Plan.fileName f) >>= _) Q E g
  rw [wp_bind]
  unfold assert
  rw [wp_ite]
  refine ⟨fun hslash => ?_, fun hslash => (wp_stop _).2 (hE _ _ (.inl (not_not.1 hslash)))⟩
  rw [wp_pure, wp_bind]
  apply ialloc_wp h hroom
  intro g₁ h₁
  rw [wp_bind]
  have hx₁ : (P.alloc .file).node (Plan.target f) = some (t, bs) := by
    rw [Plan.node_alloc_of_ne _ _ hne, hx]
  apply iappend_wp h₁ hx₁ (dirent P.next (Plan.fileName f))
  · intro g₂ h₂
    have hself : ((P.alloc .file).append (Plan.target f)
        (dirent P.next (Plan.fileName f))).node P.next = some (.file, []) := by
      rw [Plan.node_append_of_ne _ _ (Ne.symm hne), Plan.node_alloc_self]
    refine wp_mono (copyFile_wp f.bytes.length (Nat.le_refl _) h₂ hself) ?_ ?_
    · exact fun _ g' hg' => hQ g' hslash hg'
    · exact fun a g' hs => hE a g' (.inr hs)
  · exact fun a g' hs => hE a g' (.inr fun hall => hs ((Plan.le_append _ _ _).small hall))

theorem addFiles_wp (fs : List Input) : ∀ {P : Plan} {g : Image}, Built P g → P.Wf → 9 ≤ P.next →
    P.next + fs.length ≤ inodeSlots →
      wp (addFiles (2, 4, 8) fs) (fun _ g' => Built (P.addFiles fs) g')
        (fun _ _ => (∃ f, f ∈ fs ∧ HasSlash f) ∨ ¬(P.addFiles fs).Small) g := by
  induction fs with
  | nil => exact fun h _ _ _ => (wp_pure _).2 h
  | cons f fs ih =>
      intro P g h hwf hnext hroom
      rw [List.length_cons] at hroom
      obtain ⟨-, hle, -⟩ := (hwf.addFile f).addFiles fs
      rw [addFiles, wp_bind]
      apply addFile_wp h hwf hnext (by omega)
      · intro g₁ _ h₁
        have hnext' : (P.addFile f).next = P.next + 1 := rfl
        refine wp_mono (ih h₁ (hwf.addFile f) (by omega) (by omega)) (fun _ _ hg => hg) ?_
        rintro a g' (⟨f', hf', hslash⟩ | hs)
        · exact .inl ⟨f', List.mem_cons_of_mem _ hf', hslash⟩
        · exact .inr hs
      · rintro a g' (hslash | hs)
        · exact .inl ⟨f, List.mem_cons_self, hslash⟩
        · exact .inr fun hall => hs (hle.small hall)

/-- The root directory gets no arguments. -/
theorem addFiles_root (fs : List Input) : ∀ {P : Plan}, 9 ≤ P.next →
    (P.addFiles fs).node ROOTINO = P.node ROOTINO := by
  induction fs with
  | nil => exact fun _ => rfl
  | cons f fs ih =>
      intro P hnext
      have hmem := target_mem f
      have hnext' : (P.addFile f).next = P.next + 1 := rfl
      show ((P.addFile f).addFiles fs).node ROOTINO = _
      rw [ih (by omega)]
      show (((P.alloc .file).append _ _).append P.next _).node ROOTINO = _
      rw [Plan.node_append_of_ne _ _ (by simp only [ROOTINO]; omega),
        Plan.node_append_of_ne _ _ (by simp only [ROOTINO]; omega),
        Plan.node_alloc_of_ne _ _ (by simp only [ROOTINO]; omega)]

/-- The rounding of the root directory's size takes no block: what is left of its last
block is zero. -/
theorem roundRoot_wp {t : InodeType} {bs : List UInt8} (h : Built P g)
    (hx : P.node ROOTINO = some (t, bs)) (hlen : bs.length % BSIZE ≠ 0)
    (hmax : bs.length < MAXFILE * BSIZE) {Q : Unit → Image → Prop} {E : Abort → Image → Prop}
    (hQ : ∀ g', Built P.roundRoot g' → Q () g') : wp roundRoot Q E g := by
  obtain ⟨m, hm⟩ : ∃ m, m = (bs.length / BSIZE + 1) * BSIZE := ⟨_, rfl⟩
  have hround : m = bs.length + (m - bs.length) ∧ need m = need bs.length ∧
      m ≤ MAXFILE * BSIZE ∧ ∀ b, b * BSIZE < bs.length ↔ b * BSIZE < m := by
    have hsame : need (bs.length - 1 + 1) = need m := by
      apply need_same
      · simp only [BSIZE] at *
        omega
      · simp only [BSIZE] at *
        omega
    rw [show bs.length - 1 + 1 = bs.length by simp only [BSIZE] at *; omega] at hsame
    refine ⟨?_, hsame.symm, ?_, fun b => ?_⟩ <;> simp only [BSIZE, MAXFILE] at * <;> omega
  obtain ⟨hadd, hneed, hfits, hblocks⟩ := hround
  have hroot : P.roundRoot = P.append ROOTINO (List.replicate (m - bs.length) 0) := by
    unfold Plan.roundRoot
    rw [show P.length ROOTINO = bs.length by simp [Plan.length, hx], ← hm]
  have hlt := h.lt (i := ROOTINO) (by simp [hx])
  have hold := h.files ROOTINO _ hx
  have hread : dinodeAt (g.sector (i2b ROOTINO)) (ROOTINO % IPB) = inoOf g.sector ROOTINO :=
    (if_pos hlt).symm
  have hsize : (inoOf g.sector ROOTINO).size = bs.length := by rw [hold.inode]
  obtain ⟨xs, hxs⟩ : ∃ xs, xs = List.replicate (m - bs.length) (0 : UInt8) := ⟨_, rfl⟩
  have hcount : xs.length = m - bs.length := by rw [hxs, List.length_replicate]
  rw [← hcount] at hadd
  have he : Extended ROOTINO bs.length xs.length (fun o => xs.getD o 0) (inoOf g.sector) g
      (inoOf g.sector ROOTINO) g := by
    have hsame : Function.update (inoOf g.sector) ROOTINO (inoOf g.sector ROOTINO) =
        inoOf g.sector := Function.update_eq_self _ _
    refine ⟨?_, ?_, ?_, fun _ _ _ => rfl, ?_, fun _ _ => rfl, rfl, fun _ _ => rfl, ?_, h.used, rfl,
      h.full, fun _ => by omega⟩
    · rw [hsame]
      exact h.table
    · rw [hsame, ← hadd]
      refine ⟨fun b hb => ?_, ?_⟩
      · rw [hold.sized.blocks b hb, hblocks]
      · rw [hold.sized.indirect, hblocks]
    · rw [hsame]
      exact fun _ _ _ => rfl
    · intro o
      split
      · rename_i hin
        rw [hold.bytes, hxs]
        simp [List.getElem?_eq_none hin.1, List.getElem?_replicate]
        split <;> rfl
      · rfl
    · rw [← hadd, hneed]
  have hbuilt := Extended.built h hx he
  unfold roundRoot rinode
  rw [wp_bind, wp_bind]
  apply wp_rsect
  · intro _
    rw [wp_pure, hread, hsize, ← hm]
    rw [← hadd, hxs, ← hroot] at hbuilt
    apply BuiltOn.winode hbuilt (x := (t, bs ++ List.replicate (m - bs.length) 0)) _ hQ
    rw [hroot]
    exact Plan.node_append_self hx _
  · intro hc
    exact absurd hc (by decide)

/-! ## The bitmap -/

/-- `balloc` marks the blocks in use. -/
theorem bitAt_bits (used j : Nat) : bitAt (bits used) j = decide (j < used) := by
  induction used with
  | zero => simp [bits, bitAt, Block.zero]
  | succ used ih =>
      rw [bits, bitAt_setBit, ih]
      by_cases h : used = j
      · simp [h]
      · simp only [h, decide_false, Bool.false_or, decide_eq_decide]
        omega

/-- The bitmap marks the blocks in use. -/
def Marked (g : Image) : Prop :=
  ∀ j, j < BSIZE * 8 → bitAt (g.sector (superblock.bblock 0)) j = decide (j < g.freeblock)

theorem balloc_wp (h : Built P g) {Q : Unit → Image → Prop} {E : Abort → Image → Prop}
    (hQ : ∀ g', Built P g' → Marked g' → Q () g') : wp (balloc g.usedblocks) Q E g := by
  have hused := h.used
  have hfull := h.full
  have hmeta := metablocks_eq
  unfold balloc
  rw [wp_bind]
  unfold assert
  rw [wp_ite]
  constructor
  · intro _
    rw [wp_pure]
    obtain ⟨sec, hsec⟩ : ∃ sec, sec = Function.update g.sector 15 (bits g.usedblocks) := ⟨_, rfl⟩
    have hother : ∀ b, b ≠ 15 → sec b = g.sector b := by
      intro b hb
      rw [hsec, Function.update_of_ne hb]
    have hino : inoOf sec = inoOf g.sector := by
      funext i
      unfold inoOf
      split
      · rename_i hi
        rw [hother _ (by have := i2b_lt hi; omega)]
      · rfl
    obtain ⟨hrefs, htable, hbytes⟩ := h.table.above fun b hb => hother b (by omega)
    unfold wsect
    rw [wp_modify, show ninodes / IPB + 3 = 15 by decide, ← hsec]
    apply hQ
    · show BuiltOn P (inoOf sec) _
      rw [hino]
      refine ⟨htable, ?_, h.unused, h.alloc, h.next, h.first, h.room, h.free, h.full, h.used, ?_⟩
      · intro i x hx
        have hold := h.files i x hx
        refine ⟨hold.inode, hold.slots, ?_, ?_, hold.fits⟩
        · show Sized (refOf sec (inoOf g.sector)) _ _
          rw [hrefs]
          exact hold.sized
        · intro o
          exact (hbytes i o).trans (hold.bytes o)
      · intro b hb
        exact (hother b (by omega)).trans (h.boot b hb)
    · intro j _
      show bitAt (sec 15) j = _
      rw [hsec, Function.update_self, bitAt_bits, hused]
  · intro hc
    simp only [size] at hfull
    omega

/-- **`main`.**  As long as the inodes fit in front of the bitmap, the image is that of the
plan, and only a name with a slash or a plan that does not fit makes `mkfs` stop. -/
theorem main_wp {files : List Input} (hroom : 9 + files.length ≤ inodeSlots) :
    wp (main files) (fun _ g => Built (plan files) g ∧ Marked g)
      (fun _ _ => (∃ f, f ∈ files ∧ HasSlash f) ∨ ¬(Plan.dirs.addFiles files).Small) blank := by
  unfold main
  rw [wp_bind]
  apply makeDirs_wp
  intro g h
  rw [wp_bind]
  refine wp_mono (addFiles_wp files h Plan.dirs_wf (Nat.le_refl _) hroom) ?_ (fun _ _ he => he)
  intro _ g₁ h₁
  rw [wp_bind]
  have hroot : (Plan.dirs.addFiles files).node ROOTINO = Plan.dirs.node ROOTINO :=
    addFiles_root files (Nat.le_refl _)
  obtain ⟨bs, hx, hlen⟩ : ∃ bs, Plan.dirs.node ROOTINO = some (.dir, bs) ∧ bs.length = 96 :=
    ⟨_, rfl, rfl⟩
  apply roundRoot_wp h₁ (hroot.trans hx)
  · rw [hlen]
    decide
  · rw [hlen]
    decide
  · intro g₂ h₂
    rw [wp_bind, wp_get]
    exact balloc_wp h₂ fun g' hb hm => ⟨hb, hm⟩

/-! ## How many blocks the image takes -/

namespace Plan

/-- How many of the arguments go to directory `d`. -/
def countIn (d : Nat) (files : List Input) : Nat := (files.filter fun f => target f = d).length

/-- The blocks of the arguments. -/
def bytesNeeded (files : List Input) : Nat := (files.map fun f => need f.bytes.length).sum

theorem Wf.free_addFile {P : Plan} (h : P.Wf) (hnext : 9 ≤ P.next) (hroom : P.next < inodeSlots)
    (f : Input) : (P.addFile f).free + need (P.length (target f)) =
      P.free + need (P.length (target f) + DIRENT) + need f.bytes.length := by
  have hmem := target_mem f
  have hne : target f ≠ P.next := by omega
  have hsome : (P.alloc .file).node (target f) ≠ none := by
    rw [node_alloc_of_ne _ _ hne, h.2]
    omega
  obtain ⟨x, hx⟩ := Option.ne_none_iff_exists'.1 hsome
  have hsame : (P.alloc .file).length (target f) = P.length (target f) := by
    rw [length, length, node_alloc_of_ne _ _ hne]
  have hdir := free_append hx (by simp only [inodeSlots]; omega) (dirent P.next (fileName f))
  rw [hsame, length_dirent, free_alloc _ h.fresh] at hdir
  have hself : ((P.alloc .file).append (target f) (dirent P.next (fileName f))).node P.next =
      some (.file, []) := by
    rw [node_append_of_ne _ _ (Ne.symm hne), node_alloc_self]
  have hzero : ((P.alloc .file).append (target f) (dirent P.next (fileName f))).length P.next =
      0 := by
    rw [length, hself]
    rfl
  have hfile := free_append hself hroom f.bytes
  rw [hzero, Nat.zero_add, show need 0 = 0 by decide] at hfile
  show (((P.alloc .file).append (target f) (dirent P.next (fileName f))).append P.next
    f.bytes).free + _ = _
  omega

/-- An argument adds an entry to its directory. -/
theorem Wf.length_addFile {P : Plan} (h : P.Wf) {d : Nat} (hd : 1 ≤ d) (hd' : d < P.next)
    (f : Input) : (P.addFile f).length d = P.length d + if target f = d then DIRENT else 0 := by
  have hne : d ≠ P.next := by omega
  have hsame : (P.alloc .file).node d = P.node d := node_alloc_of_ne _ _ hne
  show (((P.alloc .file).append (target f) (dirent P.next (fileName f))).append P.next
    f.bytes).length d = _
  rw [length_append_of_ne _ _ hne]
  split
  · rename_i htarget
    subst htarget
    obtain ⟨x, hx⟩ := Option.ne_none_iff_exists'.1 ((h.2 _).2 ⟨hd, hd'⟩)
    rw [length_append_self (hsame.trans hx), length_dirent, length, hsame]
    rfl
  · rename_i htarget
    rw [length_append_of_ne _ _ (Ne.symm htarget), length, hsame]
    rfl

/-- A directory is as long as its entries, an argument as long as its bytes. -/
theorem Wf.length_addFiles_le (fs : List Input) : ∀ {P : Plan}, P.Wf → 9 ≤ P.next → ∀ {a m : Nat},
    (∀ i, i < 9 → P.length i ≤ a) → (∀ i, 9 ≤ i → P.length i ≤ m) →
    (∀ f, f ∈ fs → f.bytes.length ≤ m) →
      (∀ i, i < 9 → (P.addFiles fs).length i ≤ a + DIRENT * fs.length) ∧
        ∀ i, 9 ≤ i → (P.addFiles fs).length i ≤ m := by
  induction fs with
  | nil => exact fun _ _ _ _ ha hm _ => ⟨ha, hm⟩
  | cons f fs ih =>
      intro P h hnext a m ha hm hbytes
      have hmem := target_mem f
      have hnext' : (P.addFile f).next = P.next + 1 := rfl
      have hdir : ∀ i, i < 9 → (P.addFile f).length i ≤ a + DIRENT := by
        intro i hi
        have hle := ha i hi
        by_cases h0 : 1 ≤ i
        · rw [h.length_addFile h0 (by omega)]
          split <;> omega
        · have hne : i ≠ target f := by omega
          show (((P.alloc .file).append (target f) (dirent P.next (fileName f))).append P.next
            f.bytes).length i ≤ _
          rw [length_append_of_ne _ _ (by omega), length_append_of_ne _ _ hne, length,
            node_alloc_of_ne _ _ (by omega)]
          exact Nat.le_trans hle (Nat.le_add_right _ _)
      have hfile : ∀ i, 9 ≤ i → (P.addFile f).length i ≤ m := by
        intro i hi
        have hne : i ≠ target f := by omega
        show (((P.alloc .file).append (target f) (dirent P.next (fileName f))).append P.next
          f.bytes).length i ≤ _
        by_cases hself : i = P.next
        · subst hself
          have hnode : ((P.alloc .file).append (target f)
              (dirent P.next (fileName f))).node P.next = some (.file, []) := by
            rw [node_append_of_ne _ _ hne, node_alloc_self]
          rw [length_append_self hnode, length, hnode]
          exact Nat.le_trans (Nat.le_of_eq (Nat.zero_add _)) (hbytes f List.mem_cons_self)
        · rw [length_append_of_ne _ _ hself, length_append_of_ne _ _ hne, length,
            node_alloc_of_ne _ _ hself]
          exact hm i hi
      obtain ⟨hd, hf⟩ := ih (h.addFile f) (by omega) hdir hfile
        fun f' hf' => hbytes f' (List.mem_cons_of_mem _ hf')
      refine ⟨fun i hi => Nat.le_trans (hd i hi) ?_, hf⟩
      rw [List.length_cons, Nat.mul_succ]
      omega

theorem countIn_cons (d : Nat) (f : Input) (fs : List Input) :
    DIRENT * countIn d (f :: fs) =
      (if target f = d then DIRENT else 0) + DIRENT * countIn d fs := by
  unfold countIn
  by_cases h : target f = d
  · rw [List.filter_cons_of_pos (by simpa using h), if_pos h, List.length_cons]
    rw [Nat.mul_succ, Nat.add_comm]
  · rw [List.filter_cons_of_neg (by simpa using h), if_neg h, Nat.zero_add]

/-- The arguments take their own blocks and what the directories grow by. -/
theorem Wf.free_addFiles (fs : List Input) : ∀ {P : Plan}, P.Wf → 9 ≤ P.next →
    P.next + fs.length ≤ inodeSlots →
      (P.addFiles fs).free + need (P.length 2) + need (P.length 4) + need (P.length 8) =
        P.free + need (P.length 2 + DIRENT * countIn 2 fs) +
          need (P.length 4 + DIRENT * countIn 4 fs) + need (P.length 8 + DIRENT * countIn 8 fs) +
          bytesNeeded fs := by
  induction fs with
  | nil =>
      intro P _ _ _
      show P.free + _ + _ + _ = P.free + need (P.length 2 + DIRENT * 0) +
        need (P.length 4 + DIRENT * 0) + need (P.length 8 + DIRENT * 0) + 0
      simp only [Nat.mul_zero, Nat.add_zero]
  | cons f fs ih =>
      intro P h hnext hroom
      rw [List.length_cons] at hroom
      have hnext' : (P.addFile f).next = P.next + 1 := rfl
      have hrest := ih (h.addFile f) (by omega) (by omega)
      have hfirst := h.free_addFile hnext (by omega) f
      rw [h.length_addFile (by omega) (by omega), h.length_addFile (by omega) (by omega),
        h.length_addFile (by omega) (by omega)] at hrest
      rw [countIn_cons, countIn_cons, countIn_cons,
        show bytesNeeded (f :: fs) = need f.bytes.length + bytesNeeded fs from List.sum_cons,
        show P.addFiles (f :: fs) = (P.addFile f).addFiles fs from rfl]
      simp only [← Nat.add_assoc]
      rcases target_mem f with ht | ht | ht <;> rw [ht] at hrest hfirst ⊢ <;>
        simp only [Nat.reduceEqDiff, if_true, if_false, Nat.add_zero] at hrest ⊢ <;> omega

end Plan

/-- The number of the first block the image of `files` does not use: the metadata, one
block for each of the five directories no argument goes to, the directories of the arguments
with their entries, and the arguments. -/
def blocksNeeded (files : List Input) : Nat :=
  metablocks + 5 + need (DIRENT * (2 + Plan.countIn 2 files)) +
    need (DIRENT * (2 + Plan.countIn 4 files)) + need (DIRENT * (2 + Plan.countIn 8 files)) +
    Plan.bytesNeeded files

theorem dirs_addFiles_free {files : List Input} (hroom : 9 + files.length ≤ inodeSlots) :
    (Plan.dirs.addFiles files).free = blocksNeeded files := by
  have hsum := Plan.Wf.free_addFiles files Plan.dirs_wf (Nat.le_refl _) hroom
  have hlen : ∀ d, d = 2 ∨ d = 4 ∨ d = 8 → Plan.dirs.length d = 32 := by
    rintro d (rfl | rfl | rfl) <;> rfl
  have hfree : Plan.dirs.free = 24 := by decide +kernel
  have hmeta := metablocks_eq
  rw [hlen 2 (by omega), hlen 4 (by omega), hlen 8 (by omega), hfree,
    show need 32 = 1 by decide] at hsum
  unfold blocksNeeded
  simp only [Nat.mul_add, show DIRENT * 2 = 32 from rfl]
  omega

/-- The plan fits if every argument does and the blocks do. -/
theorem addFiles_small {files : List Input} (hroom : 9 + files.length ≤ inodeSlots)
    (hfiles : ∀ f, f ∈ files → f.bytes.length ≤ MAXFILE * BSIZE)
    (hfits : blocksNeeded files ≤ size) : (Plan.dirs.addFiles files).Small := by
  have hbelow : ∀ i, i < 9 → Plan.dirs.length i ≤ 96 := by decide +kernel
  have hnone : ∀ i, 9 ≤ i → Plan.dirs.length i ≤ MAXFILE * BSIZE := fun i _ =>
    Plan.dirs_small.files i
  obtain ⟨hdir, hfile⟩ := Plan.Wf.length_addFiles_le files Plan.dirs_wf (Nat.le_refl _) hbelow hnone
    hfiles
  refine ⟨fun i => ?_, by rw [dirs_addFiles_free hroom]; exact hfits⟩
  by_cases hi : i < 9
  · have := hdir i hi
    simp only [inodeSlots, DIRENT, MAXFILE, BSIZE] at *
    omega
  · exact hfile i (by omega)

/-- **The blocks of the image.** -/
theorem plan_free {files : List Input} (hroom : 9 + files.length ≤ inodeSlots) :
    (plan files).free = blocksNeeded files := by
  have hroot : (Plan.dirs.addFiles files).node ROOTINO = Plan.dirs.node ROOTINO :=
    addFiles_root files (Nat.le_refl _)
  have hlen : (Plan.dirs.addFiles files).length ROOTINO = 96 := by
    rw [Plan.length, hroot]
    rfl
  obtain ⟨x, hx⟩ : ∃ x, Plan.dirs.node ROOTINO = some x := ⟨_, rfl⟩
  have happend := Plan.free_append (hroot.trans hx) (by decide)
    (List.replicate ((96 / BSIZE + 1) * BSIZE - 96) 0)
  rw [hlen, List.length_replicate, show need (96 + ((96 / BSIZE + 1) * BSIZE - 96)) =
    need 96 by decide,
    Nat.add_right_cancel_iff] at happend
  show (Plan.roundRoot _).free = _
  unfold Plan.roundRoot
  rw [hlen, happend, dirs_addFiles_free hroom]

end Steps

end Xv6.Mkfs
