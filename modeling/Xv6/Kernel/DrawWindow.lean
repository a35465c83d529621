import Mathlib.Tactic.Ring
import Mathlib.Tactic.Linarith
import Xv6.Kernel.WindowList

/-!
# The picture of a window

`drawWindow` of `kernel/window_manager.c` copies the buffer of a window to the screen, with
`bga_draw_24_image_part_24` of `kernel/bga.c`.  The copy takes the size of the window from its
position, and what is left of the screen moves the source but not the target.  Coordinates, sizes
and their products are `int`s that wrap around.

* `drawWindow_exact_iff`: when every pixel of the window that is on the screen is drawn, and
  nothing else.
-/

namespace Xv6.Kernel.DrawWindow

open Verified Verified.CInt Wm

/-- `BGA_SCREEN_WIDTH`. -/
abbrev BGA_SCREEN_WIDTH : Int := 1024

/-- `BGA_SCREEN_HEIGHT`. -/
abbrev BGA_SCREEN_HEIGHT : Int := 768

/-! ## The copy -/

/-- `memmove`: from which byte of the source each byte of the target comes. -/
def memmove (t o : Int) (n : Nat) : List (Int × Int) :=
  (List.range n).map fun b : Nat => (t + b, o + b)

/-- The loop of `bga_draw_24_image_part_24` over the rows.  The size for `memmove` is unsigned. -/
def imageLoop (x y width subx suby minj maxj : Int) : List Nat → List (Int × Int)
  | [] => []
  | i :: is =>
      if int (y + i) < 0 then imageLoop x y width subx suby minj maxj is
      else if int (y + i) ≥ BGA_SCREEN_HEIGHT then []
      else
        memmove (int (int (y + i) * 3 * BGA_SCREEN_WIDTH + x * 3))
            (3 * (int ((i + suby) * width) + subx + minj))
            ((maxj - minj) * 3 % 4294967296).toNat ++
          imageLoop x y width subx suby minj maxj is

/-- `bga_draw_24_image_part_24`: the bytes of the off-screen buffer that it writes, and the bytes of
the image that it puts there. -/
def bga_draw_24_image_part_24 (x y width subx suby subw subh : Int) : List (Int × Int) :=
  if x ≥ BGA_SCREEN_WIDTH ∨ y ≥ BGA_SCREEN_HEIGHT then []
  else
    let minj := if x < 0 then int (-x) else 0
    let maxj := if int (x + subw) > BGA_SCREEN_WIDTH then int (BGA_SCREEN_WIDTH - x) else subw
    if minj ≥ maxj then []
    else imageLoop x y width subx suby minj maxj (List.range subh.toNat)

/-- The image copy of `drawWindow`. -/
def drawWindow (r : Rect) : List (Int × Int) :=
  let width := int (r.xmax - r.xmin)
  let height := int (r.ymax - r.ymin)
  bga_draw_24_image_part_24 r.xmin r.ymin width 0 0 width height

/-! ## What it writes -/

section Copy

variable {x y width height minj maxj d s : Int}

theorem mem_memmove {t o : Int} {n : Nat} :
    (d, s) ∈ memmove t o n ↔ t ≤ d ∧ d < t + n ∧ s = o + (d - t) := by
  rw [memmove, List.mem_map]
  constructor
  · rintro ⟨b, hb, heq⟩
    rw [List.mem_range] at hb
    obtain ⟨rfl, rfl⟩ := Prod.mk.inj heq
    omega
  · rintro ⟨hlo, hhi, hs⟩
    exact ⟨(d - t).toNat, List.mem_range.2 (by omega), Prod.ext (by dsimp only; omega)
      (by dsimp only; omega)⟩

/-- The rows that are copied.  The loop ends at the end of the screen, before a sum can wrap. -/
theorem mem_imageLoop (hy : Fits y) (n : Nat) : ∀ a : Nat, y + a ≤ 768 →
    ((d, s) ∈ imageLoop x y width 0 0 minj maxj (List.range' a n) ↔
      ∃ i : Nat, a ≤ i ∧ i < a + n ∧ 0 ≤ y + i ∧ y + i < 768 ∧
        (d, s) ∈ memmove (int ((y + i) * 3072 + x * 3)) (3 * (int (i * width) + minj))
          ((maxj - minj) * 3 % 4294967296).toNat) := by
  induction n with
  | zero =>
      intro a _
      refine iff_of_false List.not_mem_nil ?_
      rintro ⟨i, hle, hlt, -⟩
      omega
  | succ n ih =>
      intro a ha
      have hrow : int (y + a) = y + a := int_eq (by have := hy.1; omega) (by omega)
      have hbyte : (y + a) * 3 * 1024 + x * 3 = (y + a) * 3072 + x * 3 := by ring
      rw [List.range'_succ, imageLoop]
      simp only [BGA_SCREEN_WIDTH, BGA_SCREEN_HEIGHT, add_zero, hrow, hbyte]
      split_ifs with hneg hover
      · rw [ih (a + 1) (by push_cast; omega)]
        constructor
        · rintro ⟨i, hle, hlt, hrest⟩
          exact ⟨i, by omega, by omega, hrest⟩
        · rintro ⟨i, hle, hlt, hlo, hrest⟩
          refine ⟨i, ?_, by omega, hlo, hrest⟩
          by_contra hnext
          obtain rfl : i = a := by omega
          omega
      · refine iff_of_false List.not_mem_nil ?_
        rintro ⟨i, hle, -, -, hhi, -⟩
        omega
      · rw [List.mem_append, ih (a + 1) (by push_cast; omega)]
        constructor
        · rintro (h | ⟨i, hle, hlt, hrest⟩)
          · exact ⟨a, le_refl _, by omega, by omega, by omega, h⟩
          · exact ⟨i, by omega, by omega, hrest⟩
        · rintro ⟨i, hle, hlt, hlo, hhi, hd⟩
          rcases Nat.eq_or_lt_of_le hle with rfl | hgt
          · exact .inl hd
          · exact .inr ⟨i, hgt, by omega, hlo, hhi, hd⟩

/-- The first column that is copied. -/
def firstColumn (x : Int) : Int := if x < 0 then int (-x) else 0

/-- The first column that is not. -/
def endColumn (x width : Int) : Int :=
  if int (x + width) > BGA_SCREEN_WIDTH then int (BGA_SCREEN_WIDTH - x) else width

/-- The bytes that are written: of every row on the screen as many as there are columns, from where
the row starts. -/
theorem mem_draw (hy : Fits y) :
    (d, s) ∈ bga_draw_24_image_part_24 x y width 0 0 width height ↔
      x < 1024 ∧ firstColumn x < endColumn x width ∧
        ∃ i : Int, 0 ≤ i ∧ i < height ∧ 0 ≤ y + i ∧ y + i < 768 ∧
          int ((y + i) * 3072 + x * 3) ≤ d ∧ d < int ((y + i) * 3072 + x * 3) +
            (endColumn x width - firstColumn x) * 3 % 4294967296 ∧
          s = 3 * (int (i * width) + firstColumn x) + (d - int ((y + i) * 3072 + x * 3)) := by
  rw [bga_draw_24_image_part_24]
  change ((d, s) ∈ if x ≥ 1024 ∨ y ≥ 768 then [] else
    if firstColumn x ≥ endColumn x width then []
    else imageLoop x y width 0 0 (firstColumn x) (endColumn x width) (List.range height.toNat)) ↔ _
  split_ifs with hout hnone
  · refine iff_of_false List.not_mem_nil ?_
    rintro ⟨hx, -, i, hi, -, -, hrow, -⟩
    omega
  · refine iff_of_false List.not_mem_nil ?_
    rintro ⟨-, hcolumns, -⟩
    omega
  · have hcount : ((((endColumn x width - firstColumn x) * 3 % 4294967296).toNat : Nat) : Int) =
        (endColumn x width - firstColumn x) * 3 % 4294967296 :=
      Int.toNat_of_nonneg (Int.emod_nonneg _ (by decide))
    rw [List.range_eq_range', mem_imageLoop hy _ 0 (by omega)]
    constructor
    · rintro ⟨i, -, hi, hrow, hrow', hd⟩
      obtain ⟨hlo, hhi, hs⟩ := mem_memmove.1 hd
      rw [hcount] at hhi
      exact ⟨by omega, by omega, i, by omega, by omega, hrow, hrow', hlo, hhi, hs⟩
    · rintro ⟨-, -, i, hi, hlt, hrow, hrow', hlo, hhi, hs⟩
      have hcast : ((i.toNat : Nat) : Int) = i := Int.toNat_of_nonneg hi
      refine ⟨i.toNat, Nat.zero_le _, by omega, ?_⟩
      rw [hcast]
      refine ⟨hrow, hrow', mem_memmove.2 ⟨hlo, ?_, hs⟩⟩
      rw [hcount]
      exact hhi

/-- A window that does not start to the left of the screen and whose last column is an `int`. -/
theorem mem_draw_right (hy : Fits y) (hx : 0 ≤ x) (hwidth : 0 ≤ width)
    (hend : x + width < 2147483648) :
    (d, s) ∈ bga_draw_24_image_part_24 x y width 0 0 width height ↔
      x < 1024 ∧ ∃ i : Int, 0 ≤ i ∧ i < height ∧ 0 ≤ y + i ∧ y + i < 768 ∧
        (y + i) * 3072 + x * 3 ≤ d ∧ d < (y + i) * 3072 + x * 3 + 3 * min width (1024 - x) ∧
        s = 3 * int (i * width) + (d - ((y + i) * 3072 + x * 3)) := by
  have hfirst : firstColumn x = 0 := if_neg (by omega)
  rw [mem_draw hy, hfirst]
  constructor
  · rintro ⟨hlt, hcolumns, i, hi, hih, hrow, hrow', hlo, hhi, hs⟩
    have hstart : int ((y + i) * 3072 + x * 3) = (y + i) * 3072 + x * 3 :=
      int_eq (by omega) (by omega)
    rw [hstart] at hlo hhi hs
    refine ⟨hlt, i, hi, hih, hrow, hrow', hlo, ?_, by omega⟩
    simp only [endColumn, BGA_SCREEN_WIDTH, int] at hhi
    split_ifs at hhi <;> omega
  · rintro ⟨hlt, i, hi, hih, hrow, hrow', hlo, hhi, hs⟩
    have hstart : int ((y + i) * 3072 + x * 3) = (y + i) * 3072 + x * 3 :=
      int_eq (by omega) (by omega)
    have hcolumns : endColumn x width = min width (1024 - x) := by
      simp only [endColumn, BGA_SCREEN_WIDTH, int]
      split_ifs <;> omega
    refine ⟨hlt, by omega, i, hi, hih, hrow, hrow', by omega, ?_, by omega⟩
    rw [hcolumns, hstart]
    omega

end Copy

/-! ## Pixels -/

/-- Pixel `(j, i)` of the window is on the screen. -/
def Visible (win : UserWindow) (r : Rect) (i j : Int) : Prop :=
  (0 ≤ i ∧ i < win.height) ∧ (0 ≤ j ∧ j < win.width) ∧
    (0 ≤ r.ymin + i ∧ r.ymin + i < BGA_SCREEN_HEIGHT) ∧
    0 ≤ r.xmin + j ∧ r.xmin + j < BGA_SCREEN_WIDTH

/-- The bytes of the visible pixels are written, each from its byte in the buffer, and no others. -/
def Exact (win : UserWindow) (r : Rect) (writes : List (Int × Int)) : Prop :=
  ∀ d s, (d, s) ∈ writes ↔ ∃ i j c, Visible win r i j ∧ (0 ≤ c ∧ c < 3) ∧
    d = 3 * ((r.ymin + i) * BGA_SCREEN_WIDTH + (r.xmin + j)) + c ∧
    s = 3 * (i * win.width + j) + c

/-- The fields of a window are `int`s. -/
structure Ints (win : UserWindow) : Prop where
  width : Fits win.width
  height : Fits win.height
  xmin : Fits win.initialPosition.xmin
  ymin : Fits win.initialPosition.ymin

/-- The position is as large as the window, or smaller by the halving. -/
structure Sized (win : UserWindow) (r : Rect) : Prop where
  width : 0 ≤ int (r.xmax - r.xmin) ∧ int (r.xmax - r.xmin) ≤ win.width
  height : 0 ≤ int (r.ymax - r.ymin) ∧ int (r.ymax - r.ymin) ≤ win.height
  xmin : Fits r.xmin
  ymin : Fits r.ymin

theorem fits_int (z : Int) : Fits (int z) := by
  unfold int Fits
  omega

theorem place_sized (s : Wm.State) {win : UserWindow} (hints : Ints win) (hwidth : 0 < win.width)
    (hheight : 0 < win.height) : Sized win (place s win) := by
  have hw := hints.width
  have hh := hints.height
  unfold place
  dsimp only
  split_ifs with h
  · exact ⟨by omega, by omega, hints.xmin, hints.ymin⟩
  · refine ⟨?_, ?_, fits_int _, fits_int _⟩
    · dsimp only
      rw [Int.tdiv_eq_ediv_of_nonneg hwidth.le]
      unfold int Fits at *
      omega
    · dsimp only
      rw [Int.tdiv_eq_ediv_of_nonneg hheight.le]
      unfold int Fits at *
      omega

/-- Dragging moves the position. -/
def drag (r : Rect) (moves : List (Int × Int)) : Rect :=
  moves.foldl (fun r m => moveRect r m.1 m.2) r

/-- Moving both ends does not change the distance. -/
theorem int_sub_moved (a b d : Int) : int (int (a + d) - int (b + d)) = int (a - b) := by
  unfold int
  omega

theorem drag_sized {win : UserWindow} (moves : List (Int × Int)) {r : Rect} (h : Sized win r) :
    Sized win (drag r moves) := by
  induction moves generalizing r with
  | nil => exact h
  | cons m moves ih =>
      refine ih ⟨?_, ?_, fits_int _, fits_int _⟩
      · exact (int_sub_moved r.xmax r.xmin m.1).symm ▸ h.width
      · exact (int_sub_moved r.ymax r.ymin m.2).symm ▸ h.height

section Pixels

variable {win : UserWindow} {r : Rect}

/-- A pixel of the window is inside its position, which does not start to the left of the screen,
and its row begins within an `int` of the buffer, where the position has it begin. -/
structure Inside (win : UserWindow) (r : Rect) (i j : Int) : Prop where
  left : 0 ≤ r.xmin
  column : j < int (r.xmax - r.xmin)
  row : i < int (r.ymax - r.ymin)
  stride : i = 0 ∨ int (r.xmax - r.xmin) = win.width
  offset : i * win.width < 2147483648

/-- The row begins in the copied image where it begins in the buffer. -/
theorem Inside.row_start {i j : Int} (h : Inside win r i j) (hi : 0 ≤ i) (hwidth : 0 ≤ win.width) :
    int (i * int (r.xmax - r.xmin)) = i * win.width := by
  have hoffset := h.offset
  rcases h.stride with rfl | heq
  · rw [zero_mul, zero_mul]
    rfl
  · rw [heq]
    have hpos : 0 ≤ i * win.width := mul_nonneg hi hwidth
    exact int_eq (by omega) hoffset

/-- Row `i` of the position is on the screen. -/
def RowOnScreen (r : Rect) (i : Int) : Prop :=
  (0 ≤ i ∧ i < int (r.ymax - r.ymin)) ∧ (0 ≤ r.ymin + i ∧ r.ymin + i < BGA_SCREEN_HEIGHT) ∧
    r.xmin < BGA_SCREEN_WIDTH

/-- The ends of the position are far enough from the ends of an `int`. -/
def Bounded (r : Rect) : Prop :=
  -2147483648 < r.xmin ∧ r.xmin + int (r.xmax - r.xmin) < 2147483648

/-- A byte that is written is in a row on the screen. -/
theorem RowOnScreen.of_mem {d s : Int} (hsized : Sized win r) (h : (d, s) ∈ drawWindow r) :
    ∃ i, RowOnScreen r i := by
  obtain ⟨hx, -, i, hi, hlt, hrow, hrow', -⟩ := (mem_draw hsized.ymin).1 h
  exact ⟨i, ⟨hi, hlt⟩, ⟨hrow, hrow'⟩, hx⟩

/-- A window that starts to the left of the screen is drawn only if it has a pixel there. -/
theorem visible_of_mem (hsized : Sized win r) (hlow : -2147483648 < r.xmin) (hx : r.xmin < 0)
    {d s : Int} (h : (d, s) ∈ drawWindow r) : ∃ i, Visible win r i (-r.xmin) := by
  obtain ⟨-, hcolumns, i, hi, hlt, hrow, hrow', -⟩ := (mem_draw hsized.ymin).1 h
  have hw := hsized.width
  have hh := hsized.height
  have hlast : endColumn r.xmin (int (r.xmax - r.xmin)) ≤ int (r.xmax - r.xmin) := by
    have hfits := (fits_int (r.xmax - r.xmin)).2
    generalize int (r.xmax - r.xmin) = w at *
    simp only [endColumn, BGA_SCREEN_WIDTH, int]
    split_ifs <;> omega
  have hfirst : firstColumn r.xmin = -r.xmin := by
    rw [firstColumn, if_pos hx]
    exact int_eq (by omega) (by omega)
  refine ⟨i, ⟨hi, by omega⟩, ⟨by omega, by omega⟩, ⟨hrow, hrow'⟩, by omega, ?_⟩
  simp only [BGA_SCREEN_WIDTH]
  omega

/-- A window whose visible pixels are all inside its position is drawn right. -/
theorem exact_of_inside (hsized : Sized win r) (h : ∀ i j, Visible win r i j → Inside win r i j)
    (hbounded : ∀ i, RowOnScreen r i → Bounded r) : Exact win r (drawWindow r) := by
  intro d s
  have hw := hsized.width
  have hh := hsized.height
  constructor
  · intro hmem
    obtain ⟨k, hk⟩ := RowOnScreen.of_mem hsized hmem
    obtain ⟨hlow, hend⟩ := hbounded k hk
    have hleft : 0 ≤ r.xmin := by
      by_contra hneg
      obtain ⟨i, hvis⟩ := visible_of_mem hsized hlow (by omega) hmem
      exact hneg (h i _ hvis).left
    rw [drawWindow, mem_draw_right hsized.ymin hleft hw.1 hend] at hmem
    obtain ⟨hx, i, hi, hlt, hrow, hrow', hlo, hhi, hs⟩ := hmem
    -- the first column of the row is visible
    have hin : Inside win r i 0 := h i 0 ⟨by omega, by omega, ⟨hrow, hrow'⟩, by omega, by
      simp only [BGA_SCREEN_WIDTH]
      omega⟩
    have hmul := hin.row_start hi (by omega)
    rw [hmul] at hs
    unfold Visible
    simp only [BGA_SCREEN_WIDTH, BGA_SCREEN_HEIGHT]
    refine ⟨i, (d - ((r.ymin + i) * 3072 + r.xmin * 3)) / 3,
      (d - ((r.ymin + i) * 3072 + r.xmin * 3)) % 3, ⟨by omega, by omega, by omega, by omega,
        by omega⟩, by omega, by omega, by omega⟩
  · rintro ⟨i, j, c, hvis, hc, rfl, rfl⟩
    have hin := h i j hvis
    obtain ⟨⟨hi, -⟩, ⟨hj, -⟩, hrow, hcol⟩ := hvis
    simp only [BGA_SCREEN_WIDTH, BGA_SCREEN_HEIGHT] at *
    have hx : r.xmin < 1024 := by omega
    obtain ⟨-, hend⟩ := hbounded i ⟨⟨hi, hin.row⟩, hrow, hx⟩
    have hmul := hin.row_start hi (by omega)
    have hcolumn := hin.column
    rw [drawWindow, mem_draw_right hsized.ymin hin.left hw.1 hend]
    refine ⟨hx, i, hi, hin.row, hrow.1, hrow.2, by omega, by omega, ?_⟩
    rw [hmul]
    ring

/-- A number that is reduced by one modulus. -/
theorem emod_once {a m : Int} (hlo : m ≤ a) (hhi : a < 2 * m) : a % m = a - m := by
  rw [← Int.sub_emod_right a m]
  exact Int.emod_eq_of_lt (by omega) (by omega)

/-- To the left of every `int`, every column of the position is copied, and more. -/
theorem columns_low {x w : Int} (hx : x = -2147483648) (hw : 0 ≤ w) (hw' : w < 2147483648) :
    firstColumn x < endColumn x w ∧ 0 < (endColumn x w - firstColumn x) * 3 % 4294967296 := by
  have hfirst : firstColumn x = -2147483648 := by
    rw [hx]
    decide
  have hlast : endColumn x w = w := by
    rw [endColumn, if_neg]
    rw [hx, int_eq (by omega) (by omega)]
    simp only [BGA_SCREEN_WIDTH]
    omega
  rw [hfirst, hlast]
  refine ⟨by omega, ?_⟩
  by_cases hsmall : w * 3 < 2147483648
  · rw [emod_once (by omega) (by omega)]
    omega
  · have hne : w * 3 ≠ 2147483648 := by omega
    rw [← Int.sub_emod_right, emod_once (by omega) (by omega)]
    omega

/-- If the sum of the coordinate and the width wraps, the copy does not end at the screen. -/
theorem columns_wide {x w : Int} (hx : 0 ≤ x) (hx' : x < 1024) (hw : w < 2147483648)
    (hend : 2147483648 ≤ x + w) : firstColumn x < endColumn x w ∧
      2147480000 < (endColumn x w - firstColumn x) * 3 % 4294967296 := by
  have hfirst : firstColumn x = 0 := if_neg (by omega)
  have hlast : endColumn x w = w := by
    rw [endColumn, if_neg]
    unfold int
    simp only [BGA_SCREEN_WIDTH]
    omega
  rw [hfirst, hlast, emod_once (by omega) (by omega)]
  omega

/-- If a window is drawn right, the ends of its position are not too far out. -/
theorem bounded_of_exact (hsized : Sized win r) (hints : Fits win.width)
    (h : Exact win r (drawWindow r)) {i : Int} (hrow : RowOnScreen r i) : Bounded r := by
  obtain ⟨⟨hi, hlt⟩, ⟨hlo, hhi⟩, hx⟩ := hrow
  simp only [BGA_SCREEN_WIDTH, BGA_SCREEN_HEIGHT] at hhi hx
  have hw := hsized.width
  have hwlt := (fits_int (r.xmax - r.xmin)).2
  have hxlow := hsized.xmin.1
  have hwin := hints.2
  -- the last byte of the row
  have hlast : ∀ n, n = (endColumn r.xmin (int (r.xmax - r.xmin)) - firstColumn r.xmin) * 3 %
      4294967296 → 0 < n → firstColumn r.xmin < endColumn r.xmin (int (r.xmax - r.xmin)) →
      ∃ k l c, Visible win r k l ∧ (0 ≤ c ∧ c < 3) ∧
        int ((r.ymin + i) * 3072 + r.xmin * 3) + n - 1 =
          3 * ((r.ymin + k) * BGA_SCREEN_WIDTH + (r.xmin + l)) + c := by
    rintro n rfl hn hcolumns
    have hd := (mem_draw hsized.ymin).2 ⟨hx, hcolumns, i, hi, hlt, hlo, hhi,
      Int.le_sub_one_of_lt (lt_add_of_pos_right _ hn), Int.sub_one_lt_of_le (le_refl _), rfl⟩
    obtain ⟨k, l, c, hvis, hc, hdeq, -⟩ := (h _ _).1 hd
    exact ⟨k, l, c, hvis, hc, hdeq⟩
  unfold Bounded
  by_contra hnot
  rw [not_and_or] at hnot
  rcases hnot with hlow | hend
  · -- every column is to the left of the screen, but the rows are copied
    obtain ⟨hcolumns, hn⟩ := columns_low (show r.xmin = -2147483648 by omega) hw.1 hwlt
    obtain ⟨k, l, c, ⟨-, hl, -, hcol⟩, -⟩ := hlast _ rfl hn hcolumns
    omega
  · -- the end of the row is behind the screen
    obtain ⟨hcolumns, hn⟩ :=
      columns_wide (show 0 ≤ r.xmin by omega) hx hwlt (show _ ≤ _ by omega)
    have hstart : int ((r.ymin + i) * 3072 + r.xmin * 3) = (r.ymin + i) * 3072 + r.xmin * 3 :=
      int_eq (by omega) (by omega)
    obtain ⟨k, l, c, ⟨-, -, hrow, hcol⟩, hc, hdeq⟩ := hlast _ rfl (by omega) hcolumns
    rw [hstart] at hdeq
    simp only [BGA_SCREEN_WIDTH, BGA_SCREEN_HEIGHT] at hdeq hrow hcol
    omega

/-- A multiple of three that has wrapped is none: 2^32 is not. -/
theorem int_three {u q : Int} (hlo : -2147483648 ≤ u) (hhi : u < 2147483648)
    (h : int (3 * u) = 3 * q) : int (3 * u) = 3 * u := by
  obtain ⟨k, hk, hdiv⟩ : ∃ k, (k = -2 ∨ k = -1 ∨ k = 0 ∨ k = 1) ∧
      int (3 * u) = 3 * u - 4294967296 * k :=
    ⟨(3 * u + 2147483648) / 4294967296, by omega, by unfold int; omega⟩
  rw [hdiv] at h ⊢
  clear hdiv hlo hhi
  rcases hk with rfl | rfl | rfl | rfl
  · omega
  · omega
  · omega
  · omega

/-- The first byte of the first row on the screen is in front of every visible pixel, or in another
place of its pixel, if the window starts to the left of the screen. -/
theorem left_of_exact (hsized : Sized win r) (hlow : -2147483648 < r.xmin)
    (h : Exact win r (drawWindow r)) {i j : Int} (hvis : Visible win r i j) : 0 ≤ r.xmin := by
  by_contra hneg
  have hd := (h _ _).2 ⟨i, j, 0, hvis, by omega, rfl, rfl⟩
  obtain ⟨hx, hcolumns, i', hi', hlt, hrow, hrow', hlo, hhi, -⟩ := (mem_draw hsized.ymin).1 hd
  have hfits := hsized.xmin
  unfold Fits at hfits
  have hfirst : firstColumn r.xmin = -r.xmin := by
    rw [firstColumn, if_pos (by omega)]
    exact int_eq (by omega) (by omega)
  -- the first byte of the first row
  have hcount : int ((r.ymin + max 0 (-r.ymin)) * 3072 + r.xmin * 3) <
      int ((r.ymin + max 0 (-r.ymin)) * 3072 + r.xmin * 3) +
        (endColumn r.xmin (int (r.xmax - r.xmin)) - firstColumn r.xmin) * 3 % 4294967296 := by
    have : int ((r.ymin + i') * 3072 + r.xmin * 3) <
      int ((r.ymin + i') * 3072 + r.xmin * 3) +
        (endColumn r.xmin (int (r.xmax - r.xmin)) - firstColumn r.xmin) * 3 % 4294967296 :=
      lt_of_le_of_lt hlo hhi
    omega
  have hmem : (_, _) ∈ drawWindow r := (mem_draw hsized.ymin).2 ⟨hx, hcolumns, max 0 (-r.ymin),
    by omega, by omega, by omega, by omega, le_refl _, hcount, rfl⟩
  obtain ⟨k, l, c, ⟨hk, -, hkrow, hl⟩, hc, hdeq, hseq⟩ := (h _ _).1 hmem
  rw [hfirst, sub_self, add_zero] at hseq
  simp only [BGA_SCREEN_WIDTH, BGA_SCREEN_HEIGHT] at hdeq hkrow hl
  generalize int (max 0 (-r.ymin) * int (r.xmax - r.xmin)) = a at hseq
  generalize k * win.width = b at hseq
  have hthree : c = 0 := by omega
  subst hthree
  have hplace : (r.ymin + max 0 (-r.ymin)) * 3072 + r.xmin * 3 =
      3 * ((r.ymin + max 0 (-r.ymin)) * 1024 + r.xmin) := by ring
  rw [hplace, add_zero] at hdeq
  rw [int_three (by omega) (by omega) hdeq] at hdeq
  clear hcount hmem hlo hhi hcolumns hfirst hseq hd hplace
  omega

/-- If a window is drawn right, its visible pixels are inside its position. -/
theorem inside_of_exact (hsized : Sized win r) (hints : Fits win.width)
    (h : Exact win r (drawWindow r)) {i j : Int} (hvis : Visible win r i j) :
    Inside win r i j := by
  have hd := (h _ _).2 ⟨i, j, 0, hvis, by omega, rfl, rfl⟩
  obtain ⟨k, hk⟩ := RowOnScreen.of_mem hsized hd
  obtain ⟨hlow, hend⟩ := bounded_of_exact hsized hints h hk
  have hleft := left_of_exact hsized hlow h hvis
  have hw := hsized.width
  rw [drawWindow, mem_draw_right hsized.ymin hleft hw.1 hend] at hd
  unfold Visible at hvis
  simp only [BGA_SCREEN_WIDTH, BGA_SCREEN_HEIGHT] at *
  obtain ⟨hx, i', hi', hlt, hrow, hrow', hlo, hhi, hs⟩ := hd
  obtain rfl : i = i' := by omega
  have hmul : int (i * int (r.xmax - r.xmin)) = i * win.width := by
    generalize int (i * int (r.xmax - r.xmin)) = a at *
    generalize i * win.width = b at *
    omega
  have hle : i * int (r.xmax - r.xmin) ≤ i * win.width := mul_le_mul_of_nonneg_left hw.2 hi'
  have hpos : 0 ≤ i * int (r.xmax - r.xmin) := mul_nonneg hi' hw.1
  have hwrap : int (i * int (r.xmax - r.xmin)) ≤ i * int (r.xmax - r.xmin) := by
    generalize i * int (r.xmax - r.xmin) = a at *
    unfold int
    omega
  refine ⟨hleft, by omega, hlt, ?_, ?_⟩
  · rcases eq_or_ne i 0 with hi0 | hne
    · exact .inl hi0
    · exact .inr (mul_left_cancel₀ hne (le_antisymm hle (hmul ▸ hwrap)))
  · rw [← hmul]
    exact (fits_int _).2

/-- When `drawWindow` draws exactly the visible pixels, wherever a new window was dragged to. -/
theorem drawWindow_exact_iff (s : Wm.State) {win : UserWindow} (hints : Ints win)
    (hwidth : 0 < win.width) (hheight : 0 < win.height) (moves : List (Int × Int)) :
    let r := drag (place s win) moves
    Exact win r (drawWindow r) ↔
      (∀ i j, Visible win r i j → Inside win r i j) ∧ ∀ i, RowOnScreen r i → Bounded r := by
  have hsized := drag_sized moves (place_sized s hints hwidth hheight)
  exact ⟨fun h => ⟨fun _ _ hvis => inside_of_exact hsized hints.width h hvis,
      fun _ hrow => bounded_of_exact hsized hints.width h hrow⟩,
    fun h => exact_of_inside hsized h.1 h.2⟩

end Pixels

/-- A window of 2 by 2 pixels that asks for the upper left corner. -/
def corner : UserWindow := ⟨⟨0, 2, 0, 2⟩, 1, 0, 2, 2, 0⟩

theorem corner_ints : Ints corner :=
  ⟨by unfold Fits; decide, by unfold Fits; decide, by unfold Fits; decide, by unfold Fits; decide⟩

/-- It is drawn right where it asks to be. -/
theorem drawWindow_exact_iff_corner : Exact corner (drag (place cleared corner) [])
    (drawWindow (drag (place cleared corner) [])) := by
  have hplace : drag (place cleared corner) [] = ⟨0, 2, 0, 2⟩ := by decide
  have hw : corner.width = 2 := rfl
  have hh : corner.height = 2 := rfl
  have hw' : int ((2 : Int) - 0) = 2 := by decide
  refine (drawWindow_exact_iff cleared corner_ints (by decide) (by decide) []).2 ⟨?_, ?_⟩
  · rw [hplace]
    rintro i j ⟨⟨hi, hi'⟩, ⟨hj, hj'⟩, -⟩
    refine ⟨le_refl _, ?_, ?_, .inr hw', ?_⟩
    · dsimp only
      omega
    · dsimp only
      omega
    · rw [hw]
      omega
  · rw [hplace]
    exact fun _ _ => by unfold Bounded; decide

/-- One column to the left, its right half is drawn in front of the buffer of the screen. -/
theorem left_edge_shifted :
    let r := drag (place cleared corner) [(-1, 0)]
    ¬Exact corner r (drawWindow r) := by
  intro r h
  have hd : ((-3, 3) : Int × Int) ∈ drawWindow r := by decide
  obtain ⟨i, j, c, hvis, hc, hd, -⟩ := (h _ _).1 hd
  have hrow := hvis.2.2.1
  have hcol := hvis.2.2.2
  simp only [BGA_SCREEN_WIDTH, BGA_SCREEN_HEIGHT] at hd hrow hcol
  omega

end Xv6.Kernel.DrawWindow
