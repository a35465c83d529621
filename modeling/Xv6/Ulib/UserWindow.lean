import Mathlib.Data.List.Basic
import Mathlib.Tactic.Ring
import Mathlib.Tactic.Linarith
import Xv6.Verified.Int32

/-!
# Drawing in a window

`ulib/user_window.c` draws characters, strings and rectangles in the buffer of a window, `width`
times `height` pixels.  The pictures of the characters are in a table: it is the parameter
`character`.  What a function draws is a list of writes; the values do not matter here.  The number
of a row times `width` is an `int`, while the columns are added to a pointer.

* `draws_inside_iff`: the tests of the far edges let one column and one row too many through, so
  the functions keep to the window if nothing is drawn there and the rows begin where they should.
-/

namespace Xv6.Ulib.UserWindow

open Verified Verified.CInt

/-- `CHARACTER_WIDTH`. -/
abbrev CHARACTER_WIDTH : Nat := 9

/-- `CHARACTER_HEIGHT`. -/
abbrev CHARACTER_HEIGHT : Nat := 18

/-- `CHARACTER_NUMBER`. -/
abbrev CHARACTER_NUMBER : Nat := 96

/-- The pictures of the characters: `character[ord][i][j]`. -/
abbrev Font := Nat → Nat → Nat → UInt8

/-- The size of a `window`. -/
structure Window where
  width : Int
  height : Int
  width_fits : Fits width
  height_fits : Fits height

/-- A write for pixel `(x, y)`, to an element of `window_buf`. -/
structure Dot where
  x : Int
  y : Int
  element : Int
  deriving DecidableEq

section Definitions

variable (character : Font) (win : Window)

/-- `drawPointAlpha`: what it writes to. -/
def drawPointAlpha (t : Dot) (A : UInt8) : List Dot := if A = 0 then [] else [t]

/-- The columns of row `py` of a character. -/
def columnLoop (A : UInt8) (picture : Nat → UInt8) (x py : Int) : List Nat → List Dot
  | [] => []
  | j :: js =>
      if picture j = 1 then
        if int (x + j) > win.width then []
        else if int (x + j) < 0 then columnLoop A picture x py js
        else
          drawPointAlpha ⟨int (x + j), py, int (py * win.width) + x + j⟩ A ++
            columnLoop A picture x py js
      else columnLoop A picture x py js

/-- The rows of a character. -/
def rowLoop (A : UInt8) (picture : Nat → Nat → UInt8) (x y : Int) : List Nat → List Dot
  | [] => []
  | i :: is =>
      if int (y + i) > win.height then []
      else if int (y + i) < 0 then rowLoop A picture x y is
      else
        columnLoop win A (picture i) x (int (y + i)) (List.range CHARACTER_WIDTH) ++
          rowLoop A picture x y is

/-- `ord`, of a `char`. -/
def ord (ch : UInt8) : Int := ch.toInt8.toInt - 0x20

/-- `drawCharacter`: what it writes to. -/
def drawCharacter (x y : Int) (ch A : UInt8) : List Dot :=
  if ord ch < 0 ∨ ord ch ≥ (CHARACTER_NUMBER : Int) - 1 then []
  else rowLoop win A (character (ord ch).toNat) x y (List.range CHARACTER_HEIGHT)

/-- `'\n'`. -/
abbrev newline : UInt8 := 10

/-- `offset_x` and `offset_y` behind a character, on a grid of `w` times `h`. -/
def advance (w h limit : Int) (c : UInt8) (p : Int × Int) : Int × Int :=
  if c ≠ newline then
    if int (p.1 + w) > limit then (0, int (p.2 + h)) else (int (p.1 + w), p.2)
  else (0, int (p.2 + h))

/-- The loop of `drawString`: the characters that it comes to, and their offsets. -/
def drawStringLoop (width height : Int) : List UInt8 → Int × Int → List ((Int × Int) × UInt8)
  | [], _ => []
  | c :: str, p =>
      if p.2 > height then []
      else (p, c) :: drawStringLoop width height str
        (advance CHARACTER_WIDTH CHARACTER_HEIGHT width c p)

/-- A character of a string, at offset `p`. -/
def drawStringChar (A : UInt8) (x y : Int) (p : Int × Int) (c : UInt8) : List Dot :=
  if c ≠ newline ∧ int (x + p.1) ≥ 0 ∧ int (x + p.1) ≤ win.width ∧ int (y + p.2) ≥ 0 ∧
      int (y + p.2) ≤ win.height then
    drawCharacter character win (int (x + p.1)) (int (y + p.2)) c A
  else []

/-- `drawString`: what it writes to. -/
def drawString (str : List UInt8) (A : UInt8) (x y width height : Int) : List Dot :=
  (drawStringLoop width height str (0, 0)).flatMap fun q =>
    drawStringChar character win A x y q.1 q.2

/-- A line of `width` pixels from `(x, py)`, those in columns from `left` on; `t` is where `(x, py)`
is. -/
def acrossLoop (left x py t : Int) (width : Nat) : List Dot :=
  (List.range width).filterMap fun i : Nat =>
    if int (x + i) ≥ left ∧ int (x + i) < win.width then some ⟨int (x + i), py, t + i⟩ else none

/-- A line of `height` pixels from `(px, y)`; `t` is where `(px, y)` is. -/
def downLoop (y px t : Int) (height : Nat) : List Dot :=
  (List.range height).filterMap fun i : Nat =>
    if int (y + i) ≥ 0 ∧ int (y + i) < win.height then
      some ⟨px, int (y + i), t + int (i * win.width)⟩ else none

/-- `drawRect`: what it writes to.  The lower line leaves out column 0. -/
def drawRect (x y width height : Int) : List Dot :=
  if x ≥ win.width ∨ int (x + width) < 0 ∨ y ≥ win.height ∨ int (y + height) < 0 ∨ width < 0 ∨
      height < 0 then []
  else
    let t := int (y * win.width) + x
    (if y ≥ 0 then acrossLoop win 0 x y t width.toNat else []) ++
    (if int (y + height) ≤ win.height then
      if y ≥ 0 then acrossLoop win 1 x (int (y + height)) (t + int (height * win.width)) width.toNat
      else []
    else []) ++
    (if x ≥ 0 then downLoop win y x t height.toNat else []) ++
    (if int (x + width) ≤ win.width then
      downLoop win y (int (x + width)) (t + width) height.toNat else [])

end Definitions

/-! ## Shapes -/

section Shapes

variable {character : Font} {win : Window} {x y : Int} {ch A : UInt8}

/-- The dot is a pixel of the window and of the shape, and it is written where the pixel is. -/
structure Dot.Sound (win : Window) (shape : Int → Int → Prop) (d : Dot) : Prop where
  column : 0 ≤ d.x ∧ d.x < win.width
  row : 0 ≤ d.y ∧ d.y < win.height
  inBuf : 0 ≤ d.element ∧ d.element < win.width * win.height
  pixel : d.element = d.y * win.width + d.x
  inShape : shape d.x d.y

theorem Dot.Sound.of_pixel {shape : Int → Int → Prop} {d : Dot}
    (hx : 0 ≤ d.x ∧ d.x < win.width) (hy : 0 ≤ d.y ∧ d.y < win.height)
    (hpixel : d.element = d.y * win.width + d.x) (hshape : shape d.x d.y) : d.Sound win shape := by
  refine ⟨hx, hy, ?_, hpixel, hshape⟩
  rw [hpixel]
  constructor
  · have := mul_nonneg hy.1 (by omega : 0 ≤ win.width)
    omega
  · have : (d.y + 1) * win.width ≤ win.height * win.width :=
      mul_le_mul_of_nonneg_right (by omega) (by omega)
    linarith

/-- `(px, py)` is on the picture of `ch` at `(x, y)`. -/
def Glyph (character : Font) (x y : Int) (ch : UInt8) (px py : Int) : Prop :=
  0 ≤ ord ch ∧ ord ch < 95 ∧ ∃ i j : Nat, i < CHARACTER_HEIGHT ∧ j < CHARACTER_WIDTH ∧
    character (ord ch).toNat i j = 1 ∧ px = x + j ∧ py = y + i

/-- `(px, py)` is on the border of the rectangle between `(x, y)` and `(x + width, y + height)`. -/
def Border (x y width height px py : Int) : Prop :=
  x ≤ px ∧ px ≤ x + width ∧ y ≤ py ∧ py ≤ y + height ∧
    (px = x ∨ px = x + width ∨ py = y ∨ py = y + height)

theorem int_add (hx : Fits x) {j : Nat} (hj : j < 18) (h : 0 ≤ int (x + j)) :
    int (x + j) = x + j := by
  unfold int Fits at *
  omega

theorem int_add_of_le (hx : Fits x) {j : Nat} (hj : j < 18) {w : Int} (hw : Fits w)
    (h : x + j ≤ w) : int (x + j) = x + j := by
  unfold int Fits at *
  omega

theorem mem_columnLoop {picture : Nat → UInt8} {py : Int} (hx : Fits x) {js : List Nat}
    (hlt : ∀ j ∈ js, j < 18) (hsorted : js.Pairwise (· < ·)) (d : Dot) :
    d ∈ columnLoop win A picture x py js ↔
      A ≠ 0 ∧ ∃ j ∈ js, picture j = 1 ∧ 0 ≤ x + j ∧ x + j ≤ win.width ∧
        d = ⟨x + j, py, int (py * win.width) + x + j⟩ := by
  induction js with
  | nil => simp [columnLoop]
  | cons j js ih =>
      rw [List.pairwise_cons] at hsorted
      specialize ih (fun i hi => hlt i (by simp [hi])) hsorted.2
      have hj := hlt j (by simp)
      have hfits := win.width_fits
      rw [columnLoop]
      split_ifs with hpic hover hneg
      · refine ⟨fun h => absurd h (by simp), ?_⟩
        rintro ⟨-, i, hi, -, hnonneg, hle, -⟩
        have hji : j ≤ i := by
          rcases List.mem_cons.1 hi with rfl | hi
          · exact le_refl _
          · exact (hsorted.1 i hi).le
        have := hlt i hi
        unfold int Fits at *
        omega
      · rw [ih]
        constructor
        · rintro ⟨hA, i, hi, hrest⟩
          exact ⟨hA, i, by simp [hi], hrest⟩
        · rintro ⟨hA, i, hi, hpi, hnonneg, hle, hd⟩
          rcases List.mem_cons.1 hi with rfl | hi
          · have := int_add_of_le hx hj hfits hle
            omega
          · exact ⟨hA, i, hi, hpi, hnonneg, hle, hd⟩
      · have hint := int_add hx hj (by omega)
        rw [List.mem_append, ih, hint]
        unfold drawPointAlpha
        constructor
        · rintro (h | ⟨hA, i, hi, hrest⟩)
          · split_ifs at h with hA
            · exact absurd h (by simp)
            · exact ⟨hA, j, by simp, hpic, by omega, by omega, by simpa using h⟩
          · exact ⟨hA, i, by simp [hi], hrest⟩
        · rintro ⟨hA, i, hi, hpi, hnonneg, hle, hd⟩
          rcases List.mem_cons.1 hi with rfl | hi
          · exact .inl (by simp [hA, hd])
          · exact .inr ⟨hA, i, hi, hpi, hnonneg, hle, hd⟩
      · rw [ih]
        constructor
        · rintro ⟨hA, i, hi, hrest⟩
          exact ⟨hA, i, by simp [hi], hrest⟩
        · rintro ⟨hA, i, hi, hpi, hrest⟩
          rcases List.mem_cons.1 hi with rfl | hi
          · exact absurd hpi hpic
          · exact ⟨hA, i, hi, hpi, hrest⟩

theorem mem_rowLoop {picture : Nat → Nat → UInt8} (hy : Fits y) {is : List Nat}
    (hlt : ∀ i ∈ is, i < 18) (hsorted : is.Pairwise (· < ·)) (d : Dot) :
    d ∈ rowLoop win A picture x y is ↔
      ∃ i ∈ is, 0 ≤ y + i ∧ y + i ≤ win.height ∧
        d ∈ columnLoop win A (picture i) x (y + i) (List.range CHARACTER_WIDTH) := by
  induction is with
  | nil => simp [rowLoop]
  | cons i is ih =>
      rw [List.pairwise_cons] at hsorted
      specialize ih (fun i hi => hlt i (by simp [hi])) hsorted.2
      have hi := hlt i (by simp)
      have hfits := win.height_fits
      rw [rowLoop]
      split_ifs with hover hneg
      · refine ⟨fun h => absurd h (by simp), ?_⟩
        rintro ⟨k, hk, hnonneg, hle, -⟩
        have hik : i ≤ k := by
          rcases List.mem_cons.1 hk with rfl | hk
          · exact le_refl _
          · exact (hsorted.1 k hk).le
        have := hlt k hk
        unfold int Fits at *
        omega
      · rw [ih]
        constructor
        · rintro ⟨k, hk, hrest⟩
          exact ⟨k, by simp [hk], hrest⟩
        · rintro ⟨k, hk, hnonneg, hle, hd⟩
          rcases List.mem_cons.1 hk with rfl | hk
          · have := int_add_of_le hy hi hfits hle
            omega
          · exact ⟨k, hk, hnonneg, hle, hd⟩
      · have hint := int_add hy hi (by omega)
        rw [List.mem_append, ih, hint]
        constructor
        · rintro (h | ⟨k, hk, hrest⟩)
          · exact ⟨i, by simp, by omega, by omega, h⟩
          · exact ⟨k, by simp [hk], hrest⟩
        · rintro ⟨k, hk, hnonneg, hle, hd⟩
          rcases List.mem_cons.1 hk with rfl | hk
          · exact .inl hd
          · exact .inr ⟨k, hk, hnonneg, hle, hd⟩

/-- What `drawCharacter` writes to: the pixels of the picture, to the far edges of the window and
one further. -/
theorem mem_drawCharacter (hx : Fits x) (hy : Fits y) (d : Dot) :
    d ∈ drawCharacter character win x y ch A ↔
      A ≠ 0 ∧ Glyph character x y ch d.x d.y ∧ 0 ≤ d.x ∧ d.x ≤ win.width ∧ 0 ≤ d.y ∧
        d.y ≤ win.height ∧ d.element = int (d.y * win.width) + d.x := by
  have hrange : ∀ n m : Nat, n ≤ 18 → m ∈ List.range n → m < 18 := fun n m hn hm => by
    rw [List.mem_range] at hm
    omega
  unfold drawCharacter
  split_ifs with hord
  · refine ⟨fun h => absurd h (by simp), ?_⟩
    rintro ⟨-, ⟨hlo, hhi, -⟩, -⟩
    push_cast at hord
    omega
  · push_cast at hord
    rw [mem_rowLoop hy (fun i => hrange _ i (by decide)) List.pairwise_lt_range]
    constructor
    · rintro ⟨i, hi, hrow, hrow', hd⟩
      rw [mem_columnLoop hx (fun j => hrange _ j (by decide)) List.pairwise_lt_range] at hd
      obtain ⟨hA, j, hj, hpic, hcol, hcol', rfl⟩ := hd
      exact ⟨hA, ⟨by omega, by omega, i, j, List.mem_range.1 hi, List.mem_range.1 hj, hpic, rfl,
        rfl⟩, hcol, hcol', hrow, hrow', by dsimp only; ring⟩
    · rintro ⟨hA, ⟨-, -, i, j, hi, hj, hpic, hdx, hdy⟩, hcol, hcol', hrow, hrow', helement⟩
      refine ⟨i, List.mem_range.2 hi, by omega, by omega, ?_⟩
      rw [mem_columnLoop hx (fun j => hrange _ j (by decide)) List.pairwise_lt_range]
      refine ⟨hA, j, List.mem_range.2 hj, hpic, by omega, by omega, ?_⟩
      rw [← hdy]
      cases d
      dsimp only at *
      subst hdx hdy helement
      congr 1
      ring

/-- The picture of `ch` at `(x, y)` has a pixel on the far edges of the window, or in a row that
does not begin within an `int`. -/
def Spills (character : Font) (win : Window) (x y : Int) (ch : UInt8) : Prop :=
  ∃ px py, Glyph character x y ch px py ∧ 0 ≤ px ∧ px ≤ win.width ∧ 0 ≤ py ∧ py ≤ win.height ∧
    (px = win.width ∨ py = win.height ∨ ¬Fits (py * win.width))

theorem fits_int (z : Int) : Fits (int z) := by
  unfold int Fits
  omega

theorem int_eq_iff {z : Int} : int z = z ↔ Fits z :=
  ⟨fun h => h ▸ fits_int z, fun h => int_eq h.1 h.2⟩

/-- `drawCharacter` keeps to the window exactly if the picture does not spill. -/
theorem drawCharacter_sound_iff (hx : Fits x) (hy : Fits y) :
    (∀ d ∈ drawCharacter character win x y ch A, d.Sound win (Glyph character x y ch)) ↔
      A = 0 ∨ ¬Spills character win x y ch := by
  constructor
  · intro h
    by_contra hnot
    push Not at hnot
    obtain ⟨hA, px, py, hglyph, hpx, hpx', hpy, hpy', hedge⟩ := hnot
    have := h ⟨px, py, int (py * win.width) + px⟩
      ((mem_drawCharacter hx hy _).2 ⟨hA, hglyph, hpx, hpx', hpy, hpy', rfl⟩)
    have hcol := this.column.2
    have hrow := this.row.2
    have hpixel := this.pixel
    dsimp only at hcol hrow hpixel
    rcases hedge with hedge | hedge | hwraps
    · omega
    · omega
    · exact hwraps (int_eq_iff.1 (by omega))
  · intro h d hd
    obtain ⟨hA, hglyph, hcol, hcol', hrow, hrow', helement⟩ := (mem_drawCharacter hx hy d).1 hd
    rcases h with h | h
    · exact absurd h hA
    · have hnot : d.x ≠ win.width ∧ d.y ≠ win.height ∧ Fits (d.y * win.width) := by
        refine ⟨fun heq => h ?_, fun heq => h ?_, by_contra fun hwraps => h ?_⟩
        · exact ⟨d.x, d.y, hglyph, hcol, hcol', hrow, hrow', .inl heq⟩
        · exact ⟨d.x, d.y, hglyph, hcol, hcol', hrow, hrow', .inr (.inl heq)⟩
        · exact ⟨d.x, d.y, hglyph, hcol, hcol', hrow, hrow', .inr (.inr hwraps)⟩
      rw [int_eq_iff.2 hnot.2.2] at helement
      exact .of_pixel ⟨hcol, by omega⟩ ⟨hrow, by omega⟩ helement hglyph

/-- The bottom line of a rectangle is on the edge of the window. -/
def TouchesBottom (win : Window) (x y width height : Int) : Prop :=
  0 ≤ y ∧ y < win.height ∧ y + height = win.height ∧ Fits (x + width) ∧
    ∃ px, x ≤ px ∧ px < x + width ∧ 0 < px ∧ px < win.width

/-- The right line of a rectangle is on the edge of the window. -/
def TouchesRight (win : Window) (x y width height : Int) : Prop :=
  0 ≤ win.width ∧ x < win.width ∧ x + width = win.width ∧ Fits (y + height) ∧
    ∃ py, y ≤ py ∧ py < y + height ∧ 0 ≤ py ∧ py < win.height

section Rect

variable {width height : Int}

/-- A rectangle that `drawRect` draws. -/
structure Drawable (win : Window) (x y width height : Int) : Prop where
  left : x < win.width
  top : y < win.height
  wide : 0 ≤ width
  high : 0 ≤ height
  right : 0 ≤ x + width ∧ x + width < 2147483648
  bottom : 0 ≤ y + height ∧ y + height < 2147483648

theorem drawable_iff (hx : Fits x) (hy : Fits y) (hwidth : Fits width) (hheight : Fits height) :
    Drawable win x y width height ↔
      ¬(x ≥ win.width ∨ int (x + width) < 0 ∨ y ≥ win.height ∨ int (y + height) < 0 ∨ width < 0 ∨
        height < 0) := by
  have hw := win.width_fits
  have hh := win.height_fits
  constructor
  · intro h hnot
    have h1 := int_eq (by have := h.right; omega) h.right.2
    have h2 := int_eq (by have := h.bottom; omega) h.bottom.2
    have := h.left
    have := h.top
    have := h.wide
    have := h.high
    have := h.right
    have := h.bottom
    omega
  · intro h
    unfold int Fits at *
    constructor <;> omega

theorem mem_acrossLoop {left py t : Int} (hx : Fits x) (hwidth : 0 ≤ width)
    (hright : x + width < 2147483648) (d : Dot) :
    d ∈ acrossLoop win left x py t width.toNat ↔
      d.element = t + (d.x - x) ∧ d.y = py ∧ x ≤ d.x ∧ d.x < x + width ∧ left ≤ d.x ∧
        d.x < win.width := by
  have hint (i : Nat) (hi : i < width.toNat) : int (x + i) = x + i :=
    int_eq (by have := hx.1; omega) (by omega)
  rw [acrossLoop, List.mem_filterMap]
  constructor
  · rintro ⟨i, hi, hd⟩
    rw [List.mem_range] at hi
    rw [hint i hi, Option.ite_none_right_eq_some, Option.some_inj] at hd
    obtain ⟨hcol, rfl⟩ := hd
    dsimp only
    omega
  · rintro ⟨helement, hrow, hle, hlt, hleft, hin⟩
    refine ⟨(d.x - x).toNat, List.mem_range.2 (by omega), ?_⟩
    rw [hint _ (by omega), Int.toNat_of_nonneg (by omega), if_pos (by omega), ← hrow, ← helement,
      show x + (d.x - x) = d.x by ring]

theorem mem_downLoop {px t : Int} (hy : Fits y) (hheight : 0 ≤ height)
    (hbottom : y + height < 2147483648) (d : Dot) :
    d ∈ downLoop win y px t height.toNat ↔
      d.element = t + int ((d.y - y) * win.width) ∧ d.x = px ∧ y ≤ d.y ∧ d.y < y + height ∧
      0 ≤ d.y ∧
        d.y < win.height := by
  have hint (i : Nat) (hi : i < height.toNat) : int (y + i) = y + i :=
    int_eq (by have := hy.1; omega) (by omega)
  rw [downLoop, List.mem_filterMap]
  constructor
  · rintro ⟨i, hi, hd⟩
    rw [List.mem_range] at hi
    rw [hint i hi, Option.ite_none_right_eq_some, Option.some_inj] at hd
    obtain ⟨hrow, rfl⟩ := hd
    dsimp only
    exact ⟨by rw [add_sub_cancel_left], rfl, by omega, by omega, hrow⟩
  · rintro ⟨helement, hcol, hle, hlt, hin⟩
    refine ⟨(d.y - y).toNat, List.mem_range.2 (by omega), ?_⟩
    rw [hint _ (by omega), Int.toNat_of_nonneg (by omega), if_pos (by omega), ← hcol, ← helement,
      show y + (d.y - y) = d.y by ring]

theorem mem_if_nil {p : Prop} [Decidable p] {l : List Dot} {d : Dot} :
    d ∈ (if p then l else []) ↔ p ∧ d ∈ l := by
  split_ifs with h
  · simp [h]
  · simp [h]

/-- `(px, py)` is on one of the lines that are drawn. -/
def OnLine (win : Window) (x y width height px py : Int) : Prop :=
  (0 ≤ y ∧ py = y ∧ x ≤ px ∧ px < x + width ∧ 0 ≤ px ∧ px < win.width) ∨
  (y + height ≤ win.height ∧ 0 ≤ y ∧ py = y + height ∧ x ≤ px ∧ px < x + width ∧
    1 ≤ px ∧ px < win.width) ∨
  (0 ≤ x ∧ px = x ∧ y ≤ py ∧ py < y + height ∧ 0 ≤ py ∧ py < win.height) ∨
  (x + width ≤ win.width ∧ px = x + width ∧ y ≤ py ∧ py < y + height ∧ 0 ≤ py ∧ py < win.height)

/-- Where `drawRect` has row `py` begin. -/
def rowStart (win : Window) (y py : Int) : Int := int (y * win.width) + int ((py - y) * win.width)

/-- What `drawRect` writes to. -/
theorem mem_drawRect (hx : Fits x) (hy : Fits y) (hwidth : Fits width) (hheight : Fits height)
    (d : Dot) :
    d ∈ drawRect win x y width height ↔
      Drawable win x y width height ∧ d.element = rowStart win y d.y + d.x ∧
        OnLine win x y width height d.x d.y := by
  unfold drawRect OnLine rowStart
  by_cases hout : x ≥ win.width ∨ int (x + width) < 0 ∨ y ≥ win.height ∨ int (y + height) < 0 ∨
      width < 0 ∨ height < 0
  · rw [if_pos hout]
    refine ⟨fun h => absurd h (by simp), fun h => ?_⟩
    exact absurd hout ((drawable_iff hx hy hwidth hheight).1 h.1)
  · have hdraw := (drawable_iff hx hy hwidth hheight).2 hout
    have hright : int (x + width) = x + width :=
      int_eq (by have := hdraw.right; omega) hdraw.right.2
    have hbottom : int (y + height) = y + height :=
      int_eq (by have := hdraw.bottom; omega) hdraw.bottom.2
    have htop : ∀ py, py = y → int ((py - y) * win.width) = 0 := by
      rintro py rfl
      rw [sub_self, zero_mul]
      rfl
    have hlow : ∀ py, py = y + height →
        int ((py - y) * win.width) = int (height * win.width) := by
      rintro py rfl
      rw [add_sub_cancel_left]
    rw [if_neg hout, hright, hbottom]
    simp only [List.mem_append, mem_if_nil, mem_acrossLoop hx hdraw.wide hdraw.right.2,
      mem_downLoop hy hdraw.high hdraw.bottom.2]
    constructor
    · rintro (((⟨hy0, he, hdy, hrest⟩ | ⟨hle, hy0, he, hdy, hrest⟩) | ⟨hx0, he, hdx, hrest⟩) |
        ⟨hle, he, hdx, hrest⟩)
      · have := htop _ hdy
        exact ⟨hdraw, by omega, .inl ⟨hy0, hdy, hrest⟩⟩
      · have := hlow _ hdy
        exact ⟨hdraw, by omega, .inr (.inl ⟨hle, hy0, hdy, hrest⟩)⟩
      · exact ⟨hdraw, by omega, .inr (.inr (.inl ⟨hx0, hdx, hrest⟩))⟩
      · exact ⟨hdraw, by omega, .inr (.inr (.inr ⟨hle, hdx, hrest⟩))⟩
    · rintro ⟨-, he, (⟨hy0, hdy, hrest⟩ | ⟨hle, hy0, hdy, hrest⟩ | ⟨hx0, hdx, hrest⟩ |
        ⟨hle, hdx, hrest⟩)⟩
      · have := htop _ hdy
        exact .inl (.inl (.inl ⟨hy0, by omega, hdy, hrest⟩))
      · have := hlow _ hdy
        exact .inl (.inl (.inr ⟨hle, hy0, by omega, hdy, hrest⟩))
      · exact .inl (.inr ⟨hx0, by omega, hdx, hrest⟩)
      · exact .inr ⟨hle, by omega, hdx, hrest⟩

/-- A row in which `drawRect` draws does not begin where it should: the products have wrapped. -/
def Wraps (win : Window) (x y width height : Int) : Prop :=
  Drawable win x y width height ∧ ∃ px py, OnLine win x y width height px py ∧
    rowStart win y py ≠ py * win.width

/-- `drawRect` keeps to the window exactly if the rectangle does not end on its far edges and no row
is misplaced. -/
theorem drawRect_sound_iff (hx : Fits x) (hy : Fits y) (hwidth : Fits width)
    (hheight : Fits height) :
    (∀ d ∈ drawRect win x y width height, d.Sound win (Border x y width height)) ↔
      ¬TouchesBottom win x y width height ∧ ¬TouchesRight win x y width height ∧
        ¬Wraps win x y width height := by
  have hmem := @mem_drawRect win x y width height hx hy hwidth hheight
  constructor
  · intro h
    refine ⟨?_, ?_, ?_⟩
    · rintro ⟨hy0, htop, hbottom, hfits, px, hle, hlt, hpos, hin⟩
      have := h ⟨px, y + height, rowStart win y (y + height) + px⟩ ((hmem _).2
        ⟨⟨by omega, htop, by omega, by omega, ⟨by omega, hfits.2⟩,
          ⟨by omega, by have := win.height_fits.2; omega⟩⟩, rfl,
          .inr (.inl ⟨by omega, hy0, rfl, hle, hlt, hpos, hin⟩)⟩)
      have hrow := this.row.2
      dsimp only at hrow
      omega
    · rintro ⟨hpos, hleft, hright, hfits, py, hle, hlt, hrow, hrow'⟩
      have := h ⟨x + width, py, rowStart win y py + (x + width)⟩ ((hmem _).2
        ⟨⟨hleft, by omega, by omega, by omega,
          ⟨by omega, by have := win.width_fits.2; omega⟩, ⟨by omega, hfits.2⟩⟩, rfl,
          .inr (.inr (.inr ⟨by omega, rfl, hle, hlt, hrow, hrow'⟩))⟩)
      have hcol := this.column.2
      dsimp only at hcol
      omega
    · rintro ⟨hdraw, px, py, hline, hne⟩
      have := h ⟨px, py, rowStart win y py + px⟩ ((hmem _).2 ⟨hdraw, rfl, hline⟩)
      have hpixel := this.pixel
      dsimp only at hpixel
      omega
  · rintro ⟨hnb, hnr, hnw⟩ d hd
    obtain ⟨hdraw, he, hline⟩ := (hmem d).1 hd
    have hstart : rowStart win y d.y = d.y * win.width :=
      by_contra fun hne => hnw ⟨hdraw, d.x, d.y, hline, hne⟩
    rw [hstart] at he
    have hleft := hdraw.left
    have htop := hdraw.top
    have hwide := hdraw.wide
    have hhigh := hdraw.high
    have hxw := hdraw.right
    have hyh := hdraw.bottom
    rcases hline with h | h | h | h
    · exact .of_pixel (by omega) (by omega) he (by unfold Border; omega)
    · have hne : y + height ≠ win.height := fun heq =>
        hnb ⟨by omega, htop, heq, ⟨by omega, hxw.2⟩, d.x, by omega, by omega, by omega, by omega⟩
      exact .of_pixel (by omega) (by omega) he (by unfold Border; omega)
    · exact .of_pixel (by omega) (by omega) he (by unfold Border; omega)
    · have hne : x + width ≠ win.width := fun heq =>
        hnr ⟨by omega, hleft, heq, ⟨by omega, hyh.2⟩, d.y, by omega, by omega, by omega, by omega⟩
      exact .of_pixel (by omega) (by omega) he (by unfold Border; omega)

end Rect

/-! ## Strings -/

/-- `(px, py)` is on the picture of a character of a string at `(x, y)`. -/
def Lettering (character : Font) (x y : Int) (letters : List ((Int × Int) × UInt8))
    (px py : Int) : Prop :=
  ∃ q ∈ letters, Glyph character (int (x + q.1.1)) (int (y + q.1.2)) q.2 px py

/-- `drawString` keeps to the window exactly if no character that it draws spills. -/
theorem drawString_sound_iff {str : List UInt8} {width height : Int} :
    (∀ d ∈ drawString character win str A x y width height,
      d.Sound win (Lettering character x y (drawStringLoop width height str (0, 0)))) ↔
      A = 0 ∨ ∀ q ∈ drawStringLoop width height str (0, 0), q.2 ≠ newline →
        0 ≤ int (x + q.1.1) ∧ int (x + q.1.1) ≤ win.width ∧ 0 ≤ int (y + q.1.2) ∧
          int (y + q.1.2) ≤ win.height →
        ¬Spills character win (int (x + q.1.1)) (int (y + q.1.2)) q.2 := by
  constructor
  · intro h
    by_cases hA : A = 0
    · exact .inl hA
    · refine .inr fun q hq hc hin => ?_
      -- the character alone keeps to the window
      have hsound := (@drawCharacter_sound_iff character win _ _ q.2 A (fits_int (x + q.1.1))
        (fits_int (y + q.1.2))).1 fun d hd => by
          have := h d (List.mem_flatMap.2 ⟨q, hq, by
            rw [drawStringChar, if_pos ⟨hc, hin⟩]
            exact hd⟩)
          exact { this with inShape := ((mem_drawCharacter (fits_int _) (fits_int _) d).1 hd).2.1 }
      exact hsound.resolve_left hA
  · intro h d hd
    obtain ⟨q, hq, hd⟩ := List.mem_flatMap.1 hd
    rw [drawStringChar, mem_if_nil] at hd
    have hsound := (drawCharacter_sound_iff (A := A) (fits_int _) (fits_int _)).2
      (h.imp id fun h => h q hq hd.1.1 hd.1.2) d hd.2
    exact { hsound with inShape := ⟨q, hq, hsound.inShape⟩ }

/-- When `drawCharacter`, `drawString` and `drawRect` keep to the window. -/
theorem draws_inside_iff {str : List UInt8} {width height : Int} (hx : Fits x) (hy : Fits y)
    (hwidth : Fits width) (hheight : Fits height) :
    ((∀ d ∈ drawCharacter character win x y ch A, d.Sound win (Glyph character x y ch)) ↔
      A = 0 ∨ ¬Spills character win x y ch) ∧
    ((∀ d ∈ drawString character win str A x y width height,
      d.Sound win (Lettering character x y (drawStringLoop width height str (0, 0)))) ↔
      A = 0 ∨ ∀ q ∈ drawStringLoop width height str (0, 0), q.2 ≠ newline →
        0 ≤ int (x + q.1.1) ∧ int (x + q.1.1) ≤ win.width ∧ 0 ≤ int (y + q.1.2) ∧
          int (y + q.1.2) ≤ win.height →
        ¬Spills character win (int (x + q.1.1)) (int (y + q.1.2)) q.2) ∧
    ((∀ d ∈ drawRect win x y width height, d.Sound win (Border x y width height)) ↔
      ¬TouchesBottom win x y width height ∧ ¬TouchesRight win x y width height ∧
        ¬Wraps win x y width height) :=
  ⟨drawCharacter_sound_iff hx hy, drawString_sound_iff, drawRect_sound_iff hx hy hwidth hheight⟩

/-- A window of one pixel. -/
def pixelWindow : Window := ⟨1, 1, by unfold Fits; decide, by unfold Fits; decide⟩

/-- A window of three by three pixels. -/
def smallWindow : Window := ⟨3, 3, by unfold Fits; decide, by unfold Fits; decide⟩

/-- The border of a rectangle in the corner is drawn in the window. -/
theorem draws_inside_iff_corner : drawRect smallWindow 0 0 1 1 ≠ [] ∧
    ∀ d ∈ drawRect smallWindow 0 0 1 1, d.Sound smallWindow (Border 0 0 1 1) := by
  refine ⟨by decide, ?_⟩
  have hw : smallWindow.width = 3 := rfl
  have hh : smallWindow.height = 3 := rfl
  refine (@draws_inside_iff (fun _ _ _ => 0) smallWindow 0 0 0 0 [] 1 1 (by unfold Fits; decide)
    (by unfold Fits; decide) (by unfold Fits; decide) (by unfold Fits; decide)).2.2.2 ⟨?_, ?_, ?_⟩
  · rintro ⟨-, -, hbottom, -⟩
    omega
  · rintro ⟨-, -, hright, -⟩
    omega
  · rintro ⟨-, px, py, hline, hne⟩
    unfold OnLine at hline
    unfold rowStart int at hne
    rw [hw] at hne
    omega

/-- The border of a rectangle as large as its window is drawn behind the end of the buffer. -/
theorem border_leaves_buf : ∃ d ∈ drawRect pixelWindow 0 0 1 1,
    d = ⟨1, 0, 1⟩ ∧ ¬d.element < pixelWindow.width * pixelWindow.height :=
  ⟨⟨1, 0, 1⟩, by decide, rfl, by decide⟩

end Shapes

end Xv6.Ulib.UserWindow
