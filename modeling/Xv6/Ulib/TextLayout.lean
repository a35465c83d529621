import Xv6.Ulib.UserWindow
import Mathlib.Order.Defs.LinearOrder

/-!
# Where the characters of a text are

`ulib/user_handler.c` and `ulib/user_window.c` lay out a text in lines, in characters and in
pixels: a line ends with a newline, or when it has no more room.

* `layout_agrees`: the four loops that do it agree.
* `click_iff`: when `getInputOffsetFromMousePosition` finds the character under the mouse, or the
  end of its line.  It does not find the end of the text.
-/

namespace Xv6.Ulib.TextLayout

open Verified Verified.CInt UserWindow

/-- `PHYSTOP`. -/
abbrev PHYSTOP : Nat := 0xE000000

/-- A string in the memory of a process. -/
structure Text where
  chars : List UInt8
  noNul : 0 ∉ chars
  inMemory : chars.length < PHYSTOP

/-! ## The loops -/

/-- `charPerLine`. -/
def charPerLine (width : Int) : Int := width.tdiv CHARACTER_WIDTH

/-- The loop of `getMouseXFromOffset` and `getMouseYFromOffset`. -/
def offsetLoop (charPerLine : Int) : List UInt8 → Int × Int → Int × Int
  | [], p => p
  | c :: str, p => offsetLoop charPerLine str (advance 1 1 charPerLine c p)

/-- `getMouseXFromOffset`. -/
def getMouseXFromOffset (str : List UInt8) (width : Int) (offset : Nat) : Int :=
  (offsetLoop (charPerLine width) (str.take offset) (0, 0)).1

/-- `getMouseYFromOffset`. -/
def getMouseYFromOffset (str : List UInt8) (width : Int) (offset : Nat) : Int :=
  (offsetLoop (charPerLine width) (str.take offset) (0, 0)).2

/-- The loop of `getInputOffsetFromMousePosition`. -/
def inputLoop (charPerLine mouse_x mouse_y : Int) : List UInt8 → Int × Int → Nat → Nat → Nat
  | [], _, current_pos, first_y_match_pos =>
      if first_y_match_pos > 0 then first_y_match_pos else current_pos
  | c :: str, p, current_pos, first_y_match_pos =>
      if mouse_y = p.2 then
        if mouse_x = p.1 then current_pos
        else inputLoop charPerLine mouse_x mouse_y str (advance 1 1 charPerLine c p)
          (current_pos + 1) current_pos
      else inputLoop charPerLine mouse_x mouse_y str (advance 1 1 charPerLine c p)
        (current_pos + 1) first_y_match_pos

/-- `getInputOffsetFromMousePosition`. -/
def getInputOffsetFromMousePosition (str : List UInt8) (width mouse_x mouse_y : Int) : Nat :=
  if mouse_y < 0 then 0 else inputLoop (charPerLine width) mouse_x mouse_y str (0, 0) 0 0

/-- The loop of `drawInputFieldWidget` for the cursor. -/
def cursorLoop (width height : Int) : List UInt8 → Int × Int → Int × Int
  | [], p => p
  | c :: str, p =>
      if p.2 > height then p
      else cursorLoop width height str (advance CHARACTER_WIDTH CHARACTER_HEIGHT width c p)

/-- A `Widget` that is an input field; the scroll offsets are its window's. -/
structure InputField where
  xmin : Int
  ymin : Int
  xmax : Int
  ymax : Int
  scrollable : Int
  A : UInt8
  text : List UInt8
  current_pos : Nat
  scrollOffsetX : Int
  scrollOffsetY : Int

/-- `drawFillRect`: what it writes to. -/
def drawFillRect (win : Window) (A : UInt8) (x y width height : Int) : List Dot :=
  if x ≥ win.width ∨ int (x + width) < 0 ∨ y ≥ win.height ∨ int (y + height) < 0 ∨ width < 0 ∨
      height < 0 then []
  else
    let (x, width) := if x < 0 then (0, int (width + x)) else (x, width)
    let (y, height) := if y < 0 then (0, int (height + y)) else (y, height)
    let width := if int (x + width) > win.width then int (win.width - x) else width
    let height := if int (y + height) > win.height then int (win.height - y) else height
    (List.range height.toNat).flatMap fun i : Nat =>
      (List.range width.toNat).flatMap fun j : Nat =>
        if int (x + j) > 0 ∧ int (x + j) < win.width ∧ int (y + i) > 0 ∧
            int (y + i) < win.height then
          drawPointAlpha ⟨int (x + j), int (y + i),
            int (y + i) * win.width + int (x + j)⟩ A
        else []

namespace InputField

variable (w : InputField)

/-- `xmin` and `ymin`, as the functions draw it. -/
def origin : Int × Int :=
  if w.scrollable ≠ 0 then (int (w.xmin - w.scrollOffsetX), int (w.ymin - w.scrollOffsetY))
  else (w.xmin, w.ymin)

def width : Int := int (w.xmax - w.xmin)

def height : Int := int (w.ymax - w.ymin)

/-- `offset_x` and `offset_y` of the cursor. -/
def cursor : Int × Int := cursorLoop w.width w.height (w.text.take w.current_pos) (0, 0)

end InputField

/-- `drawInputFieldWidget`: what it writes to. -/
def drawInputFieldWidget (character : Font) (win : Window) (w : InputField) : List Dot :=
  drawString character win w.text w.A w.origin.1 w.origin.2 w.width w.height ++
    if w.cursor.2 < w.height then
      drawFillRect win 255 (int (w.origin.1 + w.cursor.1)) (int (int (w.origin.2 + w.cursor.2) + 1))
        1 (CHARACTER_HEIGHT - 4)
    else []

/-! ## Positions -/

section Positions

variable {t : Text} {width height cpl : Int} {k : Nat}

/-- The position of character `k`, counted in characters. -/
def position (t : Text) (cpl : Int) (k : Nat) : Int × Int :=
  offsetLoop cpl (t.chars.take k) (0, 0)

theorem getMouseXFromOffset_eq :
    getMouseXFromOffset t.chars width k = (position t (charPerLine width) k).1 := rfl

theorem getMouseYFromOffset_eq :
    getMouseYFromOffset t.chars width k = (position t (charPerLine width) k).2 := rfl

theorem offsetLoop_append (s r : List UInt8) (p : Int × Int) :
    offsetLoop cpl (s ++ r) p = offsetLoop cpl r (offsetLoop cpl s p) := by
  induction s generalizing p with
  | nil => rfl
  | cons c s ih => exact ih _

@[simp] theorem position_zero : position t cpl 0 = (0, 0) := rfl

theorem position_succ (h : k < t.chars.length) :
    position t cpl (k + 1) = advance 1 1 cpl t.chars[k] (position t cpl k) := by
  rw [position, ← List.take_append_getElem h, offsetLoop_append]
  rfl

/-- One character takes one column, or one row. -/
theorem position_bounds (h : k ≤ t.chars.length) :
    (0 ≤ (position t cpl k).1 ∧ (position t cpl k).1 ≤ k) ∧
      0 ≤ (position t cpl k).2 ∧ (position t cpl k).2 ≤ k := by
  induction k with
  | zero => simp
  | succ k ih =>
      have hmem := t.inMemory
      simp only [PHYSTOP] at hmem
      specialize ih (by omega)
      rw [position_succ (by omega), advance, int_eq (by omega) (by omega),
        int_eq (by omega) (by omega)]
      split_ifs <;> dsimp only <;> omega

/-- The next character is to the right, or starts a line. -/
theorem position_next (h : k < t.chars.length) :
    (position t cpl (k + 1) = ((position t cpl k).1 + 1, (position t cpl k).2) ∧
      t.chars[k] ≠ newline ∧ (position t cpl k).1 + 1 ≤ cpl) ∨
    (position t cpl (k + 1) = (0, (position t cpl k).2 + 1) ∧
      (t.chars[k] = newline ∨ cpl < (position t cpl k).1 + 1)) := by
  have hmem := t.inMemory
  simp only [PHYSTOP] at hmem
  have hbounds := @position_bounds t cpl k h.le
  rw [position_succ h, advance, int_eq (by omega) (by omega), int_eq (by omega) (by omega)]
  split
  · split
    · exact .inr ⟨rfl, .inr (by omega)⟩
    · exact .inl ⟨rfl, by assumption, by omega⟩
  · exact .inr ⟨rfl, .inl (by tauto)⟩

/-- Later characters are on later lines, or on the same line to the right. -/
theorem position_lt {i j : Nat} (hij : i < j) (hj : j ≤ t.chars.length) :
    (position t cpl i).2 < (position t cpl j).2 ∨
      (position t cpl i).2 = (position t cpl j).2 ∧
      (position t cpl i).1 < (position t cpl j).1 := by
  induction j with
  | zero => omega
  | succ j ih =>
      have hstep := @position_next t cpl j (by omega)
      rcases Nat.lt_succ_iff_lt_or_eq.1 hij with hlt | rfl
      · have := ih hlt (by omega)
        rcases hstep with ⟨heq, -⟩ | ⟨heq, -⟩
        · rw [heq]
          dsimp only
          omega
        · rw [heq]
          dsimp only
          omega
      · rcases hstep with ⟨heq, -⟩ | ⟨heq, -⟩
        · rw [heq]
          dsimp only
          omega
        · rw [heq]
          dsimp only
          omega

theorem position_mono {i j : Nat} (hij : i ≤ j) (hj : j ≤ t.chars.length) :
    (position t cpl i).2 ≤ (position t cpl j).2 := by
  rcases Nat.lt_or_eq_of_le hij with hlt | rfl
  · have := @position_lt t cpl i j hlt hj
    omega
  · exact le_refl _

theorem position_inj {i j : Nat} (hi : i ≤ t.chars.length) (hj : j ≤ t.chars.length)
    (h : position t cpl i = position t cpl j) : i = j := by
  rcases lt_trichotomy i j with hlt | heq | hgt
  · have := @position_lt t cpl i j hlt hj
    rw [h] at this
    omega
  · exact heq
  · have := @position_lt t cpl j i hgt hi
    rw [h] at this
    omega

/-! ## Pixels -/

/-- A position in pixels. -/
def pixel (p : Int × Int) : Int × Int := (CHARACTER_WIDTH * p.1, CHARACTER_HEIGHT * p.2)

theorem wraps_iff (hwidth : 0 ≤ width) (x : Int) :
    9 * x + 9 > width ↔ x + 1 > charPerLine width := by
  rw [charPerLine, Int.tdiv_eq_ediv_of_nonneg hwidth]
  simp only [CHARACTER_WIDTH, Nat.cast_ofNat]
  omega

/-- The same step in pixels, if the next row is not too far down. -/
theorem advance_pixel (hwidth : 0 ≤ width) (h : k < t.chars.length)
    (hrow : 18 * (position t (charPerLine width) (k + 1)).2 < 2147483648) :
    advance CHARACTER_WIDTH CHARACTER_HEIGHT width t.chars[k]
        (pixel (position t (charPerLine width) k)) =
      pixel (position t (charPerLine width) (k + 1)) := by
  have hmem := t.inMemory
  simp only [PHYSTOP] at hmem
  have hbounds := @position_bounds t (charPerLine width) k h.le
  have hnext := @position_next t (charPerLine width) k h
  have hwrap := wraps_iff hwidth (position t (charPerLine width) k).1
  generalize charPerLine width = cpl at *
  have hx : int (9 * (position t cpl k).1 + 9) = 9 * (position t cpl k).1 + 9 :=
    int_eq (by omega) (by omega)
  unfold advance pixel
  simp only [CHARACTER_WIDTH, CHARACTER_HEIGHT, Nat.cast_ofNat, hx]
  rcases hnext with ⟨heq, hc, hle⟩ | ⟨heq, hc⟩
  · rw [if_pos hc, if_neg (by omega), heq]
    exact Prod.ext (by dsimp only; omega) rfl
  · have hy : int (18 * (position t cpl k).2 + 18) = 18 * ((position t cpl k).2 + 1) := by
      rw [heq] at hrow
      dsimp only at hrow
      rw [int_eq (by omega) (by omega)]
      omega
    rw [heq, hy]
    rcases hc with hc | hc
    · rw [if_neg (not_not_intro hc)]
      rfl
    · rw [if_pos (hwrap.2 hc), ite_self]
      rfl

/-- The rows above a row of the field are in the field. -/
theorem pixel_visible {i : Nat} (hik : i ≤ k) (hk : k ≤ t.chars.length)
    (hin : 18 * (position t cpl k).2 ≤ height) : ¬(pixel (position t cpl i)).2 > height := by
  have hmono := @position_mono t cpl i k hik hk
  rw [pixel]
  simp only [CHARACTER_HEIGHT, Nat.cast_ofNat]
  omega

/-- `drawString` comes to character `k`, if it is not below the field. -/
theorem drawStringLoop_getElem? (hwidth : 0 ≤ width) (hheight : height < 2147483648) {i : Nat}
    (hik : i ≤ k) (hk : k < t.chars.length)
    (hin : 18 * (position t (charPerLine width) k).2 ≤ height) :
    (drawStringLoop width height (t.chars.drop i)
        (pixel (position t (charPerLine width) i)))[k - i]? =
      some (pixel (position t (charPerLine width) k), t.chars[k]) := by
  induction hd : k - i generalizing i with
  | zero =>
      obtain rfl : i = k := by omega
      rw [List.drop_eq_getElem_cons hk, drawStringLoop, if_neg (pixel_visible hik hk.le hin)]
      rfl
  | succ d ih =>
      have hmono := @position_mono t (charPerLine width) (i + 1) k (by omega) hk.le
      rw [List.drop_eq_getElem_cons (by omega : i < t.chars.length), drawStringLoop,
        if_neg (pixel_visible hik hk.le hin), List.getElem?_cons_succ,
          advance_pixel hwidth (by omega) (by omega)]
      exact ih (by omega) (by omega)

/-- The cursor comes to position `k`, if it is not below the field. -/
theorem cursorLoop_eq (hwidth : 0 ≤ width) (hheight : height < 2147483648) {i : Nat}
    (hik : i ≤ k) (hk : k ≤ t.chars.length)
    (hin : 18 * (position t (charPerLine width) k).2 ≤ height) :
    cursorLoop width height ((t.chars.take k).drop i)
        (pixel (position t (charPerLine width) i)) =
      pixel (position t (charPerLine width) k) := by
  induction hd : k - i generalizing i with
  | zero =>
      obtain rfl : i = k := by omega
      rw [List.drop_eq_nil_of_le (by rw [List.length_take]; omega), cursorLoop]
  | succ d ih =>
      have hmono := @position_mono t (charPerLine width) (i + 1) k (by omega) hk
      have hlt : i < (t.chars.take k).length := by
        rw [List.length_take]
        omega
      rw [List.drop_eq_getElem_cons hlt, cursorLoop,
        if_neg (pixel_visible hik hk hin), List.getElem_take,
          advance_pixel hwidth (by omega) (by omega)]
      exact ih (by omega) (by omega)

/-- Characters and cursor are where the counting functions put them, row by row down to the end of
the field. -/
theorem layout_agrees (hwidth : 0 ≤ width) (hheight : height < 2147483648)
    (hk : k ≤ t.chars.length)
    (hin : CHARACTER_HEIGHT * getMouseYFromOffset t.chars width k ≤ height) :
    (∀ h : k < t.chars.length, (drawStringLoop width height t.chars (0, 0))[k]? =
      some ((CHARACTER_WIDTH * getMouseXFromOffset t.chars width k,
        CHARACTER_HEIGHT * getMouseYFromOffset t.chars width k), t.chars[k])) ∧
    ∀ w : InputField, w.text = t.chars → w.current_pos = k → w.width = width →
      w.height = height →
      w.cursor = (CHARACTER_WIDTH * getMouseXFromOffset t.chars width k,
        CHARACTER_HEIGHT * getMouseYFromOffset t.chars width k) := by
  constructor
  · intro h
    exact drawStringLoop_getElem? hwidth hheight (Nat.zero_le k) h hin
  · rintro w htext hpos rfl rfl
    rw [InputField.cursor, htext, hpos]
    exact cursorLoop_eq hwidth hheight (Nat.zero_le k) hk hin

/-- The cursor behind a line that is full. -/
theorem layout_agrees_wrap :
    InputField.cursor ⟨0, 0, 18, 36, 0, 0, [97, 98, 99], 3, 0, 0⟩ = (0, 18) := by
  have h := (@layout_agrees ⟨[97, 98, 99], by decide, by decide⟩ 18 36 3 (by decide) (by decide)
    (by decide) (by decide)).2
  exact (h _ rfl rfl (by decide) (by decide)).trans (by decide)

/-! ## From a position to an offset -/

/-- The last of the first `n` offsets that is on line `y`, or 0. -/
def lastOn (t : Text) (cpl y : Int) : Nat → Nat
  | 0 => 0
  | n + 1 => if y = (position t cpl n).2 then n else lastOn t cpl y n

section Click

variable {x y : Int} {n : Nat}

theorem le_lastOn {i : Nat} (hi : i < n) (hy : (position t cpl i).2 = y) :
    i ≤ lastOn t cpl y n := by
  induction n with
  | zero => omega
  | succ n ih =>
      rw [lastOn]
      split_ifs with h
      · omega
      · exact ih (by
          rcases Nat.lt_succ_iff_lt_or_eq.1 hi with hlt | rfl
          · exact hlt
          · exact absurd hy.symm h)

theorem lastOn_pos (h : 0 < lastOn t cpl y n) :
    lastOn t cpl y n < n ∧ (position t cpl (lastOn t cpl y n)).2 = y := by
  induction n with
  | zero => exact absurd h (Nat.lt_irrefl 0)
  | succ n ih =>
      rw [lastOn] at h ⊢
      split_ifs at h ⊢ with hy
      · exact ⟨by omega, hy.symm⟩
      · exact ⟨by have := (ih h).1; omega, (ih h).2⟩

/-- The mouse is on a character. -/
theorem inputLoop_hit {i f j : Nat} (hij : i ≤ j) (hj : j < t.chars.length) :
    inputLoop cpl (position t cpl j).1 (position t cpl j).2 (t.chars.drop i) (position t cpl i) i
      f = j := by
  induction hd : j - i generalizing i f with
  | zero =>
      obtain rfl : i = j := by omega
      rw [List.drop_eq_getElem_cons hj, inputLoop, if_pos rfl, if_pos rfl]
  | succ d ih =>
      have hlt := @position_lt t cpl i j (by omega) hj.le
      rw [List.drop_eq_getElem_cons (by omega : i < t.chars.length), inputLoop,
        ← position_succ (by omega)]
      split_ifs with hy hx
      · omega
      · exact ih (by omega) (by omega)
      · exact ih (by omega) (by omega)

/-- The mouse is on no character: the last one on the line counts. -/
theorem inputLoop_miss {i : Nat} (hi : i ≤ t.chars.length)
    (hmiss : ∀ j < t.chars.length, position t cpl j ≠ (x, y)) :
    inputLoop cpl x y (t.chars.drop i) (position t cpl i) i (lastOn t cpl y i) =
      if 0 < lastOn t cpl y t.chars.length then lastOn t cpl y t.chars.length
      else t.chars.length := by
  induction hd : t.chars.length - i generalizing i with
  | zero =>
      obtain rfl : i = t.chars.length := by omega
      rw [List.drop_eq_nil_of_le le_rfl, inputLoop]
  | succ d ih =>
      have hnext := ih (i := i + 1) (by omega) (by omega)
      rw [lastOn, position_succ (by omega)] at hnext
      rw [List.drop_eq_getElem_cons (by omega : i < t.chars.length), inputLoop]
      by_cases hy : y = (position t cpl i).2
      · rw [if_pos hy] at hnext
        rw [if_pos hy, if_neg (fun hx => hmiss i (by omega) (Prod.ext hx.symm hy.symm))]
        exact hnext
      · rw [if_neg hy] at hnext
        rw [if_neg hy]
        exact hnext

/-- What the click finds, if it is below the top. -/
theorem click_hit {width : Int} {j : Nat} (hj : j < t.chars.length) :
    getInputOffsetFromMousePosition t.chars width (position t (charPerLine width) j).1
      (position t (charPerLine width) j).2 = j := by
  have hbounds := @position_bounds t (charPerLine width) j hj.le
  rw [getInputOffsetFromMousePosition, if_neg (by omega)]
  exact inputLoop_hit (Nat.zero_le j) hj

theorem click_miss {width : Int} (hy : 0 ≤ y)
    (hmiss : ∀ j < t.chars.length, position t (charPerLine width) j ≠ (x, y)) :
    getInputOffsetFromMousePosition t.chars width x y =
      if 0 < lastOn t (charPerLine width) y t.chars.length then
        lastOn t (charPerLine width) y t.chars.length
      else t.chars.length := by
  rw [getInputOffsetFromMousePosition, if_neg (by omega)]
  exact inputLoop_miss (Nat.zero_le _) hmiss

/-- The way back from an offset to itself. -/
theorem click_self_iff (hk : k ≤ t.chars.length) :
    getInputOffsetFromMousePosition t.chars width (getMouseXFromOffset t.chars width k)
        (getMouseYFromOffset t.chars width k) = k ↔
      k < t.chars.length ∨ t.chars.length ≤ 1 ∨
        getMouseYFromOffset t.chars width (t.chars.length - 1) ≠
          getMouseYFromOffset t.chars width t.chars.length := by
  simp only [getMouseXFromOffset_eq, getMouseYFromOffset_eq]
  rcases Nat.lt_or_eq_of_le hk with hlt | rfl
  · exact ⟨fun _ => .inl hlt, fun _ => click_hit hlt⟩
  · have hbounds := @position_bounds t (charPerLine width) t.chars.length le_rfl
    have hmiss : ∀ j < t.chars.length,
        position t (charPerLine width) j ≠ ((position t (charPerLine width) t.chars.length).1,
          (position t (charPerLine width) t.chars.length).2) := fun j hj heq =>
      absurd (position_inj hj.le le_rfl heq) hj.ne
    rw [click_miss hbounds.2.1 hmiss]
    generalize charPerLine width = cpl at *
    constructor
    · intro h
      refine .inr (or_iff_not_imp_left.2 fun hlen hsame => ?_)
      have hle := le_lastOn (by omega : t.chars.length - 1 < t.chars.length) hsame
      rw [if_pos (by omega)] at h
      have := (lastOn_pos (by omega :
        0 < lastOn t cpl (position t cpl t.chars.length).2 t.chars.length)).1
      omega
    · intro h
      split_ifs with hlast
      · obtain ⟨hlt, hon⟩ := lastOn_pos hlast
        have h1 := @position_mono t cpl _ (t.chars.length - 1) (Nat.le_sub_one_of_lt hlt) (by omega)
        have h2 := @position_mono t cpl (t.chars.length - 1) t.chars.length (by omega) le_rfl
        omega
      · rfl

/-- Offset `r` answers a click at `(x, y)`: it is on line `y`, and its end if the click is to the
right of the line. -/
def Answers (t : Text) (width x y : Int) (r : Nat) : Prop :=
  r ≤ t.chars.length ∧ ((∃ k ≤ t.chars.length, getMouseYFromOffset t.chars width k = y) →
    getMouseYFromOffset t.chars width r = y ∧
    ((∀ k ≤ t.chars.length, getMouseYFromOffset t.chars width k = y →
        getMouseXFromOffset t.chars width k < x) →
      ∀ k ≤ t.chars.length, getMouseYFromOffset t.chars width k = y → k ≤ r))

/-- A click beside an empty first line, or to the right of the last one. -/
def Strays (t : Text) (width x y : Int) : Prop :=
  (y = 0 ∧ x ≠ 0 ∧ t.chars.head? = some newline) ∨
    (2 ≤ t.chars.length ∧ y = getMouseYFromOffset t.chars width t.chars.length ∧
      getMouseYFromOffset t.chars width (t.chars.length - 1) = y ∧
      getMouseXFromOffset t.chars width t.chars.length < x)

/-- Line 0 has only offset 0 if it is empty. -/
theorem first_line (hcpl : 1 ≤ cpl) (hlen : 0 < t.chars.length) :
    (t.chars.head? = some newline ∧ (position t cpl 1).2 = 1) ∨
      (t.chars.head? ≠ some newline ∧ (position t cpl 1).2 = 0) := by
  have hnext := @position_next t cpl 0 hlen
  rw [position_zero] at hnext
  rw [List.head?_eq_getElem?, List.getElem?_eq_getElem hlen, Ne, Option.some_inj]
  rcases hnext with ⟨heq, hc, -⟩ | ⟨heq, hc | hc⟩
  · exact .inr ⟨hc, by rw [heq]⟩
  · exact .inl ⟨hc, by rw [heq]; rfl⟩
  · dsimp only at hc
    omega

/-- A click finds an offset of its line, if it does not stray. -/
theorem click_answers_iff (hwidth : 9 ≤ width) (hy : 0 ≤ y) :
    Answers t width x y (getInputOffsetFromMousePosition t.chars width x y) ↔
      ¬Strays t width x y := by
  have hcpl : 1 ≤ charPerLine width := by
    rw [charPerLine, Int.tdiv_eq_ediv_of_nonneg (by omega)]
    simp only [CHARACTER_WIDTH, Nat.cast_ofNat]
    omega
  unfold Answers Strays
  simp only [getMouseXFromOffset_eq, getMouseYFromOffset_eq]
  have hzero := @position_zero t (charPerLine width)
  by_cases hhit : ∃ j < t.chars.length, position t (charPerLine width) j = (x, y)
  · -- the click is on character `j`
    obtain ⟨j, hj, heq⟩ := hhit
    obtain rfl : (position t (charPerLine width) j).1 = x := by rw [heq]
    obtain rfl : (position t (charPerLine width) j).2 = y := by rw [heq]
    rw [click_hit hj]
    generalize charPerLine width = cpl at *
    refine ⟨fun _ => ?_, fun _ => ⟨hj.le, fun _ => ⟨rfl, fun hpast => ?_⟩⟩⟩
    · rintro (⟨hy0, hx0, hhead⟩ | ⟨-, hlast, -, hx⟩)
      · rcases Nat.eq_zero_or_pos j with rfl | hpos
        · rw [hzero] at hx0
          exact hx0 rfl
        · have hmono := @position_mono t cpl 1 j hpos hj.le
          rcases first_line hcpl (by omega : 0 < t.chars.length) with ⟨-, h1⟩ | ⟨h1, -⟩
          · omega
          · exact h1 hhead
      · have := @position_lt t cpl j t.chars.length hj le_rfl
        omega
    · exact absurd (hpast j hj.le rfl) (lt_irrefl _)
  · -- it is on none
    have hmiss : ∀ j < t.chars.length, position t (charPerLine width) j ≠ (x, y) :=
      fun j hj heq => hhit ⟨j, hj, heq⟩
    rw [click_miss hy hmiss]
    generalize charPerLine width = cpl at *
    have hle {i : Nat} (hi : i < t.chars.length) (h : (position t cpl i).2 = y) :=
      le_lastOn hi h
    split_ifs with hlast
    · obtain ⟨hlt, hon⟩ := lastOn_pos hlast
      generalize lastOn t cpl y t.chars.length = r at *
      have hfirst := @position_mono t cpl 1 r hlast hlt.le
      have hlater := @position_mono t cpl r (t.chars.length - 1) (by omega) (by omega)
      have hend := @position_mono t cpl (t.chars.length - 1) t.chars.length (by omega) le_rfl
      constructor
      · rintro ⟨-, hans⟩ (⟨hy0, -, hhead⟩ | ⟨-, hsame, -, hx⟩)
        · rcases first_line hcpl (by omega : 0 < t.chars.length) with ⟨-, h1⟩ | ⟨h1, -⟩
          · omega
          · exact h1 hhead
        · have := (hans ⟨r, hlt.le, hon⟩).2 (fun k hk hky => by
            rcases Nat.lt_or_eq_of_le hk with hklt | rfl
            · have := @position_lt t cpl k t.chars.length hklt le_rfl
              omega
            · exact hx) t.chars.length le_rfl hsame.symm
          omega
      · refine fun hnot => ⟨hlt.le, fun _ => ⟨hon, fun hpast k hk hky => ?_⟩⟩
        rcases Nat.lt_or_eq_of_le hk with hklt | rfl
        · exact hle hklt hky
        · exact absurd (.inr ⟨by omega, hky.symm, by omega, hpast _ le_rfl hky⟩) hnot
    · constructor
      · rintro ⟨-, hans⟩ (⟨hy0, hx0, hhead⟩ | ⟨hlen, -, hsame, -⟩)
        · have hpos : 0 < t.chars.length := by
            rw [List.length_pos_iff]
            rintro hnil
            rw [hnil] at hhead
            exact absurd hhead (by simp)
          have hmono := @position_mono t cpl 1 t.chars.length hpos le_rfl
          have := (hans ⟨0, Nat.zero_le _, by rw [hzero, hy0]⟩).1
          rcases first_line hcpl hpos with ⟨-, h1⟩ | ⟨h1, -⟩
          · omega
          · exact h1 hhead
        · have := hle (by omega) hsame
          omega
      · refine fun hnot => ⟨le_rfl, fun ⟨k, hk, hky⟩ => ⟨?_, fun _ k hk _ => hk⟩⟩
        rcases Nat.lt_or_eq_of_le hk with hklt | rfl
        · have hk0 : k = 0 := by
            have := hle hklt hky
            omega
          subst hk0
          rw [hzero] at hky
          dsimp only at hky
          have hx0 : x ≠ 0 := fun hx => hmiss 0 hklt (by rw [hzero, hx, ← hky])
          rcases first_line hcpl hklt with ⟨hhead, -⟩ | ⟨-, h1⟩
          · exact absurd (.inl ⟨hky.symm, hx0, hhead⟩) hnot
          · rcases Nat.lt_or_eq_of_le (Nat.succ_le_of_lt hklt) with hlen | hlen
            · have := hle hlen (h1.trans hky)
              omega
            · rw [← hlen, ← hky]
              exact h1
        · exact hky

/-- Where a click finds what it points at. -/
theorem click_iff (hwidth : 9 ≤ width) (hk : k ≤ t.chars.length) (hy : 0 ≤ y) :
    (getInputOffsetFromMousePosition t.chars width (getMouseXFromOffset t.chars width k)
        (getMouseYFromOffset t.chars width k) = k ↔
      k < t.chars.length ∨ t.chars.length ≤ 1 ∨
        getMouseYFromOffset t.chars width (t.chars.length - 1) ≠
          getMouseYFromOffset t.chars width t.chars.length) ∧
    (Answers t width x y (getInputOffsetFromMousePosition t.chars width x y) ↔
      ¬Strays t width x y) :=
  ⟨click_self_iff hk, click_answers_iff hwidth hy⟩

/-- The text `"ab"`. -/
def ab : Text := ⟨[97, 98], by decide, by decide⟩

theorem click_iff_ab :
    (getInputOffsetFromMousePosition ab.chars 90 (getMouseXFromOffset ab.chars 90 1)
        (getMouseYFromOffset ab.chars 90 1) = 1 ↔
      1 < ab.chars.length ∨ ab.chars.length ≤ 1 ∨
        getMouseYFromOffset ab.chars 90 (ab.chars.length - 1) ≠
          getMouseYFromOffset ab.chars 90 ab.chars.length) ∧
    (Answers ab 90 1 0 (getInputOffsetFromMousePosition ab.chars 90 1 0) ↔ ¬Strays ab 90 1 0) :=
  click_iff (by decide) (by decide) (by decide)

/-- The end of `"ab"` is taken for its last character. -/
theorem click_end_lost : getInputOffsetFromMousePosition ab.chars 90
    (getMouseXFromOffset ab.chars 90 2) (getMouseYFromOffset ab.chars 90 2) ≠ 2 := by decide

end Click

end Positions

end Xv6.Ulib.TextLayout
