import Xv6.Ulib.TextLayout
import Xv6.Verified.Memory

/-!
# The input field

`inputMouseLeftClickHandler` and `inputFieldKeyHandler` of `ulib/user_handler.c`, on the bytes of an
`InputField`: its color, its text with the NUL, and `current_pos`.  A handler has no result where
the code goes wrong: if a string does not end, or does not fit into `temp`.

The editor is a text with a cursor in it; it has no memory.

## Main results

* `inputField_is_editor`: as long as there is room for each character that is typed, the field is
  the editor, and no other byte is written.
-/

namespace Xv6.Ulib.InputField

open Verified Verified.CInt UserWindow TextLayout

/-! ## Strings in memory -/

/-- The string at `p`, if it ends. -/
def cstring (m : Nat → UInt8) : Nat → Nat → Option (List UInt8)
  | 0, _ => none
  | fuel + 1, p => if m p = 0 then some [] else (cstring m fuel (p + 1)).map (m p :: ·)

/-- The memory behind `strcpy` of the string `s` to `p`. -/
def strcpy (m : Nat → UInt8) (p : Nat) : List UInt8 → Nat → UInt8
  | [] => Function.update m p 0
  | c :: s => strcpy (Function.update m p c) (p + 1) s

/-! ## The handlers -/

/-- `MAX_LONG_STRLEN`. -/
abbrev MAX_LONG_STRLEN : Nat := 1000

/-- The keys. -/
abbrev KEY_UP : Int := 0xE2
@[inherit_doc KEY_UP] abbrev KEY_DN : Int := 0xE3
@[inherit_doc KEY_UP] abbrev KEY_LF : Int := 0xE4
@[inherit_doc KEY_UP] abbrev KEY_RT : Int := 0xE5
@[inherit_doc KEY_UP] abbrev BACKSPACE : Int := 8

/-- The offsets of `text` and `current_pos` in an `InputField`, and its size. -/
abbrev TEXT : Nat := 4
@[inherit_doc TEXT] abbrev CURRENT_POS : Nat := TEXT + MAX_LONG_STRLEN
@[inherit_doc TEXT] abbrev SIZE : Nat := CURRENT_POS + 4

theorem sizes : TEXT = 4 ∧ MAX_LONG_STRLEN = 1000 ∧ CURRENT_POS = 1004 ∧ SIZE = 1008 ∧
    PHYSTOP = 234881024 := ⟨rfl, rfl, rfl, rfl, rfl⟩

/-- `position` of a `Widget`. -/
structure Position where
  xmin : Int
  ymin : Int
  xmax : Int
  ymax : Int

/-- A `message` of the types that the handlers look for. -/
inductive Message where
  /-- `M_MOUSE_LEFT_CLICK`. -/
  | click (x y : Int)
  /-- `M_KEY_DOWN`. -/
  | key (newChar : Int)

/-- `current_pos`. -/
def currentPos (m : Nat → UInt8) : Int := Int.bmod (load m CURRENT_POS 4) (2 ^ 32)

/-- Store `current_pos`. -/
def setCurrentPos (m : Nat → UInt8) (pos : Int) : Nat → UInt8 :=
  store m CURRENT_POS (pos % 2 ^ 32).toNat 4

/-- The string from character `pos` of the text on. -/
def textFrom (m : Nat → UInt8) (pos : Int) : Option (List UInt8) :=
  cstring m PHYSTOP (TEXT + pos).toNat

/-- `strcpy` to `temp`. -/
def toTemp (s : List UInt8) : Option (List UInt8) :=
  if s.length < MAX_LONG_STRLEN then some s else none

/-- The width of a widget. -/
def Position.width (w : Position) : Int := int (w.xmax - w.xmin)

/-- `inputMouseLeftClickHandler`. -/
def inputMouseLeftClickHandler (w : Position) (m : Nat → UInt8) :
    Message → Option (Nat → UInt8)
  | .key _ => some m
  | .click mouse_x mouse_y => do
      let mouse_char_y := (int (mouse_y - w.ymin)).tdiv CHARACTER_HEIGHT
      let mouse_char_x := (int (mouse_x - w.xmin)).tdiv CHARACTER_WIDTH
      let text ← textFrom m 0
      return setCurrentPos m
        (getInputOffsetFromMousePosition text w.width mouse_char_x mouse_char_y)

/-- The characters that can be typed. -/
def printable (newChar : Int) : Bool := (32 ≤ newChar ∧ newChar ≤ 126) ∨ newChar = 10

/-- The first block of `inputFieldKeyHandler`: a character is typed. -/
def typeChar (m : Nat → UInt8) (newChar : Int) : Option (Nat → UInt8) := do
  let pos := currentPos m
  let temp ← toTemp (← textFrom m pos)
  let m := Function.update m (TEXT + pos).toNat (UInt8.ofNat newChar.toNat)
  let m := setCurrentPos m (pos + 1)
  return strcpy m (TEXT + (pos + 1)).toNat temp

/-- The last block: the character in front of the cursor is deleted. -/
def deleteChar (m : Nat → UInt8) : Option (Nat → UInt8) := do
  let pos := currentPos m
  let temp ← toTemp (← textFrom m pos)
  return setCurrentPos (strcpy m (TEXT + pos - 1).toNat temp) (pos - 1)

/-- `inputFieldKeyHandler`. -/
def inputFieldKeyHandler (w : Position) (m : Nat → UInt8) : Message → Option (Nat → UInt8)
  | .click _ _ => some m
  | .key newChar => do
      let charCount := (← textFrom m 0).length
      let m ← if printable newChar then typeChar m newChar else some m
      let m := if newChar = KEY_LF ∧ currentPos m > 0 then setCurrentPos m (currentPos m - 1) else m
      let m := if newChar = KEY_RT ∧ currentPos m < charCount then
        setCurrentPos m (currentPos m + 1) else m
      let text ← textFrom m 0
      let x := getMouseXFromOffset text w.width (currentPos m).toNat
      let y := getMouseYFromOffset text w.width (currentPos m).toNat
      let m := if newChar = KEY_UP then
        setCurrentPos m (getInputOffsetFromMousePosition text w.width x (y - 1)) else m
      let m := if newChar = KEY_DN then
        setCurrentPos m (getInputOffsetFromMousePosition text w.width x (y + 1)) else m
      if newChar = BACKSPACE ∧ currentPos m > 0 then deleteChar m else some m

/-- A message, as the handlers of the programs hand it on. -/
def handle (m : Nat → UInt8) (step : Position × Message) : Option (Nat → UInt8) := do
  inputFieldKeyHandler step.1 (← inputMouseLeftClickHandler step.1 m step.2) step.2

/-! ## The editor -/

/-- A text with a cursor. -/
structure Editor where
  text : List UInt8
  pos : Nat
  noNul : 0 ∉ text
  inText : pos ≤ text.length

namespace Editor

/-- Nothing was typed. -/
def empty : Editor := ⟨[], 0, List.not_mem_nil, Nat.le_refl 0⟩

/-- Put a character in front of the cursor. -/
def insert (e : Editor) (c : UInt8) (hc : c ≠ 0) : Editor where
  text := e.text.take e.pos ++ c :: e.text.drop e.pos
  pos := e.pos + 1
  noNul := by
    intro h
    rcases List.mem_append.1 h with h | h
    · exact e.noNul (List.mem_of_mem_take h)
    · rcases List.mem_cons.1 h with h | h
      · exact hc h.symm
      · exact e.noNul (List.mem_of_mem_drop h)
  inText := by
    have := e.inText
    rw [List.length_append, List.length_cons, List.length_take, List.length_drop]
    omega

/-- Delete the character in front of the cursor. -/
def backspace (e : Editor) : Editor where
  text := e.text.take (e.pos - 1) ++ e.text.drop e.pos
  pos := e.pos - 1
  noNul := by
    intro h
    rcases List.mem_append.1 h with h | h
    · exact e.noNul (List.mem_of_mem_take h)
    · exact e.noNul (List.mem_of_mem_drop h)
  inText := by
    have := e.inText
    rw [List.length_append, List.length_take, List.length_drop]
    omega

/-- Put the cursor to `pos`, or to the end of the text. -/
def moveTo (e : Editor) (pos : Nat) : Editor :=
  { e with pos := min pos e.text.length, inText := Nat.min_le_right _ _ }

/-- The place of the layout at column `x` and line `y`. -/
def place (e : Editor) (width x y : Int) : Nat :=
  getInputOffsetFromMousePosition e.text width x y

/-- The column and the line of the cursor. -/
def column (e : Editor) (width : Int) : Int := getMouseXFromOffset e.text width e.pos

@[inherit_doc column]
def line (e : Editor) (width : Int) : Int := getMouseYFromOffset e.text width e.pos

theorem ofNat_ne_zero {newChar : Int} (h : printable newChar = true) :
    UInt8.ofNat newChar.toNat ≠ 0 := by
  rw [printable, decide_eq_true_iff] at h
  intro heq
  have hnat := congrArg UInt8.toNat heq
  rw [UInt8.toNat_ofNat', UInt8.toNat_zero] at hnat
  omega

/-- What a message does. -/
def step (e : Editor) (w : Position) : Message → Editor
  | .click x y => e.moveTo (e.place w.width ((int (x - w.xmin)).tdiv CHARACTER_WIDTH)
      ((int (y - w.ymin)).tdiv CHARACTER_HEIGHT))
  | .key newChar =>
      if h : printable newChar then e.insert (UInt8.ofNat newChar.toNat) (ofNat_ne_zero h)
      else if newChar = BACKSPACE then e.backspace
      else if newChar = KEY_LF then e.moveTo (e.pos - 1)
      else if newChar = KEY_RT then e.moveTo (e.pos + 1)
      else if newChar = KEY_UP then
        e.moveTo (e.place w.width (e.column w.width) (e.line w.width - 1))
      else if newChar = KEY_DN then
        e.moveTo (e.place w.width (e.column w.width) (e.line w.width + 1))
      else e

/-- Messages, one after the other. -/
def run (e : Editor) (steps : List (Position × Message)) : Editor :=
  steps.foldl (fun e s => e.step s.1 s.2) e

/-- There is room for a character that the message types. -/
def HasRoom (e : Editor) : Message → Prop
  | .click _ _ => True
  | .key newChar => printable newChar = true → e.text.length < MAX_LONG_STRLEN - 1

/-- There is room whenever a character is typed. -/
def AlwaysRoom : Editor → List (Position × Message) → Prop
  | _, [] => True
  | e, s :: steps => e.HasRoom s.2 ∧ (e.step s.1 s.2).AlwaysRoom steps

end Editor

/-! ## Memory -/

variable {m m' : Nat → UInt8} {p b i : Nat} {s : List UInt8} {e : Editor}

/-- The string `s` is at `p`. -/
def StringAt (m : Nat → UInt8) (p : Nat) (s : List UInt8) : Prop :=
  (∀ i, i < s.length → s[i]? = some (m (p + i))) ∧ m (p + s.length) = 0

theorem StringAt.drop (h : StringAt m p s) (hi : i ≤ s.length) :
    StringAt m (p + i) (s.drop i) := by
  constructor
  · intro j hj
    rw [List.length_drop] at hj
    rw [List.getElem?_drop, h.1 (i + j) (by omega), Nat.add_assoc]
  · rw [List.length_drop, Nat.add_assoc, Nat.add_sub_cancel' hi]
    exact h.2

/-- A string with a part in front of it. -/
theorem StringAt.append {t : List UInt8} (ht : ∀ i, i < t.length → t[i]? = some (m (p + i)))
    (h : StringAt m (p + t.length) s) : StringAt m p (t ++ s) := by
  constructor
  · intro i hi
    by_cases hlt : i < t.length
    · rw [List.getElem?_append_left hlt, ht i hlt]
    · rw [List.length_append] at hi
      rw [List.getElem?_append_right (Nat.le_of_not_lt hlt), h.1 _ (by omega), Nat.add_assoc,
        Nat.add_sub_cancel' (Nat.le_of_not_lt hlt)]
  · rw [List.length_append, ← Nat.add_assoc]
    exact h.2

theorem StringAt.congr (h : StringAt m p s) (hm : ∀ b, p ≤ b → b ≤ p + s.length → m' b = m b) :
    StringAt m' p s := by
  constructor
  · intro i hi
    rw [h.1 i hi, hm _ (by omega) (by omega)]
  · rw [hm _ (by omega) (by omega)]
    exact h.2

theorem cstring_eq (h : StringAt m p s) (hs : 0 ∉ s) {fuel : Nat} (hfuel : s.length < fuel) :
    cstring m fuel p = some s := by
  induction s generalizing p fuel with
  | nil =>
      obtain ⟨fuel, rfl⟩ := Nat.exists_eq_succ_of_ne_zero (Nat.ne_of_gt hfuel)
      have hend : m p = 0 := h.2
      rw [cstring, if_pos hend]
  | cons c s ih =>
      obtain ⟨fuel, rfl⟩ := Nat.exists_eq_succ_of_ne_zero (Nat.ne_of_gt (Nat.zero_lt_of_lt hfuel))
      have hc : c = m p := Option.some.inj (h.1 0 (Nat.zero_lt_succ _))
      have hne : m p ≠ 0 := fun hzero => hs (by rw [← hzero, ← hc]; exact List.mem_cons_self)
      have htail : StringAt m (p + 1) s := h.drop (i := 1) (by simp)
      rw [cstring, if_neg hne, ih htail (fun h => hs (List.mem_cons_of_mem _ h))
        (by simpa using hfuel), ← hc]
      rfl

theorem strcpy_outside (h : b < p ∨ p + s.length < b) : strcpy m p s b = m b := by
  induction s generalizing m p with
  | nil => exact Function.update_of_ne (by simp at h; omega) _ _
  | cons c s ih =>
      rw [List.length_cons] at h
      rw [strcpy, ih (by omega), Function.update_of_ne (by omega)]

theorem stringAt_strcpy (m : Nat → UInt8) (p : Nat) (s : List UInt8) :
    StringAt (strcpy m p s) p s := by
  induction s generalizing m p with
  | nil => exact ⟨nofun, Function.update_self _ _ _⟩
  | cons c s ih =>
      refine StringAt.append (t := [c]) (fun i hi => ?_) (ih (Function.update m p c) (p + 1))
      obtain rfl : i = 0 := by simpa using hi
      rw [strcpy, strcpy_outside (.inl (by omega)), Nat.add_zero, Function.update_self]
      rfl

/-- The field is in the state of the editor. -/
structure Represents (m : Nat → UInt8) (e : Editor) : Prop where
  text : StringAt m TEXT e.text
  pos : currentPos m = e.pos
  length : e.text.length < MAX_LONG_STRLEN

theorem currentPos_congr (h : ∀ b, CURRENT_POS ≤ b → b < SIZE → m' b = m b) :
    currentPos m' = currentPos m := by
  have hload : load m' CURRENT_POS 4 = load m CURRENT_POS 4 :=
    load_congr h
  exact congrArg (fun n : Nat => Int.bmod n (2 ^ 32)) hload

theorem currentPos_setCurrentPos {pos : Nat} (h : pos < 2147483648) :
    currentPos (setCurrentPos m pos) = pos := by
  have hload : load (setCurrentPos m pos) CURRENT_POS 4 =
    ((pos : Int) % 2 ^ 32).toNat % 256 ^ 4 := load_store
  have hmod : ((pos : Int) % 2 ^ 32).toNat % 256 ^ 4 = pos := by omega
  rw [hmod] at hload
  have hpos : Int.bmod (pos : Int) (2 ^ 32) = pos := Int.bmod_eq_of_le (by omega) (by omega)
  exact (congrArg (fun n : Nat => Int.bmod n (2 ^ 32)) hload).trans hpos

theorem setCurrentPos_outside {pos : Int} (h : b < CURRENT_POS ∨ SIZE ≤ b) :
    setCurrentPos m pos b = m b := store_outside h

/-- The bytes that the handlers may write. -/
def Kept (m m' : Nat → UInt8) : Prop := ∀ b, b < TEXT ∨ SIZE ≤ b → m' b = m b

theorem Represents.textFrom (h : Represents m e) :
    InputField.textFrom m e.pos = some (e.text.drop e.pos) := by
  have hsizes := sizes
  have hpos := e.inText
  have hlen := h.length
  have hplace : (TEXT + (e.pos : Int)).toNat = TEXT + e.pos := by omega
  rw [InputField.textFrom, hplace]
  refine cstring_eq (h.text.drop hpos) (fun hin => e.noNul (List.mem_of_mem_drop hin)) ?_
  rw [List.length_drop]
  omega

theorem Represents.textFrom_zero (h : Represents m e) :
    InputField.textFrom m 0 = some e.text := by
  have hsizes := sizes
  have hlen := h.length
  exact cstring_eq h.text e.noNul (by omega)

/-- The cursor is moved. -/
theorem Represents.moveTo (h : Represents m e) {pos : Nat} (hpos : pos ≤ e.text.length) :
    Represents (setCurrentPos m pos) (e.moveTo pos) ∧ Kept m (setCurrentPos m pos) := by
  have hsizes := sizes
  have hlen := h.length
  refine ⟨⟨?_, ?_, hlen⟩, fun b hb => setCurrentPos_outside (by omega)⟩
  · exact h.text.congr fun b _ hb => setCurrentPos_outside (by omega)
  · have hmin : (e.moveTo pos).pos = pos := Nat.min_eq_left hpos
    rw [currentPos_setCurrentPos (by omega), hmin]

/-! ## The steps -/

theorem inputLoop_le (cpl x y : Int) (str : List UInt8) (q : Int × Int) {pos first : Nat}
    (h : first ≤ pos) : inputLoop cpl x y str q pos first ≤ pos + str.length := by
  induction str generalizing q pos first with
  | nil =>
      rw [inputLoop]
      split
      · exact h
      · exact Nat.le_refl _
  | cons c str ih =>
      rw [inputLoop, List.length_cons]
      split
      · split
        · omega
        · refine (ih (advance 1 1 cpl c q) (Nat.le_add_right pos 1)).trans ?_
          omega
      · refine (ih (advance 1 1 cpl c q) (Nat.le_add_right_of_le h)).trans ?_
        omega

/-- The layout has no place behind the end of the text. -/
theorem place_le (e : Editor) (width x y : Int) : e.place width x y ≤ e.text.length := by
  rw [Editor.place, getInputOffsetFromMousePosition]
  split
  · exact Nat.zero_le _
  · have := inputLoop_le (charPerLine width) x y e.text (0, 0) (Nat.le_refl 0)
    omega

theorem inputMouseLeftClickHandler_spec (h : Represents m e) (w : Position) (x y : Int) :
    ∃ m', inputMouseLeftClickHandler w m (.click x y) = some m' ∧
      Represents m' (e.step w (.click x y)) ∧ Kept m m' := by
  refine ⟨_, ?_, h.moveTo (place_le e w.width _ _)⟩
  rw [inputMouseLeftClickHandler, h.textFrom_zero]
  rfl

theorem typeChar_spec (h : Represents m e) {newChar : Int} (hc : printable newChar = true)
    (hroom : e.text.length < MAX_LONG_STRLEN - 1) :
    ∃ m', typeChar m newChar = some m' ∧
      Represents m' (e.insert (UInt8.ofNat newChar.toNat) (Editor.ofNat_ne_zero hc)) ∧
      Kept m m' := by
  have hsizes := sizes
  have hpos := e.inText
  have htemp : toTemp (e.text.drop e.pos) = some (e.text.drop e.pos) := by
    rw [toTemp, if_pos (by rw [List.length_drop]; omega)]
  have hplace : (TEXT + (e.pos : Int)).toNat = TEXT + e.pos := by omega
  have hnext : (TEXT + ((e.pos + 1 : Nat) : Int)).toNat = TEXT + e.pos + 1 := by omega
  have hsucc : (e.pos : Int) + 1 = (e.pos + 1 : Nat) := by omega
  rw [typeChar, h.pos, h.textFrom]
  simp only [Option.bind_eq_bind, Option.bind_some, htemp, hplace, hsucc, hnext]
  have hlen : TEXT + e.pos + 1 + (e.text.drop e.pos).length < CURRENT_POS := by
    rw [List.length_drop]
    omega
  refine ⟨_, rfl, ⟨?_, ?_, ?_⟩, fun b hb => ?_⟩
  · refine StringAt.append (fun i hi => ?_) ?_
    · rw [List.length_take] at hi
      rw [strcpy_outside (.inl (by omega)), setCurrentPos_outside (.inl (by omega)),
        Function.update_of_ne (by omega), List.getElem?_take_of_lt (by omega),
        h.text.1 i (by omega)]
    · rw [List.length_take, Nat.min_eq_left hpos]
      refine StringAt.append (t := [_]) (fun i hi => ?_) (stringAt_strcpy _ _ _)
      obtain rfl : i = 0 := by simpa using hi
      rw [strcpy_outside (.inl (by omega)), setCurrentPos_outside (.inl (by omega)), Nat.add_zero,
        Function.update_self]
      rfl
  · rw [currentPos_congr (m := setCurrentPos _ _) fun b hb _ => strcpy_outside (.inr (by omega)),
      currentPos_setCurrentPos (by omega)]
    rfl
  · rw [Editor.insert, List.length_append, List.length_cons, List.length_take, List.length_drop]
    omega
  · rw [strcpy_outside (by omega), setCurrentPos_outside (by omega),
      Function.update_of_ne (by omega)]

theorem deleteChar_spec (h : Represents m e) (hpos : 0 < e.pos) :
    ∃ m', deleteChar m = some m' ∧ Represents m' e.backspace ∧ Kept m m' := by
  have hsizes := sizes
  have hle := e.inText
  have hlength := h.length
  have htemp : toTemp (e.text.drop e.pos) = some (e.text.drop e.pos) := by
    rw [toTemp, if_pos (by rw [List.length_drop]; omega)]
  have hplace : (TEXT + (e.pos : Int) - 1).toNat = TEXT + (e.pos - 1) := by omega
  have hpred : (e.pos : Int) - 1 = (e.pos - 1 : Nat) := by omega
  rw [deleteChar, h.pos, h.textFrom]
  simp only [Option.bind_eq_bind, Option.bind_some, htemp, hplace, hpred]
  have hlen : TEXT + (e.pos - 1) + (e.text.drop e.pos).length < CURRENT_POS := by
    rw [List.length_drop]
    omega
  refine ⟨_, rfl, ⟨?_, ?_, ?_⟩, fun b hb => ?_⟩
  · refine StringAt.append (fun i hi => ?_) ?_
    · rw [List.length_take] at hi
      rw [setCurrentPos_outside (.inl (by omega)), strcpy_outside (.inl (by omega)),
        List.getElem?_take_of_lt (by omega), h.text.1 i (by omega)]
    · rw [List.length_take, Nat.min_eq_left (by omega)]
      exact (stringAt_strcpy _ _ _).congr fun b _ hb => setCurrentPos_outside (.inl (by omega))
  · rw [currentPos_setCurrentPos (by omega)]
    rfl
  · rw [Editor.backspace, List.length_append, List.length_take, List.length_drop]
    omega
  · rw [setCurrentPos_outside (by omega), strcpy_outside (by omega)]

theorem moveTo_self (e : Editor) : e.moveTo e.pos = e := by
  obtain ⟨text, pos, hnul, hle⟩ := e
  simp only [Editor.moveTo, Nat.min_eq_left hle]

/-- There is no place behind the end of the text. -/
theorem moveTo_beyond {pos pos' : Nat} (h : e.text.length ≤ pos) (h' : e.text.length ≤ pos') :
    e.moveTo pos = e.moveTo pos' := by
  simp only [Editor.moveTo, Nat.min_eq_right h, Nat.min_eq_right h']

/-- At the start of the text, nothing is deleted. -/
theorem backspace_zero (h : e.pos = 0) : e.backspace = e := by
  obtain ⟨text, pos, hnul, hle⟩ := e
  subst h
  rfl

theorem kept_refl (m : Nat → UInt8) : Kept m m := fun _ _ => rfl

/-- One key.  A key meets one of the blocks. -/
theorem inputFieldKeyHandler_spec (h : Represents m e) (w : Position) (newChar : Int)
    (hroom : e.HasRoom (.key newChar)) :
    ∃ m', inputFieldKeyHandler w m (.key newChar) = some m' ∧
      Represents m' (e.step w (.key newChar)) ∧ Kept m m' := by
  have hpos := e.inText
  by_cases hc : printable newChar = true
  · obtain ⟨m', htype, h', hkept⟩ := typeChar_spec h hc (hroom hc)
    have hkeys : newChar ≠ KEY_LF ∧ newChar ≠ KEY_RT ∧ newChar ≠ KEY_UP ∧ newChar ≠ KEY_DN ∧
        newChar ≠ BACKSPACE := by
      rw [printable, decide_eq_true_iff] at hc
      simp only [KEY_LF, KEY_RT, KEY_UP, KEY_DN, BACKSPACE]
      omega
    refine ⟨m', ?_, ?_, hkept⟩
    · rw [inputFieldKeyHandler, h.textFrom_zero]
      simp only [Option.bind_eq_bind, Option.bind_some, hc, if_true, htype, hkeys.1, hkeys.2.1,
        hkeys.2.2.1, hkeys.2.2.2.1, hkeys.2.2.2.2, false_and, if_false, h'.textFrom_zero]
    · rw [Editor.step, dif_pos hc]
      exact h'
  · have hstep : ∀ m', inputFieldKeyHandler w m (.key newChar) = some m' ↔
        (let m₁ := if newChar = KEY_LF ∧ currentPos m > 0 then
            setCurrentPos m (currentPos m - 1) else m
        let m₂ := if newChar = KEY_RT ∧ currentPos m₁ < e.text.length then
            setCurrentPos m₁ (currentPos m₁ + 1) else m₁
        (textFrom m₂ 0).bind fun text =>
          let x := getMouseXFromOffset text w.width (currentPos m₂).toNat
          let y := getMouseYFromOffset text w.width (currentPos m₂).toNat
          let m₃ := if newChar = KEY_UP then
            setCurrentPos m₂ (getInputOffsetFromMousePosition text w.width x (y - 1)) else m₂
          let m₄ := if newChar = KEY_DN then
            setCurrentPos m₃ (getInputOffsetFromMousePosition text w.width x (y + 1)) else m₃
          if newChar = BACKSPACE ∧ currentPos m₄ > 0 then deleteChar m₄ else some m₄) =
            some m' := by
      intro m'
      rw [inputFieldKeyHandler, h.textFrom_zero]
      simp only [Option.bind_eq_bind, Option.bind_some, hc, Bool.false_eq_true, if_false]
    have hcursor := h.pos
    have hstays : Represents m (e.moveTo e.pos) := by rwa [moveTo_self]
    by_cases hback : newChar = BACKSPACE
    · subst hback
      by_cases hzero : 0 < e.pos
      · obtain ⟨m', hdelete, h', hkept⟩ := deleteChar_spec h hzero
        refine ⟨m', (hstep m').2 ?_, h', hkept⟩
        simpa [BACKSPACE, KEY_LF, KEY_RT, KEY_UP, KEY_DN, h.textFrom_zero, hcursor, hzero]
          using hdelete
      · refine ⟨m, (hstep m).2 ?_, ?_, kept_refl m⟩
        · simp [BACKSPACE, KEY_LF, KEY_RT, KEY_UP, KEY_DN, h.textFrom_zero, hcursor, hzero]
        · have hsame : e.step w (.key BACKSPACE) = e :=
            backspace_zero (Nat.eq_zero_of_not_pos hzero)
          rwa [hsame]
    by_cases hlf : newChar = KEY_LF
    · subst hlf
      have hnext : e.step w (.key KEY_LF) = e.moveTo (e.pos - 1) := rfl
      rw [hnext]
      by_cases hzero : 0 < e.pos
      · obtain ⟨h', hkept⟩ := h.moveTo (Nat.le_trans (Nat.sub_le _ 1) hpos)
        have hpred : (e.pos : Int) - 1 = (e.pos - 1 : Nat) := by omega
        rw [← hpred] at h' hkept
        refine ⟨_, (hstep _).2 ?_, h', hkept⟩
        simp [BACKSPACE, KEY_LF, KEY_RT, KEY_UP, KEY_DN, hcursor, hzero, h'.textFrom_zero]
      · obtain hzero' : e.pos - 1 = e.pos := by omega
        refine ⟨m, (hstep m).2 ?_, by rwa [hzero'], kept_refl m⟩
        simp [BACKSPACE, KEY_LF, KEY_RT, KEY_UP, KEY_DN, h.textFrom_zero, hcursor, hzero]
    by_cases hrt : newChar = KEY_RT
    · subst hrt
      have hnext : e.step w (.key KEY_RT) = e.moveTo (e.pos + 1) := rfl
      rw [hnext]
      by_cases hlt : e.pos < e.text.length
      · obtain ⟨h', hkept⟩ := h.moveTo (Nat.succ_le_of_lt hlt)
        have hsucc : (e.pos : Int) + 1 = (e.pos + 1 : Nat) := by omega
        rw [← hsucc] at h' hkept
        refine ⟨_, (hstep _).2 ?_, h', hkept⟩
        simp [BACKSPACE, KEY_LF, KEY_RT, KEY_UP, KEY_DN, hcursor, hlt, h'.textFrom_zero]
      · have hlast : e.moveTo (e.pos + 1) = e.moveTo e.pos := moveTo_beyond (by omega) (by omega)
        refine ⟨m, (hstep m).2 ?_, by rwa [hlast], kept_refl m⟩
        simp [BACKSPACE, KEY_LF, KEY_RT, KEY_UP, KEY_DN, h.textFrom_zero, hcursor, hlt]
    by_cases hup : newChar = KEY_UP
    · subst hup
      obtain ⟨h', hkept⟩ := h.moveTo (place_le e w.width (e.column w.width) (e.line w.width - 1))
      refine ⟨_, (hstep _).2 ?_, h', hkept⟩
      simp [BACKSPACE, KEY_LF, KEY_RT, KEY_UP, KEY_DN, hcursor, h.textFrom_zero]
      rfl
    by_cases hdn : newChar = KEY_DN
    · subst hdn
      obtain ⟨h', hkept⟩ := h.moveTo (place_le e w.width (e.column w.width) (e.line w.width + 1))
      refine ⟨_, (hstep _).2 ?_, h', hkept⟩
      simp [BACKSPACE, KEY_LF, KEY_RT, KEY_UP, KEY_DN, hcursor, h.textFrom_zero]
      rfl
    have hnext : e.step w (.key newChar) = e := by
      simp only [Editor.step, hc, hback, hlf, hrt, hup, hdn, if_false, Bool.false_eq_true,
        dite_false]
    refine ⟨m, (hstep m).2 ?_, by rwa [hnext], kept_refl m⟩
    simp only [hback, hlf, hrt, hup, hdn, false_and, if_false, h.textFrom_zero, Option.bind_some]

/-- One message. -/
theorem Represents.handle (h : Represents m e) (s : Position × Message) (hroom : e.HasRoom s.2) :
    ∃ m', handle m s = some m' ∧ Represents m' (e.step s.1 s.2) ∧ Kept m m' := by
  obtain ⟨w, message⟩ := s
  cases message with
  | click x y =>
      obtain ⟨m', hclick, h', hkept⟩ := inputMouseLeftClickHandler_spec h w x y
      refine ⟨m', ?_, h', hkept⟩
      rw [InputField.handle, hclick]
      rfl
  | key newChar => exact inputFieldKeyHandler_spec h w newChar hroom

/-! ## Runs -/

theorem Represents.run (h : Represents m e) (steps : List (Position × Message))
    (hroom : e.AlwaysRoom steps) :
    ∃ m', steps.foldlM InputField.handle m = some m' ∧ Represents m' (e.run steps) ∧
      Kept m m' := by
  induction steps generalizing m e with
  | nil => exact ⟨m, rfl, h, kept_refl m⟩
  | cons s steps ih =>
      obtain ⟨hfirst, hrest⟩ := hroom
      obtain ⟨m₁, hstep, h₁, hkept₁⟩ := h.handle s hfirst
      obtain ⟨m', hsteps, h', hkept'⟩ := ih h₁ hrest
      refine ⟨m', ?_, h', fun b hb => (hkept' b hb).trans (hkept₁ b hb)⟩
      rw [List.foldlM_cons, hstep]
      exact hsteps

end Xv6.Ulib.InputField
