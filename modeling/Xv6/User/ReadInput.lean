import Xv6.Verified.Strings

/-!
# `read_input`

`read_input` and `update_buffer_state` of `shell_lib/input.c`, with `getchar` of
`ulib/libc/stdio/stdio.c`.  `getchar` returns 0 at the end of the stream, and a byte of 255 as -1,
for which `read_input` ends.  A store outside the 256 bytes of `buffer` or `current_input_buffer`
stops the model.

* `readInput_iff`: the string returned is the line that was typed exactly if the stream has a line
  of at most 255 characters, none of them 0 or 255.
-/

namespace Xv6.User.ReadInput

open Xv6.Verified.Strings

/-- The size of `buffer` and of `current_input_buffer`. -/
abbrev SIZE : Nat := 256

/-- The bytes of `'\n'` and `'\t'`. -/
abbrev newline : UInt8 := 10
@[inherit_doc newline] abbrev tab : UInt8 := 9

/-- A byte as a `char`. -/
def char (b : UInt8) : Int := if b.toNat < 128 then b.toNat else b.toNat - 256

/-- `getchar`, and what is left of the stream. -/
def getchar : List UInt8 → Int × List UInt8
  | [] => (0, [])
  | b :: stream => (char b, stream)

/-- The global variables. -/
structure Globals where
  current_input_buffer : Nat → UInt8
  current_input_length : Nat
  current_cursor_pos : Nat

/-- The local variables, and the global ones. -/
structure State where
  buffer : Nat → UInt8
  pos : Nat
  cursor : Nat
  globals : Globals

/-- `strncpy`: behind a NUL of the source there are only NULs. -/
def strncpy (s t : Nat → UInt8) (n : Nat) : Nat → UInt8 := fun i =>
  if i < n then if ∀ j < i, t j ≠ 0 then t i else 0 else s i

/-- `update_buffer_state`. -/
def updateBufferState (s : State) : Option State :=
  if s.pos < SIZE then
    some { s with
      globals :=
        { current_input_buffer :=
            Function.update (strncpy s.globals.current_input_buffer s.buffer s.pos) s.pos 0
          current_input_length := s.pos
          current_cursor_pos := s.cursor } }
  else none

/-- A character that is no newline and no tab. -/
def State.put (s : State) (c : Int) : Option State :=
  if s.pos + 1 < SIZE then
    some { s with
      buffer := Function.update (Function.update s.buffer s.pos (UInt8.ofInt c)) (s.pos + 1) 0
      pos := s.pos + 1
      cursor := s.cursor + 1 }
  else none

/-- The loop of `read_input`.  Each round uses up a byte of the stream or moves `pos` on. -/
def inputLoop : Nat → List UInt8 → State → Option State
  | 0, _, _ => none
  | fuel + 1, stream, s => do
      let (c, stream) := getchar stream
      if c = -1 then return s
      else if c = 10 then updateBufferState s
      else if c = 9 then do
        let s ← updateBufferState s
        inputLoop fuel stream s
      else do
        let s ← s.put c
        let s ← updateBufferState s
        inputLoop fuel stream s

/-- `read_input`: null, or the buffer; `granted` is whether `malloc` has the memory. -/
def readInput (granted : Bool) (g : Globals) (stream : List UInt8) : Option (Option State) := do
  if granted then do
    let s ← inputLoop (stream.length + SIZE + 1) stream ⟨fun _ => 0, 0, 0, g⟩
    if s.pos < SIZE then return some { s with buffer := Function.update s.buffer s.pos 0 }
    else none
  else return none

/-- The characters up to the first newline, without tabs. -/
def typed (stream : List UInt8) : List UInt8 :=
  (stream.takeWhile (· ≠ newline)).filter (· ≠ tab)

/-- The buffer is returned, and has the string that was typed. -/
def Typed (stream : List UInt8) (r : Option (Option State)) : Prop :=
  ∃ s, r = some (some s) ∧ IsString 0 s.buffer (typed stream)

section Loop

variable {s s' : State} {stream w : List UInt8} {fuel : Nat} {b : UInt8} {c : Int}

/-- The string typed so far is in the buffer. -/
structure Reading (w : List UInt8) (s : State) : Prop where
  string : IsString 0 s.buffer w
  pos : s.pos = w.length
  room : w.length < SIZE

theorem byte_induction {P : UInt8 → Prop} (h : ∀ n < 256, P (UInt8.ofNat n)) (b : UInt8) : P b := by
  have := h b.toNat (UInt8.toNat_lt b)
  rwa [UInt8.ofNat_toNat] at this

theorem char_end (b : UInt8) : char b = -1 ↔ b = 255 :=
  byte_induction (P := fun b => char b = -1 ↔ b = 255) (by decide +kernel) b

theorem char_newline (b : UInt8) : char b = 10 ↔ b = newline :=
  byte_induction (P := fun b => char b = 10 ↔ b = newline) (by decide +kernel) b

theorem char_tab (b : UInt8) : char b = 9 ↔ b = tab :=
  byte_induction (P := fun b => char b = 9 ↔ b = tab) (by decide +kernel) b

theorem ofInt_char (b : UInt8) : UInt8.ofInt (char b) = b :=
  byte_induction (P := fun b => UInt8.ofInt (char b) = b) (by decide +kernel) b

theorem typed_newline : typed (newline :: stream) = [] := by
  rw [typed, List.takeWhile_cons, if_neg (by simp), List.filter_nil]

theorem typed_tab : typed (tab :: stream) = typed stream := by
  rw [typed, List.takeWhile_cons, if_pos (by decide), List.filter_cons, if_neg (by simp), typed]

theorem typed_cons (hnewline : b ≠ newline) (htab : b ≠ tab) :
    typed (b :: stream) = b :: typed stream := by
  rw [typed, List.takeWhile_cons, if_pos (decide_eq_true hnewline), List.filter_cons,
    if_pos (decide_eq_true htab), typed]

/-- There is a NUL at the end already. -/
theorem Reading.terminate (h : Reading w s) : Function.update s.buffer s.pos 0 = s.buffer := by
  rw [h.pos, Function.update_eq_self_iff]
  exact h.string.ends.symm

theorem Reading.update (h : Reading w s) :
    ∃ s', updateBufferState s = some s' ∧ Reading w s' := by
  rw [updateBufferState, if_pos (h.pos ▸ h.room)]
  exact ⟨_, rfl, h.string, h.pos, h.room⟩

/-- A character other than NUL is put at the end of the string. -/
theorem Reading.put (h : Reading w s) (hc : b ≠ 0) (hroom : w.length + 1 < SIZE) :
    ∃ s', s.put (char b) = some s' ∧ Reading (w ++ [b]) s' := by
  rw [State.put, h.pos, ofInt_char, if_pos hroom]
  refine ⟨_, rfl, ⟨h.string.holds.push (fun i hi => ?_) ?_, ?_, ?_⟩, ?_, ?_⟩
  · dsimp only
    rw [Function.update_of_ne (by omega), Function.update_of_ne (by omega)]
  · dsimp only
    rw [Function.update_of_ne (by omega), Function.update_self]
  · rw [List.mem_append, List.mem_singleton]
    exact fun hmem => hmem.elim h.string.plain fun hzero => hc hzero.symm
  · rw [List.length_append, List.length_singleton]
    exact Function.update_self _ _ _
  · rw [List.length_append, List.length_singleton]
  · rwa [List.length_append, List.length_singleton]

theorem put_full (h : Reading w s) (hfull : SIZE ≤ w.length + 1) : s.put c = none := by
  rw [State.put, h.pos, if_neg (by omega)]

/-- At the end of the stream the loop stores 0 until it leaves the buffer. -/
theorem inputLoop_eof : inputLoop fuel [] s = none := by
  induction fuel generalizing s with
  | zero => rfl
  | succ fuel ih =>
      have hput : ((s.put 0).bind fun s => (updateBufferState s).bind fun s =>
          inputLoop fuel [] s) = none := by
        simp only [ih, Option.bind_fun_none]
      exact hput

/-- What the loop leaves is returned with the string that was typed. -/
def Returned (w : List UInt8) (r : Option State) : Prop :=
  ∃ s, r = some s ∧ s.pos < SIZE ∧ IsString 0 (Function.update s.buffer s.pos 0) w

/-- The string typed so far can be returned. -/
theorem Reading.returned (h : Reading w s) : Returned w (some s) := by
  refine ⟨s, rfl, h.pos ▸ h.room, ?_⟩
  rw [h.terminate]
  exact h.string

theorem not_returned_none : ¬Returned w none := by
  rintro ⟨_, ⟨⟩, -⟩

/-- A stream has a line that can be read behind `n` characters. -/
def HasLine (n : Nat) (stream : List UInt8) : Prop :=
  newline ∈ stream ∧ (∀ b ∈ stream.takeWhile (· ≠ newline), b ≠ 0 ∧ b ≠ 255) ∧
    n + (typed stream).length < SIZE

theorem hasLine_newline {n : Nat} (hn : n < SIZE) : HasLine n (newline :: stream) := by
  refine ⟨.head _, ?_, ?_⟩
  · simp
  · rwa [typed_newline]

theorem hasLine_cons {n : Nat} (hnewline : b ≠ newline) :
    HasLine n (b :: stream) ↔ b ≠ 0 ∧ b ≠ 255 ∧
      HasLine (if b = tab then n else n + 1) stream := by
  have htyped : n + (typed (b :: stream)).length =
      (if b = tab then n else n + 1) + (typed stream).length := by
    by_cases htab : b = tab
    · rw [if_pos htab, htab, typed_tab]
    · rw [if_neg htab, typed_cons hnewline htab, List.length_cons]
      omega
  have htake : (b :: stream).takeWhile (· ≠ newline) = b :: stream.takeWhile (· ≠ newline) := by
    rw [List.takeWhile_cons, decide_eq_true hnewline, if_pos rfl]
  rw [HasLine, HasLine, htyped, htake, List.mem_cons, or_iff_right (Ne.symm hnewline),
    List.forall_mem_cons]
  tauto

theorem inputLoop_iff (h : Reading w s) (hfuel : stream.length < fuel) :
    Returned (w ++ typed stream) (inputLoop fuel stream s) ↔ HasLine w.length stream := by
  induction stream generalizing fuel w s with
  | nil =>
      rw [inputLoop_eof]
      exact iff_of_false not_returned_none (by rintro ⟨⟨⟩, -⟩)
  | cons b stream ih =>
      obtain ⟨fuel, rfl⟩ : ∃ n, fuel = n + 1 := ⟨fuel - 1, by rw [List.length_cons] at hfuel; omega⟩
      have hfuel' : stream.length < fuel := by
        rw [List.length_cons] at hfuel
        omega
      simp only [inputLoop, getchar, char_end, char_newline, char_tab]
      by_cases hend : b = 255
      · rw [if_pos hend]
        refine iff_of_false ?_ fun hline => ((hasLine_cons (by rw [hend]; decide)).1 hline).2.1 hend
        rintro ⟨s', heq, -, hstring⟩
        cases heq
        rw [h.terminate] at hstring
        have hlen := congrArg List.length (h.string.unique hstring)
        rw [typed_cons (by rw [hend]; decide) (by rw [hend]; decide), List.length_append,
          List.length_cons] at hlen
        omega
      · rw [if_neg hend]
        by_cases hnewline : b = newline
        · obtain ⟨s', hs', h'⟩ := h.update
          rw [if_pos hnewline, hs', hnewline, typed_newline, List.append_nil]
          exact iff_of_true h'.returned (hasLine_newline h.room)
        · rw [if_neg hnewline, hasLine_cons hnewline]
          by_cases htab : b = tab
          · obtain ⟨s', hs', h'⟩ := h.update
            rw [if_pos htab, if_pos htab, hs', htab, typed_tab]
            have hplain : tab ≠ 0 ∧ tab ≠ 255 := by decide
            rw [← and_assoc, and_iff_right hplain]
            exact ih h' hfuel'
          · rw [if_neg htab, if_neg htab, typed_cons hnewline htab, and_iff_right hend]
            by_cases hzero : b = 0
            · refine iff_of_false ?_ fun hline => hline.1 hzero
              rintro ⟨s', -, -, hstring⟩
              exact hstring.plain (by simp [hzero])
            · rw [and_iff_right hzero]
              by_cases hroom : w.length + 1 < SIZE
              · obtain ⟨s₁, hs₁, h₁⟩ := h.put hzero hroom
                obtain ⟨s₂, hs₂, h₂⟩ := h₁.update
                have hstep := ih h₂ hfuel'
                rw [List.append_assoc, List.length_append, List.length_singleton] at hstep
                simpa [hs₁, hs₂] using hstep
              · rw [put_full h (by omega)]
                refine iff_of_false not_returned_none fun hline => ?_
                have := hline.2.2
                omega

/-- `read_input` returns the string that was typed exactly if it has memory for it and the stream
has a line that fits the buffer, without the characters 0 and 255. -/
theorem readInput_iff (granted : Bool) (g : Globals) (stream : List UInt8) :
    Typed stream (readInput granted g stream) ↔ granted = true ∧ newline ∈ stream ∧
      (∀ b ∈ stream.takeWhile (· ≠ newline), b ≠ 0 ∧ b ≠ 255) ∧ (typed stream).length < SIZE := by
  cases granted with
  | false => exact iff_of_false (by rintro ⟨_, ⟨⟩, -⟩) (by simp)
  | true =>
      have hstart : Reading [] ⟨fun _ => 0, 0, 0, g⟩ := ⟨⟨holds_nil, by simp, rfl⟩, rfl, by decide⟩
      have hloop : Returned ([] ++ typed stream)
          (inputLoop (stream.length + SIZE + 1) stream ⟨fun _ => 0, 0, 0, g⟩) ↔
            HasLine ([] : List UInt8).length stream := inputLoop_iff hstart (by omega)
      rw [HasLine, List.length_nil, Nat.zero_add, List.nil_append] at hloop
      rw [and_iff_right rfl, ← hloop, readInput, if_pos rfl]
      constructor
      · rintro ⟨s, heq, hstring⟩
        cases hs : inputLoop (stream.length + SIZE + 1) stream ⟨fun _ => 0, 0, 0, g⟩ with
        | none =>
            rw [hs] at heq
            cases heq
        | some s' =>
            rw [hs] at heq
            change (if s'.pos < SIZE then _ else _) = _ at heq
            split at heq
            · rename_i hpos
              cases heq
              exact ⟨s', rfl, hpos, hstring⟩
            · cases heq
      · rintro ⟨s, hs, hpos, hstring⟩
        rw [hs]
        exact ⟨_, if_pos hpos, hstring⟩

/-- At the end of a stream without a newline. -/
theorem readInput_unterminated :
    readInput true ⟨fun _ => 0, 0, 0⟩ [97] = none ∧
      ¬Typed [97] (readInput true ⟨fun _ => 0, 0, 0⟩ [97]) := by
  have hnone : readInput true ⟨fun _ => 0, 0, 0⟩ [97] = none :=
    Option.isNone_iff_eq_none.1 (by decide +kernel)
  refine ⟨hnone, ?_⟩
  rw [hnone]
  rintro ⟨_, ⟨⟩, -⟩

end Loop

end Xv6.User.ReadInput
