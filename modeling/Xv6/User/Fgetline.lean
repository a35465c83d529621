import Xv6.Verified.Strings

/-!
# `fgetline`

`fgetline` of `user/bash.c`, which reads scripts, and of `kernel/libc/stdio.c`: the same loop over
the bytes of the file, with another function to read one.  The size of the line is looked at
nowhere; a store outside it stops the model.

* `fgetline_lines_iff`: the calls give the lines of the file exactly if each has room in the line
  with a NUL behind it, and the last one is terminated.
-/

namespace Xv6.User.Fgetline

open Xv6.Verified.Strings

/-- The bytes that end a line, LF and CR. -/
abbrev Ends (b : UInt8) : Bool := b == 10 || b == 13

/-- What a call leaves: what it returns, where `none` is -1, the rest of the file, and the line. -/
structure Call where
  result : Option Nat
  rest : List UInt8
  line : Nat → UInt8

/-- The loop of `fgetline`, over the bytes that are read, and what follows it. -/
def lineLoop (size : Nat) : List UInt8 → Nat → (Nat → UInt8) → Option Call
  | [], _, line => some ⟨none, [], line⟩
  | b :: bytes, index, line =>
      if index < size then
        if Ends b then some ⟨some index, bytes, Function.update line index 0⟩
        else lineLoop size bytes (index + 1) (Function.update line index b)
      else none

/-- `fgetline` of `bash`.  Where `fd` is not open, `read` fails. -/
def fgetline (fd : Option (List UInt8)) (line : Nat → UInt8) (size : Nat) : Option Call :=
  match fd with
  | some bytes => lineLoop size bytes 0 line
  | none => some ⟨none, [], line⟩

/-- `fgetline` of the kernel.  What `argfd` returns is not looked at: where `fd` is not open, `f` is
what was on the stack. -/
def kernelFgetline (junk : List UInt8) (fd : Option (List UInt8)) (line : Nat → UInt8)
    (size : Nat) : Option Call :=
  lineLoop size (fd.getD junk) 0 line

/-- A call of one of them, on an open file. -/
abbrev Getline := List UInt8 → (Nat → UInt8) → Nat → Option Call

/-- The calls until one returns -1, and the lines that they give. -/
def allLines (getline : Getline) (size : Nat) :
    Nat → List UInt8 → (Nat → UInt8) → Option (List (List UInt8))
  | 0, _, _ => none
  | fuel + 1, bytes, line => do
      let call ← getline bytes line size
      match call.result with
      | none => return []
      | some index => do
          let rest ← allLines getline size fuel call.rest call.line
          return (List.range index).map call.line :: rest

/-- The lines of a file, also the last one if it is not terminated. -/
def fileLines (bytes : List UInt8) : List (List UInt8) :=
  let parts := bytes.splitOnP Ends
  if parts.getLast? = some [] then parts.dropLast else parts

/-- The calls give the lines of the file, cut to fit, and store inside the line only; those of the
kernel do the same. -/
def Splits (bytes : List UInt8) (line : Nat → UInt8) (size : Nat) : Prop :=
  (∃ fuel, allLines (fun bytes => fgetline (some bytes)) size fuel bytes line =
    some ((fileLines bytes).map (·.take (size - 1)))) ∧
  ∀ junk fuel, allLines (fun bytes => kernelFgetline junk (some bytes)) size fuel bytes line =
    allLines (fun bytes => fgetline (some bytes)) size fuel bytes line

/-- The last line of the file is terminated. -/
def Terminated (bytes : List UInt8) : Prop := ∀ b ∈ bytes.getLast?, Ends b = true

section Lines

variable {size index fuel : Nat} {line : Nat → UInt8} {bytes rest w l : List UInt8} {e : UInt8}

theorem fileLines_append (hl : ∀ b ∈ l, Ends b = false) (he : Ends e = true) :
    fileLines (l ++ e :: rest) = l :: fileLines rest := by
  have hne : rest.splitOnP Ends ≠ [] := List.splitOnP_ne_nil _ _
  simp only [fileLines, List.splitOnP_append_cons_of_forall_mem hl e he]
  rw [List.getLast?_cons, List.getLast?_eq_some_getLast hne, Option.getD_some]
  split
  · rw [List.dropLast_cons_of_ne_nil hne]
  · rfl

theorem fileLines_single (hl : ∀ b ∈ l, Ends b = false) :
    fileLines l = if l = [] then [] else [l] := by
  simp only [fileLines, List.splitOnP_eq_singleton hl, List.getLast?_singleton, Option.some_inj]
  rfl

/-- A file is a last line without its end, or begins with a line and the end of it. -/
theorem line_cases (bytes : List UInt8) : (∀ b ∈ bytes, Ends b = false) ∨
    ∃ l e rest, bytes = l ++ e :: rest ∧ (∀ b ∈ l, Ends b = false) ∧ Ends e = true := by
  induction bytes with
  | nil => exact .inl (by simp)
  | cons b bytes ih =>
      by_cases hb : Ends b = true
      · exact .inr ⟨[], b, bytes, rfl, by simp, hb⟩
      · rw [Bool.not_eq_true] at hb
        rcases ih with hall | ⟨l, e, rest, rfl, hl, he⟩
        · exact .inl (List.forall_mem_cons.2 ⟨hb, hall⟩)
        · exact .inr ⟨b :: l, e, rest, rfl, List.forall_mem_cons.2 ⟨hb, hl⟩, he⟩

theorem terminated_append (he : Ends e = true) : Terminated (l ++ e :: rest) ↔ Terminated rest := by
  rw [Terminated, List.getLast?_append_of_ne_nil _ (by simp), Terminated]
  cases rest with
  | nil => simpa using he
  | cons b rest => simp

theorem not_terminated (hl : ∀ b ∈ l, Ends b = false) (hne : l ≠ []) : ¬Terminated l := by
  intro h
  have hlast := h (l.getLast hne) (List.getLast?_eq_some_getLast hne)
  rw [hl _ (List.getLast_mem hne)] at hlast
  cases hlast

/-- The loop at a line that is terminated. -/
theorem lineLoop_line (hl : ∀ b ∈ l, Ends b = false) (he : Ends e = true) (h : Holds line w)
    (hindex : index = w.length) :
    (size ≤ (w ++ l).length → lineLoop size (l ++ e :: rest) index line = none) ∧
    ((w ++ l).length < size → ∃ line', Holds line' (w ++ l) ∧
      lineLoop size (l ++ e :: rest) index line = some ⟨some (w ++ l).length, rest, line'⟩) := by
  subst hindex
  induction l generalizing w line with
  | nil =>
      rw [List.append_nil, List.nil_append, lineLoop]
      refine ⟨fun hle => if_neg (by omega), fun hlt => ⟨Function.update line w.length 0, ?_, ?_⟩⟩
      · exact h.frame fun i hi => Function.update_of_ne (by omega) _ _
      · rw [if_pos hlt, if_pos he]
  | cons b l ih =>
      obtain ⟨hb, hl⟩ := List.forall_mem_cons.1 hl
      have hlen : (w ++ [b]).length = w.length + 1 := by
        rw [List.length_append, List.length_singleton]
      have h' : Holds (Function.update line w.length b) (w ++ [b]) :=
        h.push (fun i hi => Function.update_of_ne (by omega) _ _) (Function.update_self _ _ _)
      have hrest := ih hl h'
      rw [hlen, List.append_assoc, List.singleton_append] at hrest
      rw [List.cons_append, lineLoop, hb]
      by_cases hroom : w.length < size
      · rwa [if_pos hroom, if_neg (by simp)]
      · refine ⟨fun _ => if_neg hroom, fun hlt => absurd hlt ?_⟩
        rw [List.length_append]
        omega

/-- The loop at a line that is not. -/
theorem lineLoop_last (hl : ∀ b ∈ l, Ends b = false) :
    lineLoop size l index line = none ∨
      ∃ line', lineLoop size l index line = some ⟨none, [], line'⟩ := by
  induction l generalizing index line with
  | nil => exact .inr ⟨line, rfl⟩
  | cons b l ih =>
      obtain ⟨hb, hl⟩ := List.forall_mem_cons.1 hl
      rw [lineLoop, hb]
      split
      · exact ih hl
      · exact .inl rfl

/-- The calls on an open file. -/
abbrev userLines (size : Nat) := allLines (fun bytes => fgetline (some bytes)) size

theorem userLines_last (hl : ∀ b ∈ l, Ends b = false) {r : List (List UInt8)}
    (h : userLines size fuel l line = some r) : r = [] := by
  cases fuel with
  | zero => cases h
  | succ fuel =>
      rw [userLines, allLines, fgetline] at h
      have hlast : lineLoop size l 0 line = none ∨
          ∃ line', lineLoop size l 0 line = some ⟨none, [], line'⟩ := lineLoop_last hl
      rcases hlast with hloop | ⟨line', hloop⟩
      · rw [hloop] at h
        cases h
      · rw [hloop] at h
        cases h
        rfl

/-- A line that has no room. -/
theorem userLines_full (hl : ∀ b ∈ l, Ends b = false) (he : Ends e = true)
    (hfull : size ≤ l.length) :
    userLines size fuel (l ++ e :: rest) line = none := by
  cases fuel with
  | zero => rfl
  | succ fuel =>
      have hnone : lineLoop size (l ++ e :: rest) 0 line = none :=
        (lineLoop_line hl he holds_nil rfl).1 hfull
      rw [userLines, allLines, fgetline, hnone]
      rfl

/-- A line that has. -/
theorem userLines_line (hl : ∀ b ∈ l, Ends b = false) (he : Ends e = true)
    (hroom : l.length < size) :
    ∃ line', ∀ fuel, userLines size (fuel + 1) (l ++ e :: rest) line =
      (userLines size fuel rest line').map (l :: ·) := by
  have hline : ∃ line', Holds line' ([] ++ l) ∧
      lineLoop size (l ++ e :: rest) 0 line = some ⟨some ([] ++ l).length, rest, line'⟩ :=
    (lineLoop_line hl he holds_nil rfl).2 (by rwa [List.nil_append])
  obtain ⟨line', hholds, hloop⟩ := hline
  rw [List.nil_append] at hholds hloop
  have hline : (List.range l.length).map line' = l := by
    refine List.ext_getElem (by rw [List.length_map, List.length_range]) fun i _ hi => ?_
    rw [List.getElem_map, List.getElem_range, hholds.getElem hi]
  refine ⟨line', fun fuel => ?_⟩
  rw [userLines, allLines, fgetline, hloop]
  change (userLines size fuel rest line').bind _ = _
  rw [hline, Option.map_eq_bind]
  rfl

theorem userLines_iff (bytes : List UInt8) (line : Nat → UInt8) :
    (∃ fuel, userLines size fuel bytes line = some ((fileLines bytes).map (·.take (size - 1)))) ↔
      Terminated bytes ∧ ∀ l ∈ fileLines bytes, l.length < size := by
  induction hn : bytes.length using Nat.strongRecOn generalizing bytes line with
  | _ n ih =>
      rcases line_cases bytes with hl | ⟨l, e, rest, rfl, hl, he⟩
      · rw [fileLines_single hl]
        by_cases hnil : bytes = []
        · subst hnil
          exact iff_of_true ⟨1, rfl⟩ ⟨by simp [Terminated], by simp⟩
        · rw [if_neg hnil]
          refine iff_of_false ?_ fun h => not_terminated hl hnil h.1
          rintro ⟨fuel, h⟩
          cases userLines_last hl h
      · rw [fileLines_append hl he, terminated_append he, List.map_cons, List.forall_mem_cons]
        by_cases hroom : l.length < size
        · have hrest := fun line' => ih rest.length
            (by rw [← hn, List.length_append, List.length_cons]; omega) rest line' rfl
          rw [and_iff_right hroom, List.take_of_length_le (by omega)]
          obtain ⟨line', hloop⟩ : ∃ line', ∀ fuel, userLines size (fuel + 1) (l ++ e :: rest) line =
              (userLines size fuel rest line').map (l :: ·) := userLines_line hl he hroom
          constructor
          · rintro ⟨fuel, h⟩
            cases fuel with
            | zero => cases h
            | succ fuel =>
                rw [hloop, Option.map_eq_some_iff] at h
                obtain ⟨r, hr, heq⟩ := h
                exact (hrest line').1 ⟨fuel, hr.trans (congrArg some (List.cons.inj heq).2)⟩
          · intro h
            obtain ⟨fuel, hfuel⟩ := (hrest line').2 h
            exact ⟨fuel + 1, by rw [hloop, hfuel, Option.map_some]⟩
        · refine iff_of_false ?_ fun h => hroom h.2.1
          rintro ⟨fuel, h⟩
          rw [userLines_full hl he (Nat.le_of_not_lt hroom)] at h
          cases h

/-- The calls give the lines of the file exactly if each fits with its NUL and the last one is
terminated. -/
theorem fgetline_lines_iff (bytes : List UInt8) (line : Nat → UInt8) (size : Nat) :
    Splits bytes line size ↔ Terminated bytes ∧ ∀ l ∈ fileLines bytes, l.length < size := by
  rw [Splits, userLines_iff]
  exact and_iff_left fun _ _ => rfl

/-- A file with one line, `a`, that is not terminated. -/
theorem fgetline_drops_last :
    allLines (fun bytes => fgetline (some bytes)) 128 2 [97] (fun _ => 0) = some [] ∧
      ¬Splits [97] (fun _ => 0) 128 := by
  refine ⟨by decide, fun h => ?_⟩
  obtain ⟨fuel, hfuel⟩ := h.1
  have hplain : ∀ b ∈ [(97 : UInt8)], Ends b = false := by
    intro b hb
    rw [List.mem_singleton.1 hb]
    rfl
  cases userLines_last hplain hfuel

end Lines

end Xv6.User.Fgetline
