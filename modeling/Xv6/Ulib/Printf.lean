import Mathlib.Data.List.Basic
import Mathlib.Tactic.Ring

/-!
# `printf`

`printf` of `ulib/libc/stdio/printf.c`: a machine with two states that reads the format character
by character, with the flag, the width and the state in variables that only some of the branches
set back.  The result is what is written, or nothing where the code goes wrong: if an argument is
missing or of another type, or if a width does not fit into `prefix`.

A format is a list of literal characters and directives.

## Main results

* `printf_iff`: the formats and arguments for which every directive is written on its own.
-/

namespace Xv6.Ulib.Printf

/-! ## The code -/

/-- An argument: an `int`, or a pointer to a string, which may be 0. -/
inductive Arg where
  | int (v : BitVec 32)
  | str (s : Option (List Char))

/-- `va_arg(ap, int)` and `va_arg(ap, uint)`. -/
def vaInt : List Arg → Option (BitVec 32 × List Arg)
  | .int v :: args => some (v, args)
  | _ => none

/-- `va_arg(ap, char*)`. -/
def vaStr : List Arg → Option (Option (List Char) × List Arg)
  | .str s :: args => some (s, args)
  | _ => none

/-- The entries of `digits`. -/
def digit (d : Nat) : Char := "0123456789ABCDEF".toList.getD d '0'

/-- The loop that fills `buf`, which is read backwards. -/
def printDigits (base : Nat) : Nat → Nat → List Char
  | 0, _ => []
  | fuel + 1, x =>
      (if x / base = 0 then [] else printDigits base fuel (x / base)) ++ [digit (x % base)]

/-- The text of `printint` and of `itoa`. -/
def printint (v : BitVec 32) (base : Nat) (sgn : Bool) : List Char :=
  if sgn = true ∧ v.toInt < 0 then '-' :: printDigits base 16 (-v).toNat
  else printDigits base 16 v.toNat

/-- `isdigit`. -/
def isdigit (c : Char) : Bool := 48 ≤ c.toNat ∧ c.toNat ≤ 57

/-- `atoi`. -/
def atoi (s : List Char) : Nat :=
  (s.takeWhile isdigit).foldl (fun n c => n * 10 + (c.toNat - 48)) 0

/-- What is written for the string at 0. -/
def null : List Char := "(null)".toList

/-- A text and the spaces around it.  `left` is `justified == 0`. -/
def fillOut (left : Bool) (pre text : List Char) : List Char :=
  let spaces := if pre.length > 0 then List.replicate (atoi pre - text.length) ' ' else []
  if left then text ++ spaces else spaces ++ text

/-- The loop of `printf`.  `pct` is the state, `left` is `justified` and `pre` is `prefix`. -/
def printfLoop (pct left : Bool) (pre : List Char) : List Char → List Arg → Option (List Char)
  | [], _ => some []
  | c :: fmt, args =>
      if pct = false then
        if c = '%' then printfLoop true left [] fmt args
        else (printfLoop false left pre fmt args).map (c :: ·)
      else if c = 'd' then
        (vaInt args).bind fun (v, args) =>
          (printfLoop false left pre fmt args).map (fillOut left pre (printint v 10 false) ++ ·)
      else if c = 'x' ∨ c = 'p' then
        (vaInt args).bind fun (v, args) =>
          (printfLoop true left pre fmt args).map (printint v 16 true ++ ·)
      else if c = 's' then
        (vaStr args).bind fun (s, args) =>
          (printfLoop false left pre fmt args).map
            (fillOut left pre (s.getD null) ++ ·)
      else if c = 'c' then
        (vaInt args).bind fun (v, args) =>
          (printfLoop true left pre fmt args).map (Char.ofNat (v.toNat % 256) :: ·)
      else if c = 'f' then none
      else if c = '-' then printfLoop true true pre fmt args
      else if c = '%' then (printfLoop true left pre fmt args).map (c :: ·)
      else if isdigit c = false then (printfLoop false left pre fmt args).map (c :: ·)
      else if (fmt.takeWhile isdigit).length < 9 then
        printfLoop true left (c :: fmt.takeWhile isdigit) (fmt.dropWhile isdigit) args
      else none
  termination_by fmt => fmt.length
  decreasing_by
    all_goals simp_wf
    have := (List.dropWhile_suffix (l := fmt) isdigit).length_le
    omega

/-- `printf`. -/
def printf (fmt : List Char) (args : List Arg) : Option (List Char) :=
  printfLoop false false [] fmt args

/-! ## Formats -/

/-- The conversions. -/
inductive Conv where
  | d | x | p | s | c | percent
deriving DecidableEq

def Conv.char : Conv → Char
  | d => 'd'
  | x => 'x'
  | p => 'p'
  | s => 's'
  | c => 'c'
  | percent => '%'

/-- A directive. -/
structure Directive where
  left : Bool
  width : List Char
  conv : Conv
  digits : ∀ c ∈ width, isdigit c = true
  short : width.length ≤ 9

/-- A piece of a format. -/
inductive Item where
  | lit (c : Char) (h : c ≠ '%')
  | dir (d : Directive)

/-- What is written behind the percent sign. -/
def Directive.body (d : Directive) : List Char :=
  (if d.left then ['-'] else []) ++ (d.width ++ [d.conv.char])

def Item.chars : Item → List Char
  | lit c _ => [c]
  | dir d => '%' :: d.body

/-- The format string. -/
def format (its : List Item) : List Char := its.flatMap Item.chars

/-- The decimal of a signed number. -/
def decimal (v : BitVec 32) : List Char :=
  if v.toInt < 0 then '-' :: Nat.toDigits 10 v.toInt.natAbs else Nat.toDigits 10 v.toInt.natAbs

/-- The hexadecimal digits of the 32 bits. -/
def hex (v : BitVec 32) : List Char := (Nat.toDigits 16 v.toNat).map Char.toUpper

/-- The text with the spaces that the directive asks for. -/
def Directive.pad (d : Directive) (text : List Char) : List Char :=
  if d.left then text.rightpad (atoi d.width) ' ' else text.leftpad (atoi d.width) ' '

/-- What a directive is to write, and the arguments behind its own. -/
def Directive.render (d : Directive) (args : List Arg) : Option (List Char × List Arg) :=
  match d.conv with
  | .d => (vaInt args).map fun (v, args) => (d.pad (decimal v), args)
  | .x => (vaInt args).map fun (v, args) => (hex v, args)
  | .p => (vaInt args).map fun (v, args) => (hex v, args)
  | .s => (vaStr args).map fun (s, args) => (d.pad (s.getD null), args)
  | .c => (vaInt args).map fun (v, args) => ([Char.ofNat (v.toNat % 256)], args)
  | .percent => some (['%'], args)

/-- What a format is to write, if the arguments match it. -/
def rendering : List Item → List Arg → Option (List Char)
  | [], [] => some []
  | [], _ :: _ => none
  | .lit c _ :: its, args => (rendering its args).map (c :: ·)
  | .dir d :: its, args => (d.render args).bind fun r => (rendering its r.2).map (r.1 ++ ·)

/-! ## The formats that are written so -/

/-- A text that no flag of an earlier directive moves. -/
def Directive.Unmoved (d : Directive) (left : Bool) (text : List Char) : Prop :=
  left = true → d.left = false → atoi d.width ≤ text.length ∨ ∀ c ∈ text, c = ' '

/-- The numbers are not negative, and the text is not moved. -/
def Directive.Plain (d : Directive) (left : Bool) (args : List Arg) : Prop :=
  match d.conv with
  | .d => ∀ v rest, vaInt args = some (v, rest) → 0 ≤ v.toInt ∧ d.Unmoved left (decimal v)
  | .x => ∀ v rest, vaInt args = some (v, rest) → 0 ≤ v.toInt
  | .p => ∀ v rest, vaInt args = some (v, rest) → 0 ≤ v.toInt
  | .s => ∀ s rest, vaStr args = some (s, rest) → d.Unmoved left (s.getD null)
  | .c => True
  | .percent => True

/-- A character that means something in the state `%`. -/
def special (c : Char) : Bool := c ∈ ['d', 'x', 'p', 's', 'c', 'f', '-', '%'] || isdigit c

/-- Nothing is behind a directive that leaves the machine in its state, or a character that brings
it back. -/
def Ends : List Item → Prop
  | [] => True
  | .lit c _ :: _ => special c = false
  | .dir _ :: _ => False

/-- The format and the arguments stay clear of what the machine carries over.  `left` says that an
earlier directive had the flag. -/
def Independent : Bool → List Item → List Arg → Prop
  | _, [], _ => True
  | left, .lit _ _ :: its, args => Independent left its args
  | left, .dir d :: its, args =>
      d.Plain left args ∧ (d.conv = .d ∨ d.conv = .s ∨ Ends its) ∧
        ∀ r, d.render args = some r → Independent (left || d.left) its r.2

/-! ## Numbers -/

variable {base fuel x a b : Nat} {c : Char} {v : BitVec 32} {t t' u u' : List Char}
  {fmt pre out o : List Char} {args : List Arg} {its : List Item} {pct left : Bool} {d : Directive}

theorem digit_eq (h : x < 16) : digit x = (Nat.digitChar x).toUpper := by
  have hall : ∀ x < 16, digit x = (Nat.digitChar x).toUpper := by decide
  exact hall x h

theorem printDigits_eq (hb : 1 < base) (hb' : base ≤ 16) (h : x < base ^ fuel) (hx : 0 < fuel) :
    printDigits base fuel x = (Nat.toDigits base x).map Char.toUpper := by
  induction fuel generalizing x with
  | zero => exact absurd hx (Nat.lt_irrefl 0)
  | succ fuel ih =>
      have hdigit : digit (x % base) = (Nat.digitChar (x % base)).toUpper :=
        digit_eq ((Nat.mod_lt x (by omega)).trans_le hb')
      rw [printDigits, Nat.toDigits_eq_if hb, hdigit]
      by_cases hlt : x < base
      · rw [if_pos (Nat.div_eq_of_lt hlt), if_pos hlt, Nat.mod_eq_of_lt hlt]
        rfl
      · have hpos : 0 < x / base := Nat.div_pos (by omega) (by omega)
        have hdiv : x / base < base ^ fuel :=
          Nat.div_lt_of_lt_mul (by rwa [Nat.pow_succ, Nat.mul_comm] at h)
        have hfuel : 0 < fuel := by
          rcases Nat.eq_zero_or_pos fuel with rfl | hfuel
          · rw [Nat.pow_zero] at hdiv
            omega
          · exact hfuel
        rw [if_neg (by omega), if_neg hlt, ih hdiv hfuel, List.map_append]
        rfl

/-- The digits of ten are no letters. -/
theorem toUpper_toDigits (x : Nat) : (Nat.toDigits 10 x).map Char.toUpper = Nat.toDigits 10 x := by
  have hsame : ∀ c ∈ Nat.toDigits 10 x, c.toUpper = c := by
    intro c hc
    have hdigit := Nat.isDigit_of_mem_toDigits (by decide) (by decide) hc
    rw [Char.isDigit, Bool.and_eq_true, decide_eq_true_iff, decide_eq_true_iff] at hdigit
    refine dif_neg fun hlower => ?_
    have := UInt32.le_trans hlower.1 hdigit.2
    exact absurd this (by decide)
  rw [List.map_congr_left hsame, List.map_id']

theorem mem_printDigits (h : c ∈ printDigits base fuel x) : c ∈ "0123456789ABCDEF".toList := by
  induction fuel generalizing x with
  | zero => cases h
  | succ fuel ih =>
      rw [printDigits, List.mem_append, List.mem_singleton] at h
      rcases h with h | rfl
      · split at h
        · cases h
        · exact ih h
      · rw [digit, List.getD_eq_getElem?_getD]
        cases hd : "0123456789ABCDEF".toList[x % base]? with
        | none => decide
        | some d => exact List.mem_of_getElem? hd

theorem digits_plain : ∀ c ∈ "0123456789ABCDEF".toList, c ≠ '%' ∧ c ≠ '-' ∧ c ≠ ' ' := by
  simp

theorem printDigits_cons (base fuel x : Nat) :
    ∃ c l, printDigits base (fuel + 1) x = c :: l ∧ c ∈ "0123456789ABCDEF".toList := by
  cases h : printDigits base (fuel + 1) x with
  | nil =>
      rw [printDigits] at h
      simp at h
  | cons c l => exact ⟨c, l, rfl, mem_printDigits (h ▸ List.mem_cons_self)⟩

/-- A number that is not negative, as an unsigned one. -/
theorem toNat_of_nonneg (h : 0 ≤ v.toInt) : v.toInt.natAbs = v.toNat := by
  have := v.isLt
  rw [BitVec.toInt] at h ⊢
  split at h <;> split <;> omega

theorem decimal_of_nonneg (h : 0 ≤ v.toInt) : decimal v = printDigits 10 16 v.toNat := by
  have hlt := v.isLt
  rw [decimal, if_neg (by omega), toNat_of_nonneg h,
    printDigits_eq (by decide) (by decide) (by omega) (by decide), toUpper_toDigits]

theorem hex_eq (v : BitVec 32) : hex v = printDigits 16 16 v.toNat := by
  have hlt := v.isLt
  rw [hex, printDigits_eq (by decide) (by decide) (by omega) (by decide)]

theorem printint_unsigned (v : BitVec 32) (base : Nat) :
    printint v base false = printDigits base 16 v.toNat :=
  if_neg fun h => Bool.false_ne_true h.1

theorem printint_nonneg (h : 0 ≤ v.toInt) (base : Nat) :
    printint v base true = printDigits base 16 v.toNat :=
  if_neg fun hneg => absurd h (by omega)

/-! ## Spaces -/

theorem fillOut_eq (left : Bool) (pre text : List Char) :
    fillOut left pre text = if left then text ++ List.replicate (atoi pre - text.length) ' '
      else List.replicate (atoi pre - text.length) ' ' ++ text := by
  rw [fillOut]
  cases pre with
  | nil =>
      have hzero : atoi [] - text.length = 0 := Nat.zero_sub _
      rw [hzero]
      rfl
  | cons c pre => rfl

theorem pad_eq (d : Directive) (text : List Char) :
    d.pad text = if d.left then text ++ List.replicate (atoi d.width - text.length) ' '
      else List.replicate (atoi d.width - text.length) ' ' ++ text := by
  rw [Directive.pad]
  rfl

/-- Where the spaces in front of a text end. -/
theorem spaces_cons (hc : c ≠ ' ') {c' : Char} (hc' : c' ≠ ' ')
    (h : List.replicate a ' ' ++ c :: t = List.replicate b ' ' ++ c' :: u) :
    a = b ∧ c = c' := by
  induction a generalizing b with
  | zero =>
      cases b with
      | zero => exact ⟨rfl, (List.cons.inj h).1⟩
      | succ b => exact absurd (List.cons.inj h).1 hc
  | succ a ih =>
      cases b with
      | zero => exact absurd (List.cons.inj h).1.symm hc'
      | succ b =>
          obtain ⟨hab, hcc⟩ := ih (List.cons.inj h).2
          exact ⟨congrArg (· + 1) hab, hcc⟩

/-- Spaces can be moved over spaces only. -/
theorem spaces_comm (ha : 0 < a) :
    t ++ List.replicate a ' ' = List.replicate a ' ' ++ t ↔ ∀ c ∈ t, c = ' ' := by
  obtain ⟨a, rfl⟩ := Nat.exists_eq_succ_of_ne_zero (Nat.ne_of_gt ha)
  constructor
  · intro h
    induction t with
    | nil => exact nofun
    | cons c t ih =>
        rw [List.replicate_succ, List.cons_append, List.cons_append] at h
        obtain ⟨rfl, hrest⟩ := List.cons.inj h
        have hrest' : t ++ List.replicate (a + 1) ' ' = List.replicate (a + 1) ' ' ++ t := by
          rw [List.replicate_succ, hrest, ← List.singleton_append (l := t), ← List.append_assoc,
            ← List.replicate_succ', List.replicate_succ]
        exact List.forall_mem_cons.2 ⟨rfl, ih hrest'⟩
  · intro h
    rw [List.eq_replicate_of_mem h, List.replicate_append_replicate,
      List.replicate_append_replicate, Nat.add_comm]

/-- The text of a directive is where it is to be if and only if no flag moves it. -/
theorem fillOut_pad (d : Directive) (left : Bool) (text o o' : List Char) :
    fillOut (left || d.left) d.width text ++ o = d.pad text ++ o' ↔
      d.Unmoved left text ∧ o = o' := by
  rw [fillOut_eq, pad_eq, Directive.Unmoved]
  cases hd : d.left with
  | true => simp
  | false =>
      cases left with
      | false => simp
      | true =>
          simp only [Bool.or_false, if_true, Bool.false_eq_true, if_false, true_implies]
          rcases Nat.lt_or_ge text.length (atoi d.width) with hlt | hle
          · rw [← spaces_comm (Nat.sub_pos_of_lt hlt), or_iff_right (Nat.not_le_of_lt hlt)]
            refine ⟨fun h => List.append_inj h (by simp [Nat.add_comm]), ?_⟩
            rintro ⟨htext, rfl⟩
            rw [htext]
          · simp [Nat.sub_eq_zero_of_le hle, hle]

/-! ## Steps of the machine -/

theorem loop_open (left : Bool) (pre fmt : List Char) (args : List Arg) :
    printfLoop false left pre ('%' :: fmt) args = printfLoop true left [] fmt args := by
  rw [printfLoop, if_pos rfl, if_pos rfl]

theorem loop_text (hc : c ≠ '%') (left : Bool) (pre fmt : List Char) (args : List Arg) :
    printfLoop false left pre (c :: fmt) args =
      (printfLoop false left pre fmt args).map (c :: ·) := by
  rw [printfLoop, if_pos rfl, if_neg hc]

theorem loop_flag (left : Bool) (pre fmt : List Char) (args : List Arg) :
    printfLoop true left pre ('-' :: fmt) args = printfLoop true true pre fmt args := by
  rw [printfLoop]
  simp

theorem loop_percent (left : Bool) (pre fmt : List Char) (args : List Arg) :
    printfLoop true left pre ('%' :: fmt) args =
      (printfLoop true left pre fmt args).map ('%' :: ·) := by
  rw [printfLoop]
  simp

theorem special_iff (c : Char) : special c = false ↔
    c ≠ 'd' ∧ c ≠ 'x' ∧ c ≠ 'p' ∧ c ≠ 's' ∧ c ≠ 'c' ∧ c ≠ 'f' ∧ c ≠ '-' ∧ c ≠ '%' ∧
      isdigit c = false := by
  simp [special, and_assoc]

theorem loop_plain (hc : special c = false) (left : Bool) (pre fmt : List Char)
    (args : List Arg) :
    printfLoop true left pre (c :: fmt) args =
      (printfLoop false left pre fmt args).map (c :: ·) := by
  obtain ⟨hd, hx, hp, hs, hc', hf, hm, hpc, hdigit⟩ := (special_iff c).1 hc
  rw [printfLoop]
  simp [hd, hx, hp, hs, hc', hf, hm, hpc, hdigit]

theorem loop_digit (hc : isdigit c = true) (left : Bool) (pre fmt : List Char)
    (args : List Arg) :
    printfLoop true left pre (c :: fmt) args =
      if (fmt.takeWhile isdigit).length < 9 then
        printfLoop true left (c :: fmt.takeWhile isdigit) (fmt.dropWhile isdigit) args
      else none := by
  have hne : ∀ c', isdigit c' = false → c ≠ c' := by
    rintro c' hc' rfl
    exact Bool.false_ne_true (hc'.symm.trans hc)
  have hd := hne 'd' (by decide)
  have hx := hne 'x' (by decide)
  have hp := hne 'p' (by decide)
  have hs := hne 's' (by decide)
  have hc' := hne 'c' (by decide)
  have hf := hne 'f' (by decide)
  have hm := hne '-' (by decide)
  have hpc := hne '%' (by decide)
  rw [printfLoop]
  simp only [hd, hx, hp, hs, hc', hf, hm, hpc, hc, Bool.true_eq_false, or_self, if_false]

/-- What the machine writes at the letter of a directive, and the arguments that are left. -/
def Conv.written (conv : Conv) (left : Bool) (pre : List Char) (args : List Arg) :
    Option (List Char × List Arg) :=
  match conv with
  | .d => (vaInt args).map fun r => (fillOut left pre (printint r.1 10 false), r.2)
  | .x => (vaInt args).map fun r => (printint r.1 16 true, r.2)
  | .p => (vaInt args).map fun r => (printint r.1 16 true, r.2)
  | .s => (vaStr args).map fun r => (fillOut left pre (r.1.getD null), r.2)
  | .c => (vaInt args).map fun r => ([Char.ofNat (r.1.toNat % 256)], r.2)
  | .percent => some (['%'], args)

/-- The state behind the letter. -/
def Conv.stays : Conv → Bool
  | .d => false
  | .s => false
  | _ => true

theorem loop_conv (conv : Conv) (left : Bool) (pre fmt : List Char) (args : List Arg) :
    printfLoop true left pre (conv.char :: fmt) args = (conv.written left pre args).bind fun r =>
      (printfLoop conv.stays left pre fmt r.2).map (r.1 ++ ·) := by
  cases conv with
  | d =>
      rw [printfLoop]
      cases hargs : vaInt args <;> simp [Conv.char, Conv.written, Conv.stays, hargs]
  | x =>
      rw [printfLoop]
      cases hargs : vaInt args <;> simp [Conv.char, Conv.written, Conv.stays, hargs]
  | p =>
      rw [printfLoop]
      cases hargs : vaInt args <;> simp [Conv.char, Conv.written, Conv.stays, hargs]
  | s =>
      rw [printfLoop]
      cases hargs : vaStr args <;> simp [Conv.char, Conv.written, Conv.stays, hargs]
  | c =>
      rw [printfLoop]
      cases hargs : vaInt args <;> simp [Conv.char, Conv.written, Conv.stays, hargs]
  | percent =>
      rw [Conv.char, loop_percent]
      rfl

theorem not_isdigit_char (conv : Conv) : isdigit conv.char = false := by
  cases conv <;> decide

/-- The flag and the width of a directive. -/
theorem loop_body (d : Directive) (left : Bool) (pre fmt : List Char) (args : List Arg) :
    printfLoop true left pre (d.body ++ fmt) args = printfLoop true (left || d.left)
      (if d.width = [] then pre else d.width) (d.conv.char :: fmt) args := by
  have hwidth : ∀ left, printfLoop true left pre (d.width ++ d.conv.char :: fmt) args =
      printfLoop true left (if d.width = [] then pre else d.width) (d.conv.char :: fmt) args := by
    intro left
    have hdigits := d.digits
    have hshort := d.short
    cases hw : d.width with
    | nil => rfl
    | cons c w =>
        rw [hw] at hdigits hshort
        have htake : (w ++ d.conv.char :: fmt).takeWhile isdigit = w := by
          rw [List.takeWhile_append_of_pos fun c hc => hdigits c (List.mem_cons_of_mem _ hc),
            List.takeWhile_cons_of_neg (by simp [not_isdigit_char]), List.append_nil]
        have hdrop : (w ++ d.conv.char :: fmt).dropWhile isdigit = d.conv.char :: fmt := by
          rw [List.dropWhile_append_of_pos fun c hc => hdigits c (List.mem_cons_of_mem _ hc),
            List.dropWhile_cons_of_neg (by simp [not_isdigit_char])]
        rw [List.cons_append, loop_digit (hdigits c List.mem_cons_self), htake, hdrop,
          if_pos (Nat.lt_of_succ_le hshort), if_neg (List.cons_ne_nil _ _)]
  rw [Directive.body]
  cases hleft : d.left with
  | false =>
      rw [Bool.or_false, ← hwidth]
      simp
  | true =>
      rw [Bool.or_true, ← hwidth, ← loop_flag left]
      simp

/-! ## What is written and what is to be written -/

theorem not_mem_printDigits (base fuel x : Nat) : '%' ∉ printDigits base fuel x :=
  fun h => (digits_plain _ (mem_printDigits h)).1 rfl

theorem not_mem_decimal (v : BitVec 32) : '%' ∉ decimal v := by
  have hdigits : ∀ x, '%' ∉ Nat.toDigits 10 x := by
    intro x h
    have := Nat.isDigit_of_mem_toDigits (by decide) (by decide) h
    exact absurd this (by decide)
  rw [decimal]
  split
  · exact List.not_mem_cons_of_ne_of_not_mem (by decide) (hdigits _)
  · exact hdigits _

theorem count_fillOut (left : Bool) (pre text : List Char) :
    (fillOut left pre text).count '%' = text.count '%' := by
  rw [fillOut_eq]
  split <;> simp [List.count_replicate]

theorem count_pad (d : Directive) (text : List Char) :
    (d.pad text).count '%' = text.count '%' := by
  rw [pad_eq]
  split <;> simp [List.count_replicate]

/-- The machine takes the arguments of the directive, and writes no percent sign too few. -/
theorem written_render (d : Directive) (left : Bool) (pre : List Char) (args : List Arg) :
    (d.conv.written left pre args).map Prod.snd = (d.render args).map Prod.snd ∧
      ∀ r r', d.conv.written left pre args = some r → d.render args = some r' →
        r'.1.count '%' ≤ r.1.count '%' := by
  have hzero : ∀ v, (hex v).count '%' = 0 := fun v =>
    List.count_eq_zero.2 (hex_eq v ▸ not_mem_printDigits _ _ _)
  rw [Directive.render]
  cases d.conv with
  | d =>
      dsimp only [Conv.written]
      cases vaInt args with
      | none => exact ⟨rfl, nofun⟩
      | some q =>
          refine ⟨rfl, ?_⟩
          rintro r r' ⟨⟩ ⟨⟩
          rw [count_pad, List.count_eq_zero.2 (not_mem_decimal _)]
          exact Nat.zero_le _
  | x =>
      dsimp only [Conv.written]
      cases vaInt args with
      | none => exact ⟨rfl, nofun⟩
      | some q =>
          refine ⟨rfl, ?_⟩
          rintro r r' ⟨⟩ ⟨⟩
          exact (hzero _).le.trans (Nat.zero_le _)
  | p =>
      dsimp only [Conv.written]
      cases vaInt args with
      | none => exact ⟨rfl, nofun⟩
      | some q =>
          refine ⟨rfl, ?_⟩
          rintro r r' ⟨⟩ ⟨⟩
          exact (hzero _).le.trans (Nat.zero_le _)
  | s =>
      dsimp only [Conv.written]
      cases vaStr args with
      | none => exact ⟨rfl, nofun⟩
      | some q =>
          refine ⟨rfl, ?_⟩
          rintro r r' ⟨⟩ ⟨⟩
          exact (count_pad _ _).trans_le (count_fillOut _ _ _).ge
  | c =>
      dsimp only [Conv.written]
      cases vaInt args with
      | none => exact ⟨rfl, nofun⟩
      | some q =>
          refine ⟨rfl, ?_⟩
          rintro r r' ⟨⟩ ⟨⟩
          exact Nat.le_refl _
  | percent =>
      refine ⟨rfl, ?_⟩
      rintro r r' ⟨⟩ ⟨⟩
      exact Nat.le_refl _

theorem fillOut_cons (left : Bool) (pre : List Char) (c : Char) (l o : List Char) :
    ∃ a t, fillOut left pre (c :: l) ++ o = List.replicate a ' ' ++ c :: t := by
  rw [fillOut_eq]
  split
  · exact ⟨0, _, rfl⟩
  · exact ⟨_, _, List.append_assoc _ _ _⟩

theorem pad_cons (d : Directive) (c : Char) (l o : List Char) :
    ∃ a t, d.pad (c :: l) ++ o = List.replicate a ' ' ++ c :: t := by
  rw [pad_eq]
  split
  · exact ⟨0, _, rfl⟩
  · exact ⟨_, _, List.append_assoc _ _ _⟩

/-- A negative number is not written in decimal. -/
theorem decimal_ne (d : Directive) (left : Bool) (h : v.toInt < 0) (o o' : List Char) :
    fillOut left d.width (printint v 10 false) ++ o ≠ d.pad (decimal v) ++ o' := by
  intro heq
  obtain ⟨c, l, hdigits, hc⟩ := printDigits_cons 10 15 v.toNat
  obtain ⟨-, hminus, hspace⟩ := digits_plain c hc
  have hdecimal : decimal v = '-' :: Nat.toDigits 10 v.toInt.natAbs := if_pos h
  rw [printint_unsigned, hdigits, hdecimal] at heq
  obtain ⟨a, t, ht⟩ := fillOut_cons left d.width c l o
  obtain ⟨b, u, hu⟩ := pad_cons d '-' (Nat.toDigits 10 v.toInt.natAbs) o'
  rw [ht, hu] at heq
  exact hminus (spaces_cons hspace (by decide) heq).2

/-- Nor is it written in hexadecimal. -/
theorem hex_ne (h : v.toInt < 0) (o o' : List Char) : printint v 16 true ++ o ≠ hex v ++ o' := by
  intro heq
  obtain ⟨c, l, hdigits, hc⟩ := printDigits_cons 16 15 v.toNat
  have hint : printint v 16 true = '-' :: printDigits 16 16 (-v).toNat := if_pos ⟨rfl, h⟩
  rw [hint, hex_eq, hdigits] at heq
  exact (digits_plain c hc).2.1 (List.cons.inj heq).1.symm

theorem hex_iff (v : BitVec 32) (o o' : List Char) :
    printint v 16 true ++ o = hex v ++ o' ↔ 0 ≤ v.toInt ∧ o = o' := by
  by_cases hneg : v.toInt < 0
  · exact iff_of_false (hex_ne hneg o o') fun h => absurd h.1 (by omega)
  · have hpos : 0 ≤ v.toInt := by omega
    rw [printint_nonneg hpos, hex_eq, List.append_cancel_left_eq, and_iff_right hpos]

theorem decimal_iff (d : Directive) (left : Bool) (v : BitVec 32) (o o' : List Char) :
    fillOut (left || d.left) d.width (printint v 10 false) ++ o = d.pad (decimal v) ++ o' ↔
      (0 ≤ v.toInt ∧ d.Unmoved left (decimal v)) ∧ o = o' := by
  by_cases hneg : v.toInt < 0
  · exact iff_of_false (decimal_ne d _ hneg o o') fun h => absurd h.1.1 (by omega)
  · have hpos : 0 ≤ v.toInt := by omega
    rw [printint_unsigned, ← decimal_of_nonneg hpos, fillOut_pad, and_iff_right hpos]

theorem forall_some {α β : Type} {P : α → Prop} (q : α × β) :
    (∀ v rest, some q = some (v, rest) → P v) ↔ P q.1 := by
  refine ⟨fun h => h q.1 q.2 rfl, ?_⟩
  rintro h v rest ⟨⟩
  exact h

/-- A directive is written as it is to be if and only if it is plain. -/
theorem written_iff (d : Directive) (left : Bool) {r r' : List Char × List Arg}
    (hr : d.conv.written (left || d.left) d.width args = some r) (hr' : d.render args = some r')
    (o o' : List Char) : r.1 ++ o = r'.1 ++ o' ↔ d.Plain left args ∧ o = o' := by
  rw [Directive.render] at hr'
  rw [Directive.Plain]
  cases hconv : d.conv with
  | d =>
      rw [hconv] at hr hr'
      dsimp only [Conv.written] at hr hr' ⊢
      cases hargs : vaInt args with
      | none =>
          rw [hargs] at hr
          cases hr
      | some q =>
          rw [hargs] at hr hr'
          cases hr
          cases hr'
          rw [forall_some]
          exact decimal_iff _ _ _ _ _
  | x =>
      rw [hconv] at hr hr'
      dsimp only [Conv.written] at hr hr' ⊢
      cases hargs : vaInt args with
      | none =>
          rw [hargs] at hr
          cases hr
      | some q =>
          rw [hargs] at hr hr'
          cases hr
          cases hr'
          rw [forall_some]
          exact hex_iff _ _ _
  | p =>
      rw [hconv] at hr hr'
      dsimp only [Conv.written] at hr hr' ⊢
      cases hargs : vaInt args with
      | none =>
          rw [hargs] at hr
          cases hr
      | some q =>
          rw [hargs] at hr hr'
          cases hr
          cases hr'
          rw [forall_some]
          exact hex_iff _ _ _
  | s =>
      rw [hconv] at hr hr'
      dsimp only [Conv.written] at hr hr' ⊢
      cases hargs : vaStr args with
      | none =>
          rw [hargs] at hr
          cases hr
      | some q =>
          rw [hargs] at hr hr'
          cases hr
          cases hr'
          rw [forall_some]
          exact fillOut_pad _ _ _ _ _
  | c =>
      rw [hconv] at hr hr'
      dsimp only [Conv.written] at hr hr' ⊢
      cases hargs : vaInt args with
      | none =>
          rw [hargs] at hr
          cases hr
      | some q =>
          rw [hargs] at hr hr'
          cases hr
          cases hr'
          rw [List.append_cancel_left_eq, true_and]
  | percent =>
      rw [hconv] at hr hr'
      cases hr
      cases hr'
      rw [List.append_cancel_left_eq, true_and]

/-! ## Percent signs and arguments -/

/-- The number of arguments that the directives of a format take. -/
def needs : List Item → Nat
  | [] => 0
  | .lit _ _ :: its => needs its
  | .dir d :: its => (if d.conv = .percent then 0 else 1) + needs its

theorem written_length (conv : Conv) (left : Bool) (pre : List Char)
    {r : List Char × List Arg} (h : conv.written left pre args = some r) :
    args.length = (if conv = .percent then 0 else 1) + r.2.length := by
  have hint : ∀ {q}, vaInt args = some q → args.length = 1 + q.2.length := by
    rintro q hq
    cases args with
    | nil => cases hq
    | cons arg args =>
        cases arg with
        | int v =>
            cases hq
            exact Nat.add_comm _ _
        | str s => cases hq
  have hstr : ∀ {q}, vaStr args = some q → args.length = 1 + q.2.length := by
    rintro q hq
    cases args with
    | nil => cases hq
    | cons arg args =>
        cases arg with
        | int v => cases hq
        | str s =>
            cases hq
            exact Nat.add_comm _ _
  cases conv with
  | percent =>
      cases h
      exact (Nat.zero_add _).symm
  | s =>
      obtain ⟨q, hq, rfl⟩ := Option.map_eq_some_iff.1 h
      exact hstr hq
  | d =>
      obtain ⟨q, hq, rfl⟩ := Option.map_eq_some_iff.1 h
      exact hint hq
  | x =>
      obtain ⟨q, hq, rfl⟩ := Option.map_eq_some_iff.1 h
      exact hint hq
  | p =>
      obtain ⟨q, hq, rfl⟩ := Option.map_eq_some_iff.1 h
      exact hint hq
  | c =>
      obtain ⟨q, hq, rfl⟩ := Option.map_eq_some_iff.1 h
      exact hint hq

/-- The arguments of the directive are there for the machine if they are there at all. -/
theorem written_of_render (d : Directive) (left : Bool) (pre : List Char)
    {r' : List Char × List Arg} (h : d.render args = some r') :
    ∃ r, d.conv.written left pre args = some r ∧ r.2 = r'.2 := by
  have hsnd := (written_render d left pre args).1
  rw [h, Option.map_some, Option.map_eq_some_iff] at hsnd
  exact hsnd

theorem rendering_lit {h : c ≠ '%'} (hout : rendering (.lit c h :: its) args = some out) :
    ∃ out', rendering its args = some out' ∧ out = c :: out' := by
  obtain ⟨out', hout', rfl⟩ := Option.map_eq_some_iff.1 hout
  exact ⟨out', hout', rfl⟩

theorem rendering_dir (hout : rendering (.dir d :: its) args = some out) :
    ∃ r out', d.render args = some r ∧ rendering its r.2 = some out' ∧ out = r.1 ++ out' := by
  obtain ⟨r, hr, hrest⟩ := Option.bind_eq_some_iff.1 hout
  obtain ⟨out', hout', rfl⟩ := Option.map_eq_some_iff.1 hrest
  exact ⟨r, out', hr, hout', rfl⟩

theorem rendering_needs (h : rendering its args = some out) : needs its = args.length := by
  induction its generalizing args out with
  | nil =>
      cases args with
      | nil => rfl
      | cons arg args => cases h
  | cons it its ih =>
      cases it with
      | lit c hc =>
          obtain ⟨out', hout', -⟩ := rendering_lit h
          exact ih hout'
      | dir d =>
          obtain ⟨r', out', hr', hout', -⟩ := rendering_dir h
          obtain ⟨r, hr, hrest⟩ := written_of_render d false [] hr'
          rw [written_length _ _ _ hr, hrest, ← ih hout']
          rfl

/-- A literal digit. -/
def Item.isDigit : Item → Bool
  | lit c _ => isdigit c
  | dir _ => false

theorem format_dropDigits (its : List Item) :
    format (its.dropWhile Item.isDigit) = (format its).dropWhile isdigit := by
  induction its with
  | nil => rfl
  | cons it its ih =>
      cases it with
      | lit c hc =>
          have hformat : format (.lit c hc :: its) = c :: format its := rfl
          have hitem : (Item.lit c hc).isDigit = isdigit c := rfl
          rw [hformat, List.dropWhile_cons, List.dropWhile_cons, hitem]
          by_cases hdigit : isdigit c = true
          · rw [if_pos hdigit, if_pos hdigit, ih]
          · rw [if_neg hdigit, if_neg hdigit, hformat]
      | dir d => rfl

theorem needs_dropDigits (its : List Item) : needs (its.dropWhile Item.isDigit) = needs its := by
  induction its with
  | nil => rfl
  | cons it its ih =>
      rw [List.dropWhile_cons]
      split
      · cases it with
        | lit c hc => exact ih
        | dir d => contradiction
      · rfl

theorem rendering_dropDigits (h : rendering its args = some out) :
    ∃ out', rendering (its.dropWhile Item.isDigit) args = some out' ∧
      out.count '%' = out'.count '%' := by
  induction its generalizing out with
  | nil => exact ⟨out, h, rfl⟩
  | cons it its ih =>
      rw [List.dropWhile_cons]
      split
      · cases it with
        | lit c hc =>
            obtain ⟨out', hout', rfl⟩ := rendering_lit h
            obtain ⟨out'', hout'', hcount⟩ := ih hout'
            exact ⟨out'', hout'', (List.count_cons_of_ne hc).trans hcount⟩
        | dir d => contradiction
      · exact ⟨out, h, rfl⟩

/-- A directive in the text. -/
theorem loop_dir (d : Directive) (left : Bool) (pre : List Char) (its : List Item)
    (args : List Arg) :
    printfLoop false left pre (format (.dir d :: its)) args =
      (d.conv.written (left || d.left) d.width args).bind fun r =>
        (printfLoop d.conv.stays (left || d.left) d.width (format its) r.2).map (r.1 ++ ·) := by
  have hformat : format (.dir d :: its) = '%' :: (d.body ++ format its) := rfl
  have hwidth : (if d.width = [] then [] else d.width) = d.width := by
    split
    · exact Eq.symm ‹_›
    · rfl
  rw [hformat, loop_open, loop_body, hwidth, loop_conv]

/-- A directive in the state `%`: its percent sign is written. -/
theorem loop_dir_percent (d : Directive) (left : Bool) (pre : List Char) (its : List Item)
    (args : List Arg) :
    ∃ pre', printfLoop true left pre (format (.dir d :: its)) args =
      ((d.conv.written (left || d.left) pre' args).bind fun r =>
        (printfLoop d.conv.stays (left || d.left) pre' (format its) r.2).map (r.1 ++ ·)).map
          ('%' :: ·) := by
  have hformat : format (.dir d :: its) = '%' :: (d.body ++ format its) := rfl
  refine ⟨if d.width = [] then pre else d.width, ?_⟩
  rw [hformat, loop_percent, loop_body, loop_conv]

/-- What is special in the state `%`. -/
theorem special_cases (hc : special c = true) (hpc : c ≠ '%') :
    c = '-' ∨ isdigit c = true ∨ c = 'f' ∨ ∃ conv : Conv, conv ≠ .percent ∧ c = conv.char := by
  by_cases hdigit : isdigit c = true
  · exact .inr (.inl hdigit)
  · simp only [special, hdigit, Bool.or_false, decide_eq_true_iff, List.mem_cons,
      List.not_mem_nil, or_false, hpc] at hc
    rcases hc with rfl | rfl | rfl | rfl | rfl | rfl | rfl
    · exact .inr (.inr (.inr ⟨.d, by decide, rfl⟩))
    · exact .inr (.inr (.inr ⟨.x, by decide, rfl⟩))
    · exact .inr (.inr (.inr ⟨.p, by decide, rfl⟩))
    · exact .inr (.inr (.inr ⟨.s, by decide, rfl⟩))
    · exact .inr (.inr (.inr ⟨.c, by decide, rfl⟩))
    · exact .inr (.inr (.inl rfl))
    · exact .inl rfl

theorem loop_float (left : Bool) (pre fmt : List Char) (args : List Arg) :
    printfLoop true left pre ('f' :: fmt) args = none := by
  rw [printfLoop]
  simp

/-- What holds of whatever the machine writes for a format: each directive has taken an argument,
and no percent sign is missing. -/
def Enough (its : List Item) (args : List Arg) (o : List Char) : Prop :=
  needs its ≤ args.length ∧
    ∀ out, rendering its args = some out → out.count '%' ≤ o.count '%'

theorem Enough.lit {h : c ≠ '%'} (ho : Enough its args o) :
    Enough (.lit c h :: its) args (c :: o) := by
  refine ⟨ho.1, fun out hout => ?_⟩
  obtain ⟨out', hout', rfl⟩ := rendering_lit hout
  rw [List.count_cons_of_ne h, List.count_cons_of_ne h]
  exact ho.2 out' hout'

/-- A literal that is swallowed. -/
theorem Enough.drop {h : c ≠ '%'} (ho : Enough its args o) :
    Enough (.lit c h :: its) args o := by
  refine ⟨ho.1, fun out hout => ?_⟩
  obtain ⟨out', hout', rfl⟩ := rendering_lit hout
  rw [List.count_cons_of_ne h]
  exact ho.2 out' hout'

theorem Enough.dropDigits (ho : Enough (its.dropWhile Item.isDigit) args o) :
    Enough its args o := by
  refine ⟨needs_dropDigits its ▸ ho.1, fun out hout => ?_⟩
  obtain ⟨out', hout', hcount⟩ := rendering_dropDigits hout
  rw [hcount]
  exact ho.2 out' hout'

/-- A literal that takes an argument: one is missing behind it. -/
theorem Enough.letter {h : c ≠ '%'} {conv : Conv} {r : List Char × List Arg}
    (hconv : conv ≠ .percent) (hr : conv.written left pre args = some r)
    (ho : Enough its r.2 out) (o : List Char) :
    Enough (.lit c h :: its) args o ∧ rendering (.lit c h :: its) args = none := by
  have hlength := written_length conv left pre hr
  rw [if_neg hconv] at hlength
  have hneeds : needs (.lit c h :: its) < args.length := by
    have := ho.1
    have hlit : needs (.lit c h :: its) = needs its := rfl
    omega
  have hnone : rendering (.lit c h :: its) args = none := by
    cases hrender : rendering (.lit c h :: its) args with
    | none => rfl
    | some out => exact absurd (rendering_needs hrender) (Nat.ne_of_lt hneeds)
  exact ⟨⟨hneeds.le, fun out hout => by rw [hnone] at hout; cases hout⟩, hnone⟩

theorem Enough.dir {r : List Char × List Arg} (hr : d.conv.written left pre args = some r)
    (ho : Enough its r.2 o) : Enough (.dir d :: its) args (r.1 ++ o) := by
  constructor
  · rw [written_length _ _ _ hr]
    exact Nat.add_le_add_left ho.1 _
  · intro out hout
    obtain ⟨r', out', hr', hout', rfl⟩ := rendering_dir hout
    obtain ⟨q, hq, hrest⟩ := written_of_render d left pre hr'
    obtain rfl := Option.some.inj (hr.symm.trans hq)
    rw [List.count_append, List.count_append]
    exact Nat.add_le_add ((written_render d left pre args).2 _ _ hr hr')
      (ho.2 out' (hrest ▸ hout'))

theorem Enough.percent (ho : Enough its args o) : Enough its args ('%' :: o) := by
  refine ⟨ho.1, fun out hout => ?_⟩
  rw [List.count_cons_self]
  exact Nat.le_succ_of_le (ho.2 out hout)

/-- By induction on the length of the format, since the digits of a number are read at once. -/
theorem loop_enough (n : Nat) (its : List Item) (hn : its.length ≤ n) (pct left : Bool)
    (pre : List Char) (args : List Arg) (o : List Char)
    (h : printfLoop pct left pre (format its) args = some o) : Enough its args o := by
  induction n generalizing its pct left pre args o with
  | zero =>
      obtain rfl := List.eq_nil_of_length_eq_zero (Nat.le_zero.1 hn)
      refine ⟨Nat.zero_le _, fun out hout => ?_⟩
      cases args with
      | nil =>
          cases hout
          exact Nat.zero_le _
      | cons arg args => cases hout
  | succ n ih =>
      cases its with
      | nil => exact ih [] (Nat.zero_le _) pct left pre args o h
      | cons it its =>
          have hlen : its.length ≤ n := Nat.le_of_succ_le_succ hn
          cases it with
          | lit c hc =>
              have hformat : format (.lit c hc :: its) = c :: format its := rfl
              rw [hformat] at h
              cases pct with
              | false =>
                  rw [loop_text hc] at h
                  obtain ⟨o', ho', rfl⟩ := Option.map_eq_some_iff.1 h
                  exact (ih its hlen _ _ _ _ _ ho').lit
              | true =>
                  by_cases hspecial : special c = true
                  · rcases special_cases hspecial hc with
                      rfl | hdigit | rfl | ⟨conv, hconv, rfl⟩
                    · rw [loop_flag] at h
                      exact (ih its hlen _ _ _ _ _ h).drop
                    · rw [loop_digit hdigit] at h
                      split at h
                      · rw [← format_dropDigits] at h
                        have hle := (List.dropWhile_suffix (l := its) Item.isDigit).length_le
                        exact (ih _ (hle.trans hlen) _ _ _ _ _ h).dropDigits.drop
                      · cases h
                    · rw [loop_float] at h
                      cases h
                    · rw [loop_conv] at h
                      obtain ⟨r, hr, hrest⟩ := Option.bind_eq_some_iff.1 h
                      obtain ⟨o', ho', rfl⟩ := Option.map_eq_some_iff.1 hrest
                      exact ((ih its hlen _ _ _ _ _ ho').letter hconv hr _).1
                  · rw [loop_plain (Bool.eq_false_of_not_eq_true hspecial)] at h
                    obtain ⟨o', ho', rfl⟩ := Option.map_eq_some_iff.1 h
                    exact (ih its hlen _ _ _ _ _ ho').lit
          | dir d =>
              cases pct with
              | false =>
                  rw [loop_dir] at h
                  obtain ⟨r, hr, hrest⟩ := Option.bind_eq_some_iff.1 h
                  obtain ⟨o', ho', rfl⟩ := Option.map_eq_some_iff.1 hrest
                  exact .dir hr (ih its hlen _ _ _ _ _ ho')
              | true =>
                  obtain ⟨pre', hloop⟩ := loop_dir_percent d left pre its args
                  rw [hloop] at h
                  obtain ⟨o₁, ho₁, rfl⟩ := Option.map_eq_some_iff.1 h
                  obtain ⟨r, hr, hrest⟩ := Option.bind_eq_some_iff.1 ho₁
                  obtain ⟨o', ho', rfl⟩ := Option.map_eq_some_iff.1 hrest
                  exact (Enough.dir hr (ih its hlen _ _ _ _ _ ho')).percent

/-- A format that does not start like a number or a flag. -/
def Fresh (o : List Char) : Prop := ∀ c o', o = c :: o' → c ≠ '-' ∧ isdigit c = false

/-- What is written behind a swallowed character does not look like it. -/
theorem loop_fresh (n : Nat) (its : List Item) (hn : its.length ≤ n) (left : Bool)
    (pre : List Char) (hout : rendering its args = some out)
    (h : printfLoop true left pre (format its) args = some o) : Fresh o := by
  induction n generalizing its left pre out with
  | zero =>
      obtain rfl := List.eq_nil_of_length_eq_zero (Nat.le_zero.1 hn)
      rw [format, List.flatMap_nil, printfLoop] at h
      cases h
      exact nofun
  | succ n ih =>
      cases its with
      | nil => exact ih [] (Nat.zero_le _) left pre hout h
      | cons it its =>
          have hlen : its.length ≤ n := Nat.le_of_succ_le_succ hn
          cases it with
          | lit c hc =>
              have hformat : format (.lit c hc :: its) = c :: format its := rfl
              rw [hformat] at h
              obtain ⟨out', hout', -⟩ := rendering_lit hout
              by_cases hspecial : special c = true
              · rcases special_cases hspecial hc with rfl | hdigit | rfl | ⟨conv, hconv, rfl⟩
                · rw [loop_flag] at h
                  exact ih its hlen _ _ hout' h
                · rw [loop_digit hdigit] at h
                  split at h
                  · rw [← format_dropDigits] at h
                    have hle := (List.dropWhile_suffix (l := its) Item.isDigit).length_le
                    obtain ⟨out'', hout'', -⟩ := rendering_dropDigits hout'
                    exact ih _ (hle.trans hlen) _ _ hout'' h
                  · cases h
                · rw [loop_float] at h
                  cases h
                · rw [loop_conv] at h
                  obtain ⟨r, hr, hrest⟩ := Option.bind_eq_some_iff.1 h
                  obtain ⟨o', ho', rfl⟩ := Option.map_eq_some_iff.1 hrest
                  have henough := loop_enough _ its (Nat.le_refl _) _ _ _ _ _ ho'
                  have hnone := (henough.letter (h := hc) hconv hr o').2
                  rw [hnone] at hout
                  cases hout
              · have hplain := Bool.eq_false_of_not_eq_true hspecial
                rw [loop_plain hplain] at h
                obtain ⟨o', ho', rfl⟩ := Option.map_eq_some_iff.1 h
                rintro c' o'' ⟨⟩
                have hparts := (special_iff c).1 hplain
                exact ⟨hparts.2.2.2.2.2.2.1, hparts.2.2.2.2.2.2.2.2⟩
          | dir d =>
              obtain ⟨pre', hloop⟩ := loop_dir_percent d left pre its args
              rw [hloop] at h
              obtain ⟨o₁, ho₁, rfl⟩ := Option.map_eq_some_iff.1 h
              rintro c' o'' ⟨⟩
              exact ⟨by decide, by decide⟩

/-- A format in the state `%` is written as it is to be if and only if it comes back at once. -/
theorem sticky_iff (left : Bool) (pre : List Char) (hout : rendering its args = some out) :
    printfLoop true left pre (format its) args = some out ↔
      Ends its ∧ printfLoop false left pre (format its) args = some out := by
  cases its with
  | nil =>
      have hnil : ∀ pct, printfLoop pct left pre (format []) args = some [] := by
        intro pct
        rw [format, List.flatMap_nil, printfLoop]
      rw [hnil, hnil]
      exact (and_iff_right trivial).symm
  | cons it its =>
      cases it with
      | lit c hc =>
          have hformat : format (.lit c hc :: its) = c :: format its := rfl
          obtain ⟨out', hout', rfl⟩ := rendering_lit hout
          by_cases hspecial : special c = true
          · refine iff_of_false (fun h => ?_) fun h => ?_
            · rw [hformat] at h
              rcases special_cases hspecial hc with rfl | hdigit | rfl | ⟨conv, hconv, rfl⟩
              · rw [loop_flag] at h
                exact (loop_fresh _ its (Nat.le_refl _) _ _ hout' h _ _ rfl).1 rfl
              · rw [loop_digit hdigit] at h
                split at h
                · rw [← format_dropDigits] at h
                  obtain ⟨out'', hout'', -⟩ := rendering_dropDigits hout'
                  have hfresh := (loop_fresh _ _ (Nat.le_refl _) _ _ hout'' h _ _ rfl).2
                  rw [hdigit] at hfresh
                  cases hfresh
                · cases h
              · rw [loop_float] at h
                cases h
              · rw [loop_conv] at h
                obtain ⟨r, hr, hrest⟩ := Option.bind_eq_some_iff.1 h
                obtain ⟨o', ho', -⟩ := Option.map_eq_some_iff.1 hrest
                have henough := loop_enough _ its (Nat.le_refl _) _ _ _ _ _ ho'
                have hnone := (henough.letter (h := hc) hconv hr o').2
                rw [hnone] at hout
                cases hout
            · exact Bool.false_ne_true (h.1.symm.trans hspecial)
          · have hplain := Bool.eq_false_of_not_eq_true hspecial
            rw [hformat, loop_plain hplain, loop_text hc]
            exact (and_iff_right hplain).symm
      | dir d =>
          refine iff_of_false (fun h => ?_) fun h => h.1
          -- one percent sign is too many
          obtain ⟨pre', hloop⟩ := loop_dir_percent d left pre its args
          rw [hloop] at h
          obtain ⟨o₁, ho₁, rfl⟩ := Option.map_eq_some_iff.1 h
          obtain ⟨r, hr, hrest⟩ := Option.bind_eq_some_iff.1 ho₁
          obtain ⟨o', ho', rfl⟩ := Option.map_eq_some_iff.1 hrest
          have hcount := (Enough.dir hr (loop_enough _ its (Nat.le_refl _) _ _ _ _ _ ho')).2 _ hout
          rw [List.count_cons_self] at hcount
          exact absurd hcount (Nat.not_succ_le_self _)

/-- The format and the arguments, read from the text. -/
theorem loop_iff (left : Bool) (pre : List Char) (hout : rendering its args = some out) :
    printfLoop false left pre (format its) args = some out ↔ Independent left its args := by
  induction its generalizing left pre args out with
  | nil =>
      have hnil : printfLoop false left pre (format []) args = some [] := by
        rw [format, List.flatMap_nil, printfLoop]
      rw [hnil]
      cases args with
      | nil =>
          cases hout
          exact iff_of_true rfl trivial
      | cons arg args => cases hout
  | cons it its ih =>
      cases it with
      | lit c hc =>
          obtain ⟨out', hout', rfl⟩ := rendering_lit hout
          have hformat : format (.lit c hc :: its) = c :: format its := rfl
          rw [hformat, loop_text hc, Independent, ← ih left pre hout', Option.map_eq_some_iff]
          constructor
          · rintro ⟨o', ho', heq⟩
            obtain rfl := (List.cons.inj heq).2
            exact ho'
          · exact fun h => ⟨out', h, rfl⟩
      | dir d =>
          obtain ⟨r', out', hr', hout', rfl⟩ := rendering_dir hout
          obtain ⟨r, hr, hrest⟩ := written_of_render d (left || d.left) d.width hr'
          have hloop : printfLoop false left pre (format (.dir d :: its)) args =
              some (r'.1 ++ out') ↔ d.Plain left args ∧
                printfLoop d.conv.stays (left || d.left) d.width (format its) r'.2 = some out' := by
            rw [loop_dir, hr, Option.bind_some, hrest, Option.map_eq_some_iff]
            constructor
            · rintro ⟨o', ho', heq⟩
              obtain ⟨hplain, rfl⟩ := (written_iff d left hr hr' o' out').1 heq
              exact ⟨hplain, ho'⟩
            · rintro ⟨hplain, ho'⟩
              exact ⟨out', ho', (written_iff d left hr hr' out' out').2 ⟨hplain, rfl⟩⟩
          have hnext : (∀ q, d.render args = some q → Independent (left || d.left) its q.2) ↔
              printfLoop false (left || d.left) d.width (format its) r'.2 = some out' := by
            rw [ih _ _ hout', hr']
            exact ⟨fun h => h r' rfl, by rintro h q ⟨⟩; exact h⟩
          have hsticky := sticky_iff (left || d.left) d.width hout'
          rw [hloop, Independent, hnext]
          cases hconv : d.conv <;> simp [Conv.stays, hsticky]

/-! ## `printf` -/

/-- `printf` writes every directive on its own if and only if the numbers are not negative, no
directive moves the text of a later one, and nothing that means something to the machine is behind
a directive that leaves it in the state `%`. -/
theorem printf_iff (its : List Item) (args : List Arg) (out : List Char)
    (h : rendering its args = some out) :
    printf (format its) args = some out ↔ Independent false its args :=
  loop_iff false [] h

/-- `%5d` and the end of the line. -/
theorem printf_five :
    printf ['%', '5', 'd', '!'] [.int 42] = some [' ', ' ', ' ', '4', '2', '!'] := by
  let five : Directive := ⟨false, ['5'], .d, by simp [isdigit], by decide⟩
  have hindependent : Independent false [.dir five, .lit '!' (by decide)] [.int 42] := by
    refine ⟨?_, .inl rfl, fun _ _ => trivial⟩
    rintro v rest ⟨⟩
    exact ⟨by decide, nofun⟩
  exact (printf_iff [.dir five, .lit '!' (by decide)] [.int 42] _ rfl).2 hindependent

/-- `%-d%2d`: the flag of the first directive moves the second number to the left. -/
theorem flag_lasts :
    ∃ (its : List Item) (args : List Arg) (out : List Char),
      rendering its args = some out ∧ printf (format its) args ≠ some out := by
  let flagged : Directive := ⟨true, [], .d, nofun, by decide⟩
  let two : Directive := ⟨false, ['2'], .d, by simp [isdigit], by decide⟩
  have hrender : rendering [.dir flagged, .dir two] [.int 1, .int 2] = some ['1', ' ', '2'] := rfl
  refine ⟨_, _, _, hrender, fun h => ?_⟩
  obtain ⟨-, -, hnext⟩ := (loop_iff false [] hrender).1 h
  obtain ⟨hplain, -, -⟩ := hnext (['1'], [.int 2]) rfl
  rcases (hplain 2 [] rfl).2 rfl rfl with hle | hspaces
  · exact absurd hle (by decide)
  · exact absurd (hspaces '2' (by decide)) (by decide)

end Xv6.Ulib.Printf
