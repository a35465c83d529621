import Mathlib.Computability.Language

/-!
# The patterns of `grep`

`match`, `matchhere` and `matchstar` of `user/grep.c`, and what a pattern means: a language for each
of its items, and at which ends of the text the match is held.

* `matchRe_iff`: the matcher finds a match exactly if there is one.
-/

namespace Xv6.User.Grep

/-- The bytes of `^`, `$`, `.` and `*`. -/
@[match_pattern] abbrev caret : UInt8 := 94
@[match_pattern, inherit_doc caret] abbrev dollar : UInt8 := 36
@[match_pattern, inherit_doc caret] abbrev dot : UInt8 := 46
@[match_pattern, inherit_doc caret] abbrev star : UInt8 := 42

/-! ## The matcher -/

mutual

/-- `matchhere`: is there a match at the beginning of the text? -/
def matchhere (re text : List UInt8) : Bool :=
  match re with
  | [] => true
  | c :: star :: re => matchstar c re text
  | c :: re =>
      if c = dollar ∧ re = [] then decide (text = [])
      else
        match text with
        | [] => false
        | t :: text => if c = dot ∨ c = t then matchhere re text else false
termination_by (re.length + text.length, 0)

/-- `matchstar`: is there a match of `c*` and then `re` at the beginning of the text? -/
def matchstar (c : UInt8) (re text : List UInt8) : Bool :=
  if matchhere re text then true
  else
    match text with
    | [] => false
    | t :: text => if t = c ∨ c = dot then matchstar c re text else false
termination_by (re.length + text.length, 1)

end

/-- The loop of `match`, over where in the text the match begins. -/
def matchLoop (re : List UInt8) : List UInt8 → Bool
  | [] => matchhere re []
  | t :: text => if matchhere re (t :: text) then true else matchLoop re text

/-- `match`. -/
def matchRe (re text : List UInt8) : Bool :=
  match re with
  | caret :: re => matchhere re text
  | re => matchLoop re text

/-! ## What a pattern means -/

/-- What stands for one character. -/
inductive Atom where
  | any
  | char (c : UInt8)
  deriving DecidableEq, Repr

/-- An item of a pattern: an atom, once or any number of times. -/
inductive Item where
  | once (a : Atom)
  | many (a : Atom)
  deriving DecidableEq, Repr

/-- A pattern: its items, and whether it is held at the beginning and at the end. -/
structure Pattern where
  atStart : Bool
  items : List Item
  atEnd : Bool
  deriving DecidableEq, Repr

/-- The atom that a character stands for. -/
def atom (c : UInt8) : Atom := if c = dot then .any else .char c

/-- The items of a pattern, and whether it ends in the anchor. -/
def readItems : List UInt8 → List Item × Bool
  | [] => ([], false)
  | c :: star :: re => (.many (atom c) :: (readItems re).1, (readItems re).2)
  | c :: re =>
      if c = dollar ∧ re = [] then ([], true)
      else (.once (atom c) :: (readItems re).1, (readItems re).2)

/-- A pattern from its text: a `^` at its beginning is the anchor, also before a `*`. -/
def readPattern : List UInt8 → Pattern
  | caret :: re => ⟨true, (readItems re).1, (readItems re).2⟩
  | re => ⟨false, (readItems re).1, (readItems re).2⟩

/-- The characters that an atom stands for. -/
def Atom.lang : Atom → Language UInt8
  | .any => {w | ∃ x, w = [x]}
  | .char c => {[c]}

/-- The words of an item. -/
def Item.lang : Item → Language UInt8
  | .once a => a.lang
  | .many a => KStar.kstar a.lang

/-- The words of a pattern without its anchors. -/
def wordsOf (items : List Item) : Language UInt8 := (items.map Item.lang).prod

/-- A text has a substring that the pattern describes. -/
def Pattern.Matches (p : Pattern) (text : List UInt8) : Prop :=
  ∃ before word after, text = before ++ word ++ after ∧ word ∈ wordsOf p.items ∧
    (p.atStart = true → before = []) ∧ (p.atEnd = true → after = [])

/-! ## The matcher finds it -/

section Matcher

variable {c x : UInt8} {re text : List UInt8} {a : Atom} {items : List Item} {w : List UInt8}

/-- The pattern describes a word at the beginning of the text. -/
def Begins (p : List Item × Bool) (text : List UInt8) : Prop :=
  ∃ word after, text = word ++ after ∧ word ∈ wordsOf p.1 ∧ (p.2 = true → after = [])

theorem mem_atom : [x] ∈ (atom c).lang ↔ c = dot ∨ c = x := by
  unfold atom
  split
  · rename_i hdot
    exact iff_of_true ⟨x, rfl⟩ (.inl hdot)
  · rename_i hdot
    rw [or_iff_right hdot]
    exact ⟨fun h => (List.singleton_inj.1 h).symm, fun h => h ▸ rfl⟩

theorem atom_single (h : w ∈ a.lang) : ∃ x, w = [x] := by
  cases a with
  | any => exact h
  | char c => exact ⟨c, h⟩

/-- The words of a starred atom: each character is one the atom stands for. -/
theorem mem_many : w ∈ (Item.many a).lang ↔ ∀ x ∈ w, [x] ∈ a.lang := by
  rw [Item.lang, Language.mem_kstar]
  constructor
  · rintro ⟨words, rfl, hall⟩ x hx
    obtain ⟨word, hword, hxw⟩ := List.mem_flatten.1 hx
    obtain ⟨y, rfl⟩ := atom_single (hall word hword)
    rw [List.mem_singleton.1 hxw]
    exact hall _ hword
  · intro hall
    refine ⟨w.map fun x => [x], ?_, ?_⟩
    · induction w with
      | nil => rfl
      | cons x w ih =>
          rw [List.map_cons, List.flatten_cons, ← ih fun y hy => hall y (.tail _ hy)]
          rfl
    · intro word hword
      obtain ⟨x, hx, rfl⟩ := List.mem_map.1 hword
      exact hall x hx

theorem wordsOf_cons {i : Item} : wordsOf (i :: items) = i.lang * wordsOf items := by
  rw [wordsOf, wordsOf, List.map_cons, List.prod_cons]

theorem begins_nil : Begins ([], false) text :=
  ⟨[], text, rfl, rfl, by simp⟩

theorem begins_end : Begins ([], true) text ↔ text = [] := by
  constructor
  · rintro ⟨word, after, rfl, hword, hafter⟩
    rw [hafter rfl, List.append_nil]
    exact hword
  · rintro rfl
    exact ⟨[], [], rfl, rfl, fun _ => rfl⟩

/-- A single character: it is the first of the text. -/
theorem begins_once {atEnd : Bool} :
    Begins (.once (atom c) :: items, atEnd) text ↔
      ∃ t rest, text = t :: rest ∧ (c = dot ∨ c = t) ∧ Begins (items, atEnd) rest := by
  constructor
  · rintro ⟨word, after, rfl, hword, hafter⟩
    rw [wordsOf_cons, Language.mem_mul] at hword
    obtain ⟨u, hu, v, hv, rfl⟩ := hword
    obtain ⟨t, rfl⟩ := atom_single hu
    exact ⟨t, v ++ after, by simp, mem_atom.1 hu, v, after, rfl, hv, hafter⟩
  · rintro ⟨t, rest, rfl, hc, v, after, rfl, hv, hafter⟩
    refine ⟨[t] ++ v, after, by simp, ?_, hafter⟩
    rw [wordsOf_cons]
    exact Language.append_mem_mul (mem_atom.2 hc) hv

/-- Any number of characters: they are the first of the text. -/
theorem begins_many {atEnd : Bool} :
    Begins (.many (atom c) :: items, atEnd) text ↔
      ∃ u rest, text = u ++ rest ∧ (∀ t ∈ u, c = dot ∨ c = t) ∧ Begins (items, atEnd) rest := by
  constructor
  · rintro ⟨word, after, rfl, hword, hafter⟩
    rw [wordsOf_cons, Language.mem_mul] at hword
    obtain ⟨u, hu, v, hv, rfl⟩ := hword
    exact ⟨u, v ++ after, by simp, fun t ht => mem_atom.1 (mem_many.1 hu t ht), v, after, rfl, hv,
      hafter⟩
  · rintro ⟨u, rest, rfl, hu, v, after, rfl, hv, hafter⟩
    refine ⟨u ++ v, after, by simp, ?_, hafter⟩
    rw [wordsOf_cons]
    exact Language.append_mem_mul (mem_many.2 fun t ht => mem_atom.2 (hu t ht)) hv

/-- `matchstar` tries every number of characters. -/
theorem matchstar_iff : matchstar c re text = true ↔
    ∃ u rest, text = u ++ rest ∧ (∀ t ∈ u, c = dot ∨ c = t) ∧ matchhere re rest = true := by
  induction text with
  | nil =>
      rw [matchstar]
      constructor
      · intro h
        split at h
        · rename_i hhere
          exact ⟨[], [], rfl, by simp, hhere⟩
        · cases h
      · rintro ⟨u, rest, heq, -, hhere⟩
        rw [(List.nil_eq_append_iff.1 heq).2] at hhere
        rw [if_pos hhere]
  | cons t text ih =>
      rw [matchstar]
      constructor
      · intro h
        split at h
        · rename_i hhere
          exact ⟨[], t :: text, rfl, by simp, hhere⟩
        · split at h
          · rename_i hc
            obtain ⟨u, rest, rfl, hu, hhere⟩ := ih.1 h
            refine ⟨t :: u, rest, rfl, ?_, hhere⟩
            intro x hx
            rcases List.mem_cons.1 hx with rfl | hx
            · exact hc.symm.imp_right Eq.symm
            · exact hu x hx
          · cases h
      · rintro ⟨u, rest, heq, hu, hhere⟩
        cases u with
        | nil =>
            rw [List.nil_append] at heq
            rw [heq, if_pos hhere]
        | cons y u =>
            obtain ⟨rfl, rfl⟩ := List.cons.inj heq
            split
            · rfl
            · rw [if_pos ((hu t (.head _)).symm.imp_left Eq.symm)]
              exact ih.2 ⟨u, rest, rfl, fun x hx => hu x (.tail _ hx), hhere⟩

/-- `matchhere` looks for the pattern at the beginning of the text. -/
theorem matchhere_iff (re : List UInt8) : ∀ text : List UInt8,
    matchhere re text = true ↔ Begins (readItems re) text := by
  induction re using readItems.induct with
  | case1 =>
      intro text
      rw [matchhere, readItems]
      exact iff_of_true rfl begins_nil
  | case2 c re ih =>
      intro text
      rw [matchhere, readItems, matchstar_iff, begins_many]
      simp only [ih]
  | case3 c re hstar hend =>
      intro text
      rw [readItems.eq_3 c re hstar, if_pos hend, begins_end]
      cases text with
      | nil => rw [matchhere.eq_3 c re hstar, if_pos hend, decide_eq_true_iff]
      | cons t text => rw [matchhere.eq_4 c re t text hstar, if_pos hend, decide_eq_true_iff]
  | case4 c re hstar hend ih =>
      intro text
      rw [readItems.eq_3 c re hstar, if_neg hend, begins_once]
      cases text with
      | nil =>
          rw [matchhere.eq_3 c re hstar, if_neg hend]
          exact iff_of_false (by simp) (by rintro ⟨_, _, ⟨⟩, -⟩)
      | cons t text =>
          rw [matchhere.eq_4 c re t text hstar, if_neg hend]
          constructor
          · intro h
            split at h
            · rename_i hc
              exact ⟨t, text, rfl, hc, (ih text).1 h⟩
            · cases h
          · rintro ⟨_, _, ⟨⟩, hc, hbegins⟩
            rw [if_pos hc]
            exact (ih text).2 hbegins

/-- The loop of `match` tries every place where the match may begin. -/
theorem matchLoop_iff : matchLoop re text = true ↔
    ∃ before rest, text = before ++ rest ∧ matchhere re rest = true := by
  induction text with
  | nil =>
      rw [matchLoop]
      constructor
      · exact fun h => ⟨[], [], rfl, h⟩
      · rintro ⟨before, rest, heq, h⟩
        rwa [(List.nil_eq_append_iff.1 heq).2] at h
  | cons t text ih =>
      rw [matchLoop]
      constructor
      · intro h
        split at h
        · rename_i hhere
          exact ⟨[], t :: text, rfl, hhere⟩
        · obtain ⟨before, rest, rfl, hhere⟩ := ih.1 h
          exact ⟨t :: before, rest, rfl, hhere⟩
      · rintro ⟨before, rest, heq, hhere⟩
        cases before with
        | nil =>
            rw [List.nil_append] at heq
            rw [heq, if_pos hhere]
        | cons y before =>
            obtain ⟨rfl, rfl⟩ := List.cons.inj heq
            split
            · rfl
            · exact ih.2 ⟨before, rest, rfl, hhere⟩

/-- A pattern that is held at the beginning matches there only. -/
theorem matches_start {p : List Item × Bool} :
    Pattern.Matches ⟨true, p.1, p.2⟩ text ↔ Begins p text := by
  constructor
  · rintro ⟨before, word, after, rfl, hword, hbefore, hafter⟩
    rw [hbefore rfl]
    exact ⟨word, after, rfl, hword, hafter⟩
  · rintro ⟨word, after, rfl, hword, hafter⟩
    exact ⟨[], word, after, rfl, hword, fun _ => rfl, hafter⟩

/-- One that is not matches anywhere. -/
theorem matches_anywhere {p : List Item × Bool} :
    Pattern.Matches ⟨false, p.1, p.2⟩ text ↔
      ∃ before rest, text = before ++ rest ∧ Begins p rest := by
  constructor
  · rintro ⟨before, word, after, rfl, hword, -, hafter⟩
    exact ⟨before, word ++ after, List.append_assoc _ _ _, word, after, rfl, hword, hafter⟩
  · rintro ⟨before, _, rfl, word, after, rfl, hword, hafter⟩
    exact ⟨before, word, after, (List.append_assoc _ _ _).symm, hword, by simp, hafter⟩

/-- `match` finds a match exactly if the text has a substring that the pattern describes. -/
theorem matchRe_iff (re text : List UInt8) :
    matchRe re text = true ↔ (readPattern re).Matches text := by
  unfold matchRe readPattern
  split
  · rw [matchhere_iff, matches_start]
  · rw [matchLoop_iff, matches_anywhere]
    simp only [matchhere_iff]

/-- The other reading of a pattern: a `^` before a `*` is always the character. -/
def readCaretStar : List UInt8 → Pattern
  | caret :: star :: re =>
      ⟨false, (readItems (caret :: star :: re)).1, (readItems (caret :: star :: re)).2⟩
  | re => readPattern re

/-- `match` has the anchor there too: `^*ab` does not match `ab`. -/
theorem caret_star_anchors : (readCaretStar [caret, star, 97, 98]).Matches [97, 98] ∧
    matchRe [caret, star, 97, 98] [97, 98] = false := by
  have hread : readCaretStar [caret, star, 97, 98] =
      ⟨false, [.many (atom caret), .once (atom 97), .once (atom 98)], false⟩ := by
    decide
  have hrest : Begins ([.once (atom 97), .once (atom 98)], false) [97, 98] :=
    begins_once.2 ⟨97, [98], rfl, .inr rfl, begins_once.2 ⟨98, [], rfl, .inr rfl, begins_nil⟩⟩
  have hbegins : Begins ([.many (atom caret), .once (atom 97), .once (atom 98)], false) [97, 98] :=
    begins_many.2 ⟨[], [97, 98], rfl, by simp, hrest⟩
  constructor
  · rw [hread]
    exact matches_anywhere.2 ⟨[], [97, 98], rfl, hbegins⟩
  · show matchhere [star, 97, 98] [97, 98] = false
    rw [matchhere.eq_4 star [97, 98] 97 [98] (fun _ h => by cases h), if_neg (by decide),
      if_neg (by decide)]

/-- `^*b$` is held at both ends, and the `*` after the `^` is the character. -/
example : readPattern [caret, star, 98, dollar] =
    ⟨true, [.once (.char star), .once (.char 98)], true⟩ := by
  decide

end Matcher

end Xv6.User.Grep
