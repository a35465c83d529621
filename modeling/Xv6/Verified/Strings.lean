import Mathlib.Data.List.Basic
import Mathlib.Logic.Function.Basic

/-!
# Strings in arrays

An array that holds a word, and a word with the terminator `z` behind it, which is the only one
that an array can hold from a given place on.

## Main results

* `Holds.push`: one more element is stored behind the word.
* `IsString.unique`: an array holds at most one string.
-/

namespace Xv6.Verified.Strings

variable {α : Type} {b b' : Nat → α} {w w' : List α} {z c : α} {i : Nat}

/-- The array begins with the word. -/
def Holds (b : Nat → α) (w : List α) : Prop := ∀ i < w.length, w[i]? = some (b i)

/-- The array begins with the word, which has no terminator, and a terminator. -/
structure IsString (z : α) (b : Nat → α) (w : List α) : Prop where
  holds : Holds b w
  plain : z ∉ w
  ends : b w.length = z

theorem holds_nil : Holds b [] := fun _ hi => absurd hi (Nat.not_lt_zero _)

theorem Holds.getElem (h : Holds b w) (hi : i < w.length) : w[i] = b i := by
  have := h i hi
  rwa [List.getElem?_eq_getElem hi, Option.some_inj] at this

theorem Holds.frame (h : Holds b w) (hb : ∀ i < w.length, b' i = b i) : Holds b' w := by
  intro i hi
  rw [hb i hi]
  exact h i hi

/-- One more element is stored behind the word. -/
theorem Holds.push (h : Holds b w) (hb : ∀ i < w.length, b' i = b i) (hc : b' w.length = c) :
    Holds b' (w ++ [c]) := by
  intro i hi
  rw [List.length_append, List.length_singleton] at hi
  by_cases hlast : i = w.length
  · rw [hlast, hc, List.getElem?_append_right (Nat.le_refl _), Nat.sub_self]
    rfl
  · rw [List.getElem?_append_left (by omega), hb i (by omega)]
    exact h i (by omega)

theorem Holds.mem (h : Holds b w) (hi : i < w.length) : b i ∈ w := by
  rw [← h.getElem hi]
  exact List.getElem_mem hi

/-- The first terminator of a string is the one at its end. -/
theorem IsString.ne (h : IsString z b w) (hi : i < w.length) : b i ≠ z := by
  rintro rfl
  exact h.plain (h.holds.mem hi)

theorem IsString.length_le (h : IsString z b w) (hi : b i = z) : w.length ≤ i :=
  Nat.le_of_not_lt fun hlt => h.ne hlt hi

theorem IsString.unique (h : IsString z b w) (h' : IsString z b w') : w = w' := by
  have hlen : w.length = w'.length := Nat.le_antisymm (h.length_le h'.ends) (h'.length_le h.ends)
  refine List.ext_getElem hlen fun i hi hi' => ?_
  rw [h.holds.getElem hi, h'.holds.getElem hi']

end Xv6.Verified.Strings
