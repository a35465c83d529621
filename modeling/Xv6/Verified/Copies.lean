import Mathlib.Logic.Function.Basic
import Mathlib.Tactic.Ring

/-!
# Copying a range onto another

A loop that copies values one after the other, upwards or downwards, in a memory where the two
ranges may overlap.

* `copyUp_eq`, `copyDown_eq`: what each of the loops leaves in the memory.
* `copyUp_eq_moved_iff`: when the upward loop leaves the values that were in the source.
-/

namespace Xv6.Verified

variable {α : Type*}

/-- Copy `n` values from `s` on to `d` on, the lowest first. -/
def copyUp (m : Nat → α) (d s : Nat) : Nat → Nat → α
  | 0 => m
  | n + 1 => copyUp (Function.update m d (m s)) (d + 1) (s + 1) n

/-- Copy the `n` values below `s` to below `d`, the highest first. -/
def copyDown (m : Nat → α) (d s : Nat) : Nat → Nat → α
  | 0 => m
  | n + 1 => copyDown (Function.update m (d - 1) (m (s - 1))) (d - 1) (s - 1) n

/-- The memory where the range from `d` on has the values that were in the one from `s` on. -/
def moved (m : Nat → α) (d s n : Nat) : Nat → α :=
  fun b => if d ≤ b ∧ b < d + n then m (s + (b - d)) else m b

variable {m : Nat → α} {d s n b i : Nat}

theorem moved_inside (hi : i < n) : moved m d s n (d + i) = m (s + i) := by
  rw [moved, if_pos (by omega), Nat.add_sub_cancel_left]

/-- The last step of `copyUp`. -/
theorem copyUp_succ (m : Nat → α) (d s n : Nat) : copyUp m d s (n + 1) =
    Function.update (copyUp m d s n) (d + n) (copyUp m d s n (s + n)) := by
  induction n generalizing m d s with
  | zero => rfl
  | succ n ih =>
      rw [copyUp, ih]
      simp only [copyUp, Nat.add_assoc, Nat.add_comm 1 n]

/-- Upwards, a value that was written may be read again. -/
def upwards (m : Nat → α) (d s i : Nat) : α := if s < d then m (s + i % (d - s)) else m (s + i)

theorem copyUp_eq (m : Nat → α) (d s n : Nat) : copyUp m d s n =
    fun b => if d ≤ b ∧ b < d + n then upwards m d s (b - d) else m b := by
  induction n with
  | zero =>
      funext b
      rw [if_neg (by omega)]
      rfl
  | succ n ih =>
      have hread : copyUp m d s n (s + n) = upwards m d s n := by
        rw [ih, upwards]
        dsimp only
        by_cases hsd : s < d
        · by_cases hover : d ≤ s + n
          · rw [if_pos ⟨hover, by omega⟩, if_pos hsd, upwards, if_pos hsd,
              show s + n - d = n - (d - s) by omega, ← Nat.mod_eq_sub_mod (by omega)]
          · rw [if_neg (by omega), if_pos hsd, Nat.mod_eq_of_lt (by omega)]
        · rw [if_neg (by omega), if_neg hsd]
      funext b
      rw [copyUp_succ, hread]
      by_cases hb : b = d + n
      · rw [hb, Function.update_self, if_pos (by omega), Nat.add_sub_cancel_left]
      · rw [Function.update_of_ne hb, ih]
        dsimp only
        by_cases hin : d ≤ b ∧ b < d + n
        · rw [if_pos hin, if_pos (by omega)]
        · rw [if_neg hin, if_neg (by omega)]

/-- Downwards, from the end of a range that does not begin above the other one's end. -/
theorem copyDown_eq (m : Nat → α) (hsd : s ≤ d) (n : Nat) :
    copyDown m (d + n) (s + n) n = moved m d s n := by
  induction n generalizing m with
  | zero =>
      funext b
      rw [moved, if_neg (by omega)]
      rfl
  | succ n ih =>
      rw [copyDown, show d + (n + 1) - 1 = d + n by omega,
        show s + (n + 1) - 1 = s + n by omega, ih]
      funext b
      rw [moved, moved]
      by_cases hin : d ≤ b ∧ b < d + n
      · rw [if_pos hin, if_pos (by omega), Function.update_of_ne (by omega)]
      · rw [if_neg hin]
        by_cases hb : b = d + n
        · rw [hb, Function.update_self, if_pos (by omega), Nat.add_sub_cancel_left]
        · rw [Function.update_of_ne hb, if_neg (by omega)]

/-- The source repeats with the distance of the two ranges. -/
def Periodic (m : Nat → α) (d s n : Nat) : Prop := ∀ i < n, m (s + i % (d - s)) = m (s + i)

theorem copyUp_eq_moved_iff :
    copyUp m d s n = moved m d s n ↔ (s < d → d < s + n → Periodic m d s n) := by
  rw [copyUp_eq]
  constructor
  · intro heq hsd _ i hi
    have hat := congrFun heq (d + i)
    rw [moved_inside hi, if_pos (by omega), Nat.add_sub_cancel_left, upwards, if_pos hsd] at hat
    exact hat
  · intro hper
    funext b
    rw [moved]
    by_cases hin : d ≤ b ∧ b < d + n
    · rw [if_pos hin, if_pos hin, upwards]
      by_cases hsd : s < d
      · rw [if_pos hsd]
        by_cases hover : d < s + n
        · exact hper hsd hover _ (by omega)
        · rw [Nat.mod_eq_of_lt (by omega)]
      · rw [if_neg hsd]
    · rw [if_neg hin, if_neg hin]

end Xv6.Verified
