import Mathlib.Data.Int.Order.Basic
import Mathlib.Tactic.Ring

/-!
# The type `int`

An `int` has 32 bits, and its arithmetic wraps around.
-/

namespace Xv6.Verified.CInt

/-- `int` arithmetic wraps around. -/
def int (x : Int) : Int := (x + 2147483648) % 4294967296 - 2147483648

/-- `x` is an `int`. -/
def Fits (x : Int) : Prop := -2147483648 ≤ x ∧ x < 2147483648

theorem int_eq {x : Int} (hlo : -2147483648 ≤ x) (hhi : x < 2147483648) : int x = x := by
  unfold int
  omega

theorem int_of_fits {x : Int} (h : Fits x) : int x = x := int_eq h.1 h.2

end Xv6.Verified.CInt
