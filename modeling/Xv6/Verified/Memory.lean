import Mathlib.Logic.Function.Basic
import Mathlib.Tactic.Ring

/-!
# A memory of bytes

Numbers are stored in `k` bytes, the lowest first.

* `load_store`: what was stored is loaded again, as far as it fits.
* `store_outside`, `load_congr`: other bytes are not touched.
-/

namespace Xv6.Verified

variable {m m' : Nat → UInt8} {a b v k : Nat}

/-- The number in the `k` bytes from `a` on. -/
def load (m : Nat → UInt8) : Nat → Nat → Nat
  | _, 0 => 0
  | a, k + 1 => (m a).toNat + 256 * load m (a + 1) k

/-- Put the number `v` into the `k` bytes from `a` on. -/
def store (m : Nat → UInt8) : Nat → Nat → Nat → Nat → UInt8
  | _, _, 0 => m
  | a, v, k + 1 => Function.update (store m (a + 1) (v / 256) k) a (UInt8.ofNat v)

theorem store_outside (h : b < a ∨ a + k ≤ b) : store m a v k b = m b := by
  induction k generalizing a v with
  | zero => rfl
  | succ k ih =>
      rw [store, Function.update_of_ne (by omega)]
      exact ih (by omega)

theorem load_congr (h : ∀ b, a ≤ b → b < a + k → m' b = m b) : load m' a k = load m a k := by
  induction k generalizing a with
  | zero => rfl
  | succ k ih =>
      rw [load, load, h a (Nat.le_refl a) (by omega), ih fun b hab hb => h b (by omega) (by omega)]

theorem load_store : load (store m a v k) a k = v % 256 ^ k := by
  induction k generalizing a v with
  | zero => rw [load, Nat.pow_zero, Nat.mod_one]
  | succ k ih =>
      have hrest : load (store m a v (k + 1)) (a + 1) k =
          load (store m (a + 1) (v / 256) k) (a + 1) k :=
        load_congr fun b hb _ => Function.update_of_ne (by omega) _ _
      have hfirst : store m a v (k + 1) a = UInt8.ofNat v := Function.update_self ..
      have hsplit : v % 256 ^ (k + 1) = v % 256 + 256 * (v / 256 % 256 ^ k) := by
        rw [Nat.pow_succ', Nat.mod_mul]
      rw [load, hrest, ih, hfirst, hsplit, UInt8.toNat_ofNat']

theorem load_lt : load m a k < 256 ^ k := by
  induction k generalizing a with
  | zero => exact Nat.one_pos
  | succ k ih =>
      have hbyte := (m a).toNat_lt
      have hrest : load m (a + 1) k < 256 ^ k := ih
      rw [load, Nat.pow_succ']
      omega

end Xv6.Verified
