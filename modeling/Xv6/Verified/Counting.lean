import Mathlib.Algebra.BigOperators.Group.Finset.Basic
import Mathlib.Algebra.Order.BigOperators.Group.Finset
import Mathlib.Tactic.Ring

/-!
# Counting over a table

Reference counts are sums over the entries of a table.  An operation touches one
entry, so its effect on the sum is the effect on that entry.
-/

namespace Xv6.Verified

open Finset

/-- One summand changes. -/
theorem sum_change {n p : Nat} {f g : Nat → Nat} (hp : p < n)
    (h : ∀ q, q ≠ p → g q = f q) :
    ∑ q ∈ range n, g q + f p = ∑ q ∈ range n, f q + g p := by
  have hmem : p ∈ range n := mem_range.2 hp
  have hrest : ∑ q ∈ (range n).erase p, g q = ∑ q ∈ (range n).erase p, f q :=
    sum_congr rfl fun q hq => h q (ne_of_mem_erase hq)
  rw [← add_sum_erase _ _ hmem, ← add_sum_erase _ f hmem, hrest]
  omega

/-- A summand is at most the sum. -/
theorem le_sum_range {n p : Nat} (f : Nat → Nat) (hp : p < n) :
    f p ≤ ∑ q ∈ range n, f q :=
  single_le_sum (fun _ _ => Nat.zero_le _) (mem_range.2 hp)

end Xv6.Verified
