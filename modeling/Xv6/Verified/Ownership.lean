import Mathlib.Logic.Function.Basic
import Mathlib.Tactic.Ring

/-!
# Exclusive ownership

A table of references into a pool of resources: `ref x` is the resource slot `x`
holds, or `null`.  The table is *exclusive* when no resource is held by two
slots and everything held is marked as used, and *complete* when nothing is
marked that no slot holds.  Taking a fresh resource into a slot keeps both;
emptying slots keeps exclusiveness, and keeps completeness if the resources they
held are unmarked.
-/

namespace Xv6.Verified.Ownership

variable {ι β : Type} {null : β} {used used' : β → Prop} {ref ref' : ι → β}

/-- No resource is held twice, and what is held is marked. -/
structure Exclusive (null : β) (used : β → Prop) (ref : ι → β) : Prop where
  inj : ∀ x y, ref x ≠ null → ref x = ref y → x = y
  held : ∀ x, ref x ≠ null → used (ref x)

/-- Every marked resource of the pool is held. -/
def Complete (pool used : β → Prop) (ref : ι → β) : Prop :=
  ∀ b, pool b → used b → ∃ x, ref x = b

/-- A resource that is not marked is held by nobody. -/
theorem Exclusive.ne_of_not_used (h : Exclusive null used ref) {b : β} (hb : ¬used b)
    (hnull : b ≠ null) (x : ι) : ref x ≠ b := by
  intro hx
  exact hb (hx ▸ h.held x (hx ▸ hnull))

/-- Taking an unmarked resource into a slot. -/
theorem Exclusive.take [DecidableEq ι] (h : Exclusive null used ref) {b : β} (x : ι)
    (hb : ¬used b) (hnull : b ≠ null) (hused : ∀ c, used c → used' c) (hb' : used' b) :
    Exclusive null used' (Function.update ref x b) := by
  have hfresh := h.ne_of_not_used hb hnull
  constructor
  · intro y z hy hyz
    by_cases hyx : y = x
    · by_cases hzx : z = x
      · rw [hyx, hzx]
      · rw [hyx, Function.update_self, Function.update_of_ne hzx] at hyz
        exact absurd hyz.symm (hfresh z)
    · by_cases hzx : z = x
      · rw [hzx, Function.update_self, Function.update_of_ne hyx] at hyz
        exact absurd hyz (hfresh y)
      · rw [Function.update_of_ne hyx] at hy hyz
        rw [Function.update_of_ne hzx] at hyz
        exact h.inj y z hy hyz
  · intro y hy
    by_cases hyx : y = x
    · rw [hyx, Function.update_self]
      exact hb'
    · rw [Function.update_of_ne hyx] at hy ⊢
      exact hused _ (h.held y hy)

/-- Emptying slots, and unmarking only what the emptied slots held. -/
theorem Exclusive.drop (h : Exclusive null used ref)
    (href : ∀ x, ref' x = ref x ∨ ref' x = null)
    (hused : ∀ x, ref' x ≠ null → used (ref x) → used' (ref x)) :
    Exclusive null used' ref' := by
  have hkeep : ∀ x, ref' x ≠ null → ref' x = ref x := fun x hx =>
    (href x).resolve_right hx
  constructor
  · intro x y hx hxy
    have hy : ref' y ≠ null := hxy ▸ hx
    exact h.inj x y (hkeep x hx ▸ hx) (by rw [← hkeep x hx, ← hkeep y hy, hxy])
  · intro x hx
    have hx' : ref x ≠ null := hkeep x hx ▸ hx
    rw [hkeep x hx]
    exact hused x hx (h.held x hx')

end Xv6.Verified.Ownership
