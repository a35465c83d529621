import Mathlib.Data.Finset.Card
import Mathlib.Data.List.Nodup
import Mathlib.Data.Nat.Find
import Mathlib.Tactic.Ring

/-!
# Linear probing

A table of `n` slots.  Key `k` belongs to slot `home k`; if other keys are there already it sits in
the next slot that was empty, with slot 0 behind the last one.  A search goes on from `home k` until
it comes to `k` or to an empty slot.

* `Probed`: no empty slot separates a key from its home.
* `Probed.probe`: in such a table with an empty slot a search ends, at the slot of the key or at the
  empty slot where it has to go.
* `Probed.put`: writing the key there keeps it so.
* `contents`: the pairs in the table, in the order of the slots.
-/

namespace Xv6.Verified.Probing

variable {K V : Type}

/-- The slots of a table. -/
abbrev Slots (K V : Type) := Nat → Option (K × V)

/-- The pairs in the first `n` slots. -/
def contents (slots : Slots K V) (n : Nat) : List (K × V) := (List.range n).filterMap slots

/-- The slot behind `i`. -/
def nextSlot (n i : Nat) : Nat := if n ≤ i + 1 then 0 else i + 1

/-- Search for `k` from slot `i` on: the slot where it ends. -/
def probe [DecidableEq K] (slots : Slots K V) (n : Nat) (k : K) : Nat → Nat → Option Nat
  | 0, _ => none
  | fuel + 1, i =>
      match slots i with
      | none => some i
      | some p => if k = p.1 then some i else probe slots n k fuel (nextSlot n i)

/-- The first `d` slots from `h` on are taken by other keys. -/
def Passed (slots : Slots K V) (n h : Nat) (k : K) (d : Nat) : Prop :=
  ∀ e < d, ∃ p, slots ((h + e) % n) = some p ∧ p.1 ≠ k

/-- No empty slot separates a key from its home. -/
structure Probed (home : K → Nat) (n : Nat) (slots : Slots K V) : Prop where
  bound : ∀ i p, slots i = some p → i < n
  path : ∀ i k v, slots i = some (k, v) →
    ∃ d < n, i = (home k + d) % n ∧ Passed slots n (home k) k d

variable {home : K → Nat} {n : Nat} {slots : Slots K V} {i j d h : Nat} {k : K} {v v' : V}

theorem mem_contents (hs : Probed home n slots) {p : K × V} :
    p ∈ contents slots n ↔ ∃ i, slots i = some p := by
  rw [contents, List.mem_filterMap]
  constructor
  · rintro ⟨i, -, hi⟩
    exact ⟨i, hi⟩
  · rintro ⟨i, hi⟩
    exact ⟨i, List.mem_range.2 (hs.bound i p hi), hi⟩

/-- A key is in one slot only. -/
theorem Probed.single (hs : Probed home n slots) (hi : slots i = some (k, v))
    (hj : slots j = some (k, v')) : i = j := by
  obtain ⟨d, -, rfl, hd⟩ := hs.path i k v hi
  obtain ⟨e, -, rfl, he⟩ := hs.path j k v' hj
  rcases Nat.lt_trichotomy d e with hlt | rfl | hlt
  · obtain ⟨p, hp, hne⟩ := he d hlt
    rw [hi] at hp
    cases hp
    exact absurd rfl hne
  · rfl
  · obtain ⟨p, hp, hne⟩ := hd e hlt
    rw [hj] at hp
    cases hp
    exact absurd rfl hne

theorem keys_nodup (hs : Probed home n slots) : ((contents slots n).map Prod.fst).Nodup := by
  rw [contents, List.map_filterMap]
  refine List.Nodup.filterMap ?_ List.nodup_range
  intro i j k hi hj
  simp only [Option.mem_def, Option.map_eq_some_iff, Prod.exists, exists_and_right,
    exists_eq_right] at hi hj
  obtain ⟨v, hv⟩ := hi
  obtain ⟨w, hw⟩ := hj
  exact hs.single hv hw

/-- A table with fewer pairs than slots has an empty one. -/
theorem exists_empty (hlt : (contents slots n).length < n) : ∃ i < n, slots i = none := by
  by_contra hfull
  push Not at hfull
  have hall : ∀ m ≤ n, ((List.range m).filterMap slots).length = m := by
    intro m
    induction m with
    | zero => exact fun _ => rfl
    | succ m ih =>
        intro hm
        obtain ⟨p, hp⟩ := Option.ne_none_iff_exists'.1 (hfull m (by omega))
        rw [List.range_succ, List.filterMap_append, List.length_append, ih (by omega)]
        simp [hp]
  exact absurd (hall n le_rfl) (by rw [contents] at hlt; omega)

theorem nextSlot_mod (hn : 0 < n) (a : Nat) : nextSlot n (a % n) = (a + 1) % n := by
  have hlt := Nat.mod_lt a hn
  have hmod : (a + 1) % n = (a % n + 1) % n := (Nat.mod_add_mod a n 1).symm
  rw [nextSlot, hmod]
  split
  · rw [show a % n + 1 = n by omega, Nat.mod_self]
  · exact (Nat.mod_eq_of_lt (by omega)).symm

variable [DecidableEq K]

/-- A search that finds only other keys on its way arrives. -/
theorem probe_eq (hn : 0 < n) (hend : ∀ p, slots ((h + d) % n) = some p → p.1 = k) {fuel : Nat}
    (hfuel : d < fuel) (hpassed : Passed slots n h k d) :
    probe slots n k fuel (h % n) = some ((h + d) % n) := by
  induction fuel generalizing h d with
  | zero => omega
  | succ fuel ih =>
      rw [probe]
      cases d with
      | zero =>
          cases hi : slots (h % n) with
          | none => rfl
          | some p =>
              dsimp only
              rw [if_pos (hend p hi).symm]
              rfl
      | succ d =>
          obtain ⟨p, hp, hne⟩ := hpassed 0 d.succ_pos
          rw [Nat.add_zero] at hp
          rw [hp]
          dsimp only
          rw [if_neg (Ne.symm hne), nextSlot_mod hn]
          have hshift : h + (d + 1) = h + 1 + d := by omega
          rw [hshift] at hend ⊢
          refine ih hend (by omega) fun e he => ?_
          rw [show h + 1 + e = h + (e + 1) by omega]
          exact hpassed (e + 1) (by omega)

/-- Where a search for `k` ends. -/
theorem Probed.probe (hempty : ∃ i < n, slots i = none) (hhome : home k < n) :
    ∃ d < n, probe slots n k n (home k) = some ((home k + d) % n) ∧
      Passed slots n (home k) k d ∧ ∀ p, slots ((home k + d) % n) = some p → p.1 = k := by
  have hn : 0 < n := by omega
  have hex : ∃ d, ∀ p, slots ((home k + d) % n) = some p → p.1 = k := by
    obtain ⟨i, hi, hnone⟩ := hempty
    refine ⟨i + n - home k, fun p hp => ?_⟩
    rw [show home k + (i + n - home k) = i + n by omega, Nat.add_mod_right,
      Nat.mod_eq_of_lt hi, hnone] at hp
    cases hp
  -- the first slot at which it can end
  classical
  let d := Nat.find hex
  have hpassed : Passed slots n (home k) k d := by
    intro e he
    have hnot := Nat.find_min hex he
    push Not at hnot
    exact hnot
  have hd : d < n := by
    by_contra hle
    obtain ⟨i, hi, hnone⟩ := hempty
    obtain ⟨p, hp, -⟩ := hpassed ((i + n - home k) % n) (by
      have := Nat.mod_lt (i + n - home k) hn
      omega)
    rw [Nat.add_mod_mod, show home k + (i + n - home k) = i + n by omega, Nat.add_mod_right,
      Nat.mod_eq_of_lt hi, hnone] at hp
    cases hp
  refine ⟨d, hd, ?_, hpassed, Nat.find_spec hex⟩
  have hprobe := probe_eq hn (Nat.find_spec hex) hd hpassed
  rwa [Nat.mod_eq_of_lt hhome] at hprobe

omit [DecidableEq K] in
/-- If the search ends at an empty slot, the key is nowhere. -/
theorem Probed.absent (hs : Probed home n slots)
    (hpassed : Passed slots n (home k) k d) (hnone : slots ((home k + d) % n) = none) (i : Nat)
    (v : V) : slots i ≠ some (k, v) := by
  intro hi
  obtain ⟨e, he, rfl, hother⟩ := hs.path i k v hi
  rcases Nat.lt_trichotomy d e with hlt | rfl | hlt
  · obtain ⟨p, hp, -⟩ := hother d hlt
    rw [hnone] at hp
    cases hp
  · rw [hnone] at hi
    cases hi
  · obtain ⟨p, hp, hne⟩ := hpassed e hlt
    rw [hi] at hp
    cases hp
    exact hne rfl

omit [DecidableEq K] in
/-- Writing a key where its search ends. -/
theorem Probed.put (hs : Probed home n slots) (hd : d < n)
    (hpassed : Passed slots n (home k) k d)
    (hend : ∀ p, slots ((home k + d) % n) = some p → p.1 = k) :
    Probed home n (Function.update slots ((home k + d) % n) (some (k, v))) where
  bound i p hi := by
    rw [Function.update_apply] at hi
    split at hi
    · rename_i heq
      rw [heq]
      exact Nat.mod_lt _ (by omega)
    · exact hs.bound i p hi
  path i k' v' hi := by
    -- a slot that another key passes stays taken by a key that is not that one
    have hkeep : ∀ h e, Passed slots n h k' e → k' ≠ k ∨ h = home k ∧ e ≤ d →
        Passed (Function.update slots ((home k + d) % n) (some (k, v))) n h k' e := by
      intro h e hold hcase f hf
      obtain ⟨p, hp, hne⟩ := hold f hf
      rw [Function.update_apply]
      split
      · rename_i heq
        refine ⟨(k, v), rfl, ?_⟩
        rcases hcase with hkk | ⟨rfl, hle⟩
        · exact Ne.symm hkk
        · rw [heq] at hp
          rw [hend p hp] at hne
          exact hne
      · exact ⟨p, hp, hne⟩
    rw [Function.update_apply] at hi
    split at hi
    · rename_i heq
      cases hi
      exact ⟨d, hd, heq, hkeep _ _ hpassed (.inr ⟨rfl, le_rfl⟩)⟩
    · rename_i hslot
      obtain ⟨e, he, heq, hold⟩ := hs.path i k' v' hi
      refine ⟨e, he, heq, hkeep _ _ hold (.inl ?_)⟩
      rintro rfl
      -- the key itself, elsewhere: then its search would have ended there
      cases hc : slots ((home k' + d) % n) with
      | none => exact hs.absent hpassed hc i v' hi
      | some p =>
          obtain ⟨k₁, v₁⟩ := p
          have hk₁ : k₁ = k' := hend _ hc
          subst hk₁
          exact hslot (hs.single hi hc)

omit [DecidableEq K] in
/-- What is in the table after writing. -/
theorem mem_contents_put (hs : Probed home n slots) (hd : d < n)
    (hpassed : Passed slots n (home k) k d)
    (hend : ∀ p, slots ((home k + d) % n) = some p → p.1 = k) {p : K × V} :
    p ∈ contents (Function.update slots ((home k + d) % n) (some (k, v))) n ↔
      p = (k, v) ∨ p.1 ≠ k ∧ p ∈ contents slots n := by
  obtain ⟨k', v'⟩ := p
  rw [mem_contents (hs.put hd hpassed hend), mem_contents hs]
  constructor
  · rintro ⟨i, hi⟩
    rw [Function.update_apply] at hi
    split at hi
    · cases hi
      exact .inl rfl
    · rename_i hslot
      refine .inr ⟨?_, i, hi⟩
      rintro rfl
      have hold : Function.update slots ((home k' + d) % n) (some (k', v)) i = some (k', v') := by
        rw [Function.update_of_ne hslot, hi]
      exact hslot ((hs.put hd hpassed hend).single hold (Function.update_self _ _ _))
  · rintro (heq | ⟨hne, i, hi⟩)
    · cases heq
      exact ⟨_, Function.update_self _ _ _⟩
    · refine ⟨i, ?_⟩
      rw [Function.update_of_ne, hi]
      rintro rfl
      exact hne (hend _ hi)

omit [DecidableEq K] in
/-- An empty table. -/
theorem probed_empty : Probed home n (fun _ => none : Slots K V) where
  bound _ _ := nofun
  path _ _ _ := nofun

end Xv6.Verified.Probing
