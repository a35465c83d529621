import Mathlib.Logic.Function.Basic
import Mathlib.Tactic.Ring

/-!
# A finite map in an array of slots

A table of `n` slots, each empty or holding a key with its value.  A key is found by
searching from the first slot on, a new key goes to the first empty slot or behind the
last one.  As long as no key stands in two slots the table is a finite map, and filling
and clearing slots are the insertion and the removal of a key.
-/

namespace Xv6.Verified

/-- The first of the `n` numbers from `j` on that satisfies `p`. -/
def firstFrom (p : Nat → Bool) : Nat → Nat → Option Nat
  | 0, _ => none
  | n + 1, j => if p j then some j else firstFrom p n (j + 1)

theorem firstFrom_eq_some {p : Nat → Bool} {n j i : Nat} :
    firstFrom p n j = some i ↔
      j ≤ i ∧ i < j + n ∧ p i = true ∧ ∀ i', j ≤ i' → i' < i → p i' = false := by
  induction n generalizing j with
  | zero =>
      constructor
      · intro h
        cases h
      · rintro ⟨h₁, h₂, -⟩
        omega
  | succ n ih =>
      rw [firstFrom]
      cases hj : p j with
      | true =>
          rw [if_pos rfl]
          constructor
          · intro h
            cases h
            exact ⟨Nat.le_refl _, by omega, hj, fun i' h₁ h₂ => by omega⟩
          · rintro ⟨h₁, -, -, hmin⟩
            rcases Nat.lt_or_eq_of_le h₁ with hlt | heq
            · rw [hmin j (Nat.le_refl _) hlt] at hj
              cases hj
            · rw [heq]
      | false =>
          rw [if_neg (by decide), ih]
          constructor
          · rintro ⟨h₁, h₂, hi, hmin⟩
            refine ⟨by omega, by omega, hi, fun i' h₁' h₂' => ?_⟩
            rcases Nat.lt_or_eq_of_le h₁' with hlt | heq
            · exact hmin i' hlt h₂'
            · rw [← heq]
              exact hj
          · rintro ⟨h₁, h₂, hi, hmin⟩
            refine ⟨?_, by omega, hi, fun i' h₁' h₂' => hmin i' (by omega) h₂'⟩
            rcases Nat.lt_or_eq_of_le h₁ with hlt | heq
            · exact hlt
            · rw [heq, hi] at hj
              cases hj

theorem firstFrom_eq_none {p : Nat → Bool} {n j : Nat} :
    firstFrom p n j = none ↔ ∀ i, j ≤ i → i < j + n → p i = false := by
  induction n generalizing j with
  | zero =>
      constructor
      · intro _ i h₁ h₂
        omega
      · intro _
        rfl
  | succ n ih =>
      rw [firstFrom]
      cases hj : p j with
      | true =>
          rw [if_pos rfl]
          constructor
          · intro h
            cases h
          · intro h
            rw [h j (Nat.le_refl _) (by omega)] at hj
            cases hj
      | false =>
          rw [if_neg (by decide), ih]
          constructor
          · intro h i h₁ h₂
            rcases Nat.lt_or_eq_of_le h₁ with hlt | heq
            · exact h i hlt (by omega)
            · rw [← heq]
              exact hj
          · intro h i h₁ h₂
            exact h i (by omega) (by omega)

section Slots

variable {K V : Type} {t t' : Nat → Option (K × V)} {n : Nat} {key : K} {v : V}

/-- The first empty slot, or `n` if there is none. -/
def freeSlot (t : Nat → Option (K × V)) (n : Nat) : Nat :=
  (firstFrom (fun j => (t j).isNone) n 0).getD n

/-- No key stands in two slots. -/
def KeysDistinct (t : Nat → Option (K × V)) (n : Nat) : Prop :=
  ∀ i j x y, i < n → j < n → t i = some x → t j = some y → x.1 = y.1 → i = j

theorem keysDistinct_of_listed {f : Nat → K × V} (h : ∀ j, j < n → t j = some (f j))
    (hinj : ∀ i j, i < n → j < n → (f i).1 = (f j).1 → i = j) : KeysDistinct t n := by
  intro i j x y hi hj hx hy hkey
  rw [h i hi] at hx
  rw [h j hj] at hy
  cases hx
  cases hy
  exact hinj i j hi hj hkey

theorem freeSlot_le (t : Nat → Option (K × V)) (n : Nat) : freeSlot t n ≤ n := by
  unfold freeSlot
  cases hf : firstFrom (fun j => (t j).isNone) n 0 with
  | none => exact Nat.le_refl _
  | some j =>
      have := (firstFrom_eq_some.1 hf).2.1
      simp only [Option.getD_some]
      omega

theorem freeSlot_empty (h : freeSlot t n < n) : t (freeSlot t n) = none := by
  unfold freeSlot at h ⊢
  cases hf : firstFrom (fun j => (t j).isNone) n 0 with
  | none =>
      rw [hf] at h
      exact absurd h (Nat.lt_irrefl _)
  | some j =>
      have := (firstFrom_eq_some.1 hf).2.2.1
      simpa using this

/-- A search that finds no empty slot means that there is none. -/
theorem freeSlot_eq (h : freeSlot t n = n) {j : Nat} (hj : j < n) : t j ≠ none := by
  intro ht
  unfold freeSlot at h
  cases hf : firstFrom (fun j => (t j).isNone) n 0 with
  | none =>
      have := firstFrom_eq_none.1 hf j (Nat.zero_le _) (by omega)
      rw [ht] at this
      cases this
  | some i =>
      rw [hf, Option.getD_some] at h
      have := (firstFrom_eq_some.1 hf).2.1
      omega

/-- A slot is filled with a new key: it was empty, or it is the one behind the last. -/
structure Filled (t : Nat → Option (K × V)) (n : Nat) (t' : Nat → Option (K × V)) (n' j : Nat)
    (key : K) (v : V) : Prop where
  self : t' j = some (key, v)
  others : ∀ i, i ≠ j → i < n → t' i = t i
  place : j < n ∧ t j = none ∧ n' = n ∨ j = n ∧ n' = n + 1

theorem Filled.lt {n' j : Nat} (h : Filled t n t' n' j key v) : j < n' := by
  rcases h.place with ⟨hj, -, rfl⟩ | ⟨rfl, rfl⟩
  · exact hj
  · exact Nat.lt_succ_self _

/-- What stands in another slot stood there before. -/
theorem Filled.back {n' i j : Nat} (h : Filled t n t' n' j key v) (hi : i < n') (hne : i ≠ j) :
    i < n ∧ t' i = t i := by
  have hlt : i < n := by
    rcases h.place with ⟨-, -, rfl⟩ | ⟨rfl, rfl⟩
    · exact hi
    · omega
  exact ⟨hlt, h.others i hne hlt⟩

/-- A slot is cleared. -/
structure Cleared (t : Nat → Option (K × V)) (n : Nat) (t' : Nat → Option (K × V)) (j : Nat) :
    Prop where
  self : t' j = none
  others : ∀ i, i ≠ j → i < n → t' i = t i

theorem Cleared.back {i j : Nat} {x : K × V} (h : Cleared t n t' j) (hi : i < n)
    (ht : t' i = some x) : i ≠ j ∧ t i = some x := by
  have hij : i ≠ j := by
    rintro rfl
    rw [h.self] at ht
    cases ht
  exact ⟨hij, h.others i hij hi ▸ ht⟩

theorem Cleared.distinct {j : Nat} (h : Cleared t n t' j) (hd : KeysDistinct t n) :
    KeysDistinct t' n := by
  intro a b x y ha hb hx hy hkey
  exact hd a b x y ha hb (h.back ha hx).2 (h.back hb hy).2 hkey

end Slots

section Table

variable {K V : Type} [DecidableEq K] {t t' : Nat → Option (K × V)} {n : Nat} {key : K} {v : V}

/-- Slot `j` holds `key`. -/
def holdsKey (t : Nat → Option (K × V)) (key : K) (j : Nat) : Bool :=
  match t j with
  | none => false
  | some x => decide (x.1 = key)

/-- The slot that holds `key`, if one of the first `n` does. -/
def slotOf (t : Nat → Option (K × V)) (n : Nat) (key : K) : Option Nat :=
  firstFrom (holdsKey t key) n 0

/-- The table as a map. -/
def tableMap (t : Nat → Option (K × V)) (n : Nat) (key : K) : Option V :=
  match slotOf t n key with
  | none => none
  | some j => (t j).map Prod.snd

theorem holdsKey_eq_true {j : Nat} : holdsKey t key j = true ↔ ∃ v, t j = some (key, v) := by
  unfold holdsKey
  cases hj : t j with
  | none => simp
  | some x =>
      obtain ⟨key', v'⟩ := x
      simp

theorem slotOf_eq_some {j : Nat} (h : slotOf t n key = some j) :
    j < n ∧ ∃ v, t j = some (key, v) := by
  obtain ⟨-, hlt, hkey, -⟩ := firstFrom_eq_some.1 h
  exact ⟨by omega, holdsKey_eq_true.1 hkey⟩

theorem slotOf_eq_none : slotOf t n key = none ↔ ∀ j v, j < n → t j ≠ some (key, v) := by
  rw [slotOf, firstFrom_eq_none]
  constructor
  · intro h j v hj ht
    have := h j (Nat.zero_le _) (by omega)
    rw [holdsKey_eq_true.2 ⟨v, ht⟩] at this
    cases this
  · intro h j _ hj
    apply Bool.eq_false_iff.2
    intro hkey
    obtain ⟨v, ht⟩ := holdsKey_eq_true.1 hkey
    exact h j v (by omega) ht

/-- The map says what the slots hold. -/
theorem tableMap_eq_some (hd : KeysDistinct t n) :
    tableMap t n key = some v ↔ ∃ j, j < n ∧ t j = some (key, v) := by
  unfold tableMap
  cases hs : slotOf t n key with
  | none =>
      constructor
      · intro h
        cases h
      · rintro ⟨j, hj, ht⟩
        exact absurd ht (slotOf_eq_none.1 hs j v hj)
  | some j =>
      obtain ⟨hj, w, ht⟩ := slotOf_eq_some hs
      show (t j).map Prod.snd = some v ↔ _
      rw [ht]
      constructor
      · intro h
        cases h
        exact ⟨j, hj, ht⟩
      · rintro ⟨i, hi, ht'⟩
        obtain rfl := hd i j _ _ hi hj ht' ht rfl
        rw [ht'] at ht
        cases ht
        rfl

theorem tableMap_eq_none : tableMap t n key = none ↔ slotOf t n key = none := by
  unfold tableMap
  cases hs : slotOf t n key with
  | none => simp
  | some j =>
      obtain ⟨-, v, ht⟩ := slotOf_eq_some hs
      simp [ht]

theorem Filled.distinct {n' j : Nat} (h : Filled t n t' n' j key v) (hd : KeysDistinct t n)
    (hnew : slotOf t n key = none) : KeysDistinct t' n' := by
  intro a b x y ha hb hx hy hkey
  by_cases haj : a = j
  · by_cases hbj : b = j
    · rw [haj, hbj]
    · obtain ⟨hb', heq⟩ := h.back hb hbj
      rw [haj, h.self] at hx
      cases hx
      rw [heq] at hy
      have hold : t b = some (key, y.2) := by
        rw [hy, show key = y.1 from hkey]
      exact absurd hold (slotOf_eq_none.1 hnew b y.2 hb')
  · obtain ⟨ha', heq⟩ := h.back ha haj
    rw [heq] at hx
    by_cases hbj : b = j
    · rw [hbj, h.self] at hy
      cases hy
      have hold : t a = some (key, x.2) := by
        rw [hx, ← show x.1 = key from hkey]
      exact absurd hold (slotOf_eq_none.1 hnew a x.2 ha')
    · obtain ⟨hb', heq'⟩ := h.back hb hbj
      rw [heq'] at hy
      exact hd a b x y ha' hb' hx hy hkey

/-- Filling a slot with a new key inserts it. -/
theorem Filled.map {n' j : Nat} (h : Filled t n t' n' j key v) (hd : KeysDistinct t n)
    (hnew : slotOf t n key = none) :
    tableMap t' n' = Function.update (tableMap t n) key (some v) := by
  have hd' := h.distinct hd hnew
  funext other
  apply Option.ext
  intro w
  rw [tableMap_eq_some hd']
  by_cases hkey : other = key
  · subst hkey
    rw [Function.update_self]
    constructor
    · rintro ⟨i, hi, ht⟩
      obtain rfl := hd' i j _ _ hi h.lt ht h.self rfl
      rw [h.self] at ht
      cases ht
      rfl
    · intro hw
      cases hw
      exact ⟨j, h.lt, h.self⟩
  · rw [Function.update_of_ne hkey, tableMap_eq_some hd]
    constructor
    · rintro ⟨i, hi, ht⟩
      have hij : i ≠ j := by
        rintro rfl
        rw [h.self] at ht
        cases ht
        exact hkey rfl
      obtain ⟨hi', heq⟩ := h.back hi hij
      exact ⟨i, hi', heq ▸ ht⟩
    · rintro ⟨i, hi, ht⟩
      have hij : i ≠ j := by
        rintro rfl
        rcases h.place with ⟨-, hnone, -⟩ | ⟨rfl, -⟩
        · rw [hnone] at ht
          cases ht
        · exact Nat.lt_irrefl _ hi
      refine ⟨i, ?_, by rw [h.others i hij hi]; exact ht⟩
      rcases h.place with ⟨-, -, rfl⟩ | ⟨-, rfl⟩ <;> omega

/-- Clearing the slot of a key removes the key. -/
theorem Cleared.map {j : Nat} (h : Cleared t n t' j) (hd : KeysDistinct t n) (hj : j < n)
    (hkey : t j = some (key, v)) :
    tableMap t' n = Function.update (tableMap t n) key none := by
  have hd' := h.distinct hd
  funext other
  apply Option.ext
  intro w
  rw [tableMap_eq_some hd']
  by_cases hother : other = key
  · subst hother
    rw [Function.update_self]
    constructor
    · rintro ⟨i, hi, ht⟩
      obtain ⟨hij, ht'⟩ := h.back hi ht
      exact absurd (hd i j _ _ hi hj ht' hkey rfl) hij
    · intro hw
      cases hw
  · rw [Function.update_of_ne hother, tableMap_eq_some hd]
    constructor
    · rintro ⟨i, hi, ht⟩
      exact ⟨i, hi, (h.back hi ht).2⟩
    · rintro ⟨i, hi, ht⟩
      have hij : i ≠ j := by
        rintro rfl
        rw [hkey] at ht
        cases ht
        exact hother rfl
      exact ⟨i, hi, by rw [h.others i hij hi]; exact ht⟩

/-- A table that holds a list in its first slots is searched as the list is. -/
theorem tableMap_of_list {es : List (K × V)} (h : ∀ j, j < n → t j = es[j]?)
    (hlen : es.length ≤ n) :
    tableMap t n key = (es.find? fun e => decide (e.1 = key)).map Prod.snd := by
  unfold tableMap
  cases hfind : es.find? fun e => decide (e.1 = key) with
  | none =>
      have hslot : slotOf t n key = none := by
        apply slotOf_eq_none.2
        intro j v hj ht
        rw [h j hj] at ht
        have := List.find?_eq_none.1 hfind _ (List.mem_of_getElem? ht)
        simp at this
      rw [hslot]
      rfl
  | some e =>
      obtain ⟨hkey, i, hi, he, hbefore⟩ := List.find?_eq_some_iff_getElem.1 hfind
      have hkey : e.1 = key := of_decide_eq_true hkey
      have hti : t i = some e := by
        rw [h i (by omega), List.getElem?_eq_getElem hi, he]
      have hslot : slotOf t n key = some i := by
        apply firstFrom_eq_some.2
        refine ⟨Nat.zero_le _, by omega, holdsKey_eq_true.2 ⟨e.2, ?_⟩, ?_⟩
        · rw [hti, ← hkey]
        · intro j _ hj
          have hlt : j < es.length := by omega
          have hne := hbefore j hj
          unfold holdsKey
          rw [h j (by omega), List.getElem?_eq_getElem hlt]
          simpa using hne
      rw [hslot]
      simp only [hti]

end Table

end Xv6.Verified
