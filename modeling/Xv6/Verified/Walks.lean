import Mathlib.Data.List.Basic

/-!
# Walking a table of entries

A loop that goes over a table whose entries say themselves how long they are: at each place it
looks at what follows, ends there or visits an entry, and goes on by the size of it.  An entry of
size 0 is visited for ever.

* `places` are the places that such a loop comes to, if it comes to an end.

## Main results

* `walk_places`, `walk_of_places`: the loop ends, whatever it does at an entry, exactly if there are
  such places and each visit succeeds.
-/

namespace Xv6.Verified.Walks

variable {α σ : Type}

/-- The loop, from the state `s`; `some none` if a visit fails. -/
def walk (size : List α → Option Nat) (visit : σ → List α → Option σ) :
    Nat → List α → σ → Option (Option σ)
  | 0, _, _ => none
  | fuel + 1, t, s =>
      match size t with
      | none => some (some s)
      | some n =>
          match visit s t with
          | none => some none
          | some s => walk size visit fuel (t.drop n) s

/-- The places of the entries, each with all that follows. -/
def places (size : List α → Option Nat) (t : List α) : Option (List (List α)) :=
  match size t with
  | none => some []
  | some n =>
      if 0 < n ∧ 0 < t.length then (places size (t.drop n)).map (t :: ·) else none
termination_by t.length
decreasing_by
  rw [List.length_drop]
  omega

section Places

variable {size : List α → Option Nat} {visit : σ → List α → Option σ} {t : List α}
  {ps : List (List α)} {s s' : σ} {n fuel : Nat}

theorem places_end (h : size t = none) : places size t = some [] := by
  rw [places, h]

theorem places_entry (h : size t = some n) (hn : 0 < n) (ht : 0 < t.length) :
    places size t = (places size (t.drop n)).map (t :: ·) := by
  rw [places, h]
  exact if_pos ⟨hn, ht⟩

theorem places_stuck (h : size t = some n) (hstuck : ¬(0 < n ∧ 0 < t.length)) :
    places size t = none := by
  rw [places, h]
  exact if_neg hstuck

/-- At each place there is an entry, which is not empty. -/
theorem places_size (h : places size t = some ps) : ∀ p ∈ ps, ∃ n, 0 < n ∧ size p = some n := by
  induction t using places.induct size generalizing ps with
  | case1 t hsize =>
      rw [places_end hsize, Option.some_inj] at h
      subst h
      simp
  | case2 t n hsize hn ih =>
      rw [places_entry hsize hn.1 hn.2, Option.map_eq_some_iff] at h
      obtain ⟨ps, hps, rfl⟩ := h
      exact List.forall_mem_cons.2 ⟨⟨n, hn.1, hsize⟩, ih hps⟩
  | case3 t n hsize hn =>
      rw [places_stuck hsize hn] at h
      cases h

/-- A loop that has ended has visited the places. -/
theorem walk_places (hnil : size [] = none) (h : walk size visit fuel t s = some (some s')) :
    ∃ ps, places size t = some ps ∧ ps.foldlM visit s = some s' := by
  induction fuel generalizing t s with
  | zero => cases h
  | succ fuel ih =>
      rw [walk] at h
      cases hsize : size t with
      | none =>
          rw [hsize] at h
          cases h
          exact ⟨[], places_end hsize, rfl⟩
      | some n =>
          rw [hsize] at h
          have ht : 0 < t.length := by
            refine List.length_pos_of_ne_nil ?_
            rintro rfl
            rw [hnil] at hsize
            cases hsize
          cases hvisit : visit s t with
          | none =>
              rw [hvisit] at h
              cases h
          | some s₁ =>
              rw [hvisit] at h
              obtain ⟨ps, hps, hfold⟩ := ih h
              by_cases hn : 0 < n
              · refine ⟨t :: ps, ?_, ?_⟩
                · rw [places_entry hsize hn ht, hps, Option.map_some]
                · rw [List.foldlM_cons, hvisit]
                  exact hfold
              · obtain rfl : n = 0 := by omega
                rw [List.drop_zero, places_stuck hsize (by omega)] at hps
                cases hps

/-- A loop that has places to visit comes to an end. -/
theorem walk_of_places (hps : places size t = some ps) (hfold : ps.foldlM visit s = some s')
    (hfuel : t.length < fuel) : walk size visit fuel t s = some (some s') := by
  induction fuel generalizing t s ps with
  | zero => omega
  | succ fuel ih =>
      rw [walk]
      cases hsize : size t with
      | none =>
          rw [places_end hsize, Option.some_inj] at hps
          subst hps
          cases hfold
          rfl
      | some n =>
          by_cases hn : 0 < n ∧ 0 < t.length
          · rw [places_entry hsize hn.1 hn.2, Option.map_eq_some_iff] at hps
            obtain ⟨ps, hps, rfl⟩ := hps
            rw [List.foldlM_cons] at hfold
            obtain ⟨s₁, hvisit, hrest⟩ := Option.bind_eq_some_iff.1 hfold
            rw [hvisit]
            refine ih hps hrest ?_
            rw [List.length_drop]
            omega
          · rw [places_stuck hsize hn] at hps
            cases hps

variable {count : σ → Nat} {P : List α → Bool} {R : List α → Prop} {limit : Nat}

/-- Visits that count the places with `P`. -/
theorem foldlM_count
    (hcount : ∀ s t s', visit s t = some s' → count s' = count s + (if P t then 1 else 0))
    (h : ps.foldlM visit s = some s') : count s' = count s + ps.countP P := by
  induction ps generalizing s with
  | nil =>
      cases h
      rfl
  | cons t ps ih =>
      rw [List.foldlM_cons] at h
      obtain ⟨s₁, hvisit, hrest⟩ := Option.bind_eq_some_iff.1 h
      rw [ih hrest, hcount s t s₁ hvisit, List.countP_cons]
      omega

/-- What every visit keeps is kept. -/
theorem foldlM_keeps {I : σ → Prop} (hkeep : ∀ t ∈ ps, ∀ s s', visit s t = some s' → I s → I s')
    (h : ps.foldlM visit s = some s') (hs : I s) : I s' := by
  induction ps generalizing s with
  | nil =>
      cases h
      exact hs
  | cons t ps ih =>
      rw [List.foldlM_cons] at h
      obtain ⟨s₁, hvisit, hrest⟩ := Option.bind_eq_some_iff.1 h
      exact ih (fun p hp => hkeep p (.tail _ hp)) hrest (hkeep t (.head _) s s₁ hvisit hs)

/-- If they stop at a limit, and at a place without `R`, they succeed exactly if there are no more
places than that, all with `R`. -/
theorem foldlM_some_iff
    (hcount : ∀ s t s', visit s t = some s' → count s' = count s + (if P t then 1 else 0))
    (hsome : ∀ s t, (∃ s', visit s t = some s') ↔ R t ∧ (P t = true → count s < limit))
    (hs : count s ≤ limit) :
    (∃ s', ps.foldlM visit s = some s') ↔ (∀ t ∈ ps, R t) ∧ count s + ps.countP P ≤ limit := by
  induction ps generalizing s with
  | nil => exact iff_of_true ⟨s, rfl⟩ ⟨by simp, hs⟩
  | cons t ps ih =>
      have hsplit : (∃ s', (t :: ps).foldlM visit s = some s') ↔
          ∃ s₁, visit s t = some s₁ ∧ ∃ s', ps.foldlM visit s₁ = some s' := by
        constructor
        · rintro ⟨s', h⟩
          rw [List.foldlM_cons] at h
          obtain ⟨s₁, hvisit, hrest⟩ := Option.bind_eq_some_iff.1 h
          exact ⟨s₁, hvisit, s', hrest⟩
        · rintro ⟨s₁, hvisit, s', hrest⟩
          refine ⟨s', ?_⟩
          rw [List.foldlM_cons, hvisit]
          exact hrest
      rw [hsplit, List.forall_mem_cons, List.countP_cons]
      constructor
      · rintro ⟨s₁, hvisit, hrest⟩
        obtain ⟨hR, hlt⟩ := (hsome s t).1 ⟨s₁, hvisit⟩
        have hs₁ := hcount s t s₁ hvisit
        have hle : count s₁ ≤ limit := by
          split at hs₁
          · rename_i hP
            have := hlt hP
            omega
          · omega
        obtain ⟨hRs, hall⟩ := (ih hle).1 hrest
        exact ⟨⟨hR, hRs⟩, by omega⟩
      · rintro ⟨⟨hR, hRs⟩, hall⟩
        obtain ⟨s₁, hvisit⟩ := (hsome s t).2 ⟨hR, fun hP => by rw [if_pos hP] at hall; omega⟩
        have hs₁ := hcount s t s₁ hvisit
        exact ⟨s₁, hvisit, (ih (by omega)).2 ⟨hRs, by omega⟩⟩

end Places

end Xv6.Verified.Walks
