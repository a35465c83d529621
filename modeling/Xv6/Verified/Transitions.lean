/-!
# Runs of a transition system

A system whose states change by acts: `exec s a` is the state that act `a` leads to from
`s`, if it is possible there.  A run performs acts in any order; `ok` restricts it to acts
that meet a condition on the state they are performed in.

* `Reaches.inv`: what every act keeps, every run keeps.
* `runActs`: perform a given list of acts, to exhibit a run.
-/

namespace Xv6.Verified

variable {σ A : Type} {exec : σ → A → Option σ} {ok : σ → A → Prop} {s s' : σ}

/-- The states that acts meeting `ok` lead to. -/
inductive Reaches (exec : σ → A → Option σ) (ok : σ → A → Prop) (s : σ) : σ → Prop
  | refl : Reaches exec ok s s
  | step {s₁ s₂ : σ} (a : A) (h : Reaches exec ok s s₁) (hok : ok s₁ a)
      (hexec : exec s₁ a = some s₂) : Reaches exec ok s s₂

/-- An invariant of the acts is one of the runs. -/
theorem Reaches.inv {I : σ → Prop} (h : Reaches exec ok s s')
    (hact : ∀ t a t', I t → ok t a → exec t a = some t' → I t') (h0 : I s) : I s' := by
  induction h with
  | refl => exact h0
  | step a _ hok hexec ih => exact hact _ a _ ih hok hexec

/-- A run stays one under a weaker condition. -/
theorem Reaches.mono {ok' : σ → A → Prop} (h : Reaches exec ok s s')
    (hok : ∀ t a, ok t a → ok' t a) : Reaches exec ok' s s' := by
  induction h with
  | refl => exact .refl
  | step a _ ha hexec ih => exact ih.step a (hok _ a ha) hexec

/-- Perform the acts in turn, as long as they are possible and meet `ok`. -/
def runActs (exec : σ → A → Option σ) (ok : σ → A → Prop) [∀ s a, Decidable (ok s a)] :
    List A → σ → Option σ
  | [], s => some s
  | a :: as, s => if ok s a then (exec s a).bind (runActs exec ok as) else none

theorem Reaches.of_runActs [∀ s a, Decidable (ok s a)] (as : List A)
    (h : runActs exec ok as s = some s') : Reaches exec ok s s' := by
  suffices ∀ {t : σ}, Reaches exec ok t s → Reaches exec ok t s' from this .refl
  induction as generalizing s with
  | nil =>
      cases h
      exact fun ht => ht
  | cons a as ih =>
      intro t ht
      rw [runActs] at h
      split at h
      · rename_i hok
        obtain ⟨s₁, hexec, hrest⟩ := Option.bind_eq_some_iff.1 h
        exact ih hrest (ht.step a hok hexec)
      · cases h

end Xv6.Verified
