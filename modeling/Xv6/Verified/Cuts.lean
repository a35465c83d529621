import Xv6.Verified.Exec

/-!
# Computations that stop early

`Cuts R m m'`: the computation `m` does what `m'` does, but may stop on the way.  A property of all
runs of `m'` that end well is then one of those of `m`, and what only grows along `R` has not
grown further where `m` stops.

`CutsAt` is the same from one state, with what is known of the stops of `m` that are not those of
`m'`.  The reasons of `m'` are some of those of `m`, through `ι`.
-/

namespace Xv6.Verified

/-- The same outcome, with other stop reasons. -/
def Res.mapError {ε ε' σ α : Type} (ι : ε → ε') : Res ε σ α → Res ε' σ α
  | .ok a s => .ok a s
  | .fail e s => .fail (ι e) s

@[simp] theorem Res.mapError_id {ε σ α : Type} (r : Res ε σ α) : r.mapError id = r := by
  cases r <;> rfl

namespace Exec

variable {ε ε' σ α β : Type} {ι : ε → ε'} {R R' : σ → σ → Prop} {F F' : ε' → σ → Prop}

/-- The same computation, with other stop reasons. -/
def lift (ι : ε → ε') (m : Exec ε σ α) : Exec ε' σ α := ⟨fun s => (m.run s).mapError ι⟩

theorem Preserves.lift {m : Exec ε σ α} (h : Preserves R m) : Preserves R (m.lift ι) := by
  refine ⟨fun s => ?_⟩
  have hm := h.wp s
  unfold Exec.wp Exec.lift at *
  dsimp only
  cases hrun : m.run s with
  | ok a s' =>
      rw [hrun] at hm
      exact hm
  | fail e s' =>
      rw [hrun] at hm
      exact hm

/-- The state in which a computation ends. -/
def Final (m : Exec ε σ α) (s : σ) : σ :=
  match m.run s with
  | .ok _ s' => s'
  | .fail _ s' => s'

/-- What holds however a computation ends holds of the state it ends in. -/
theorem final_of_wp {P : σ → Prop} {m : Exec ε σ α} {s : σ}
    (h : Exec.wp m (fun _ s' => P s') (fun _ s' => P s') s) : P (Final m s) := by
  unfold Exec.wp at h
  unfold Final
  cases hm : m.run s with
  | ok a s' =>
      rw [hm] at h
      exact h
  | fail e s' =>
      rw [hm] at h
      exact h

theorem Preserves.final {m : Exec ε σ α} (h : Preserves R m) (s : σ) : R s (Final m s) :=
  final_of_wp (h.wp s)

/-- The relation for when nothing is said of where a computation would go on. -/
def Anywhere (_ _ : σ) : Prop := True

instance : IsPreorder σ Anywhere where
  refl _ := trivial
  trans _ _ _ _ _ := trivial

theorem Preserves.anywhere (m : Exec ε σ α) : Preserves Anywhere m := by
  refine ⟨fun s => ?_⟩
  unfold Exec.wp
  split <;> trivial

/-! ## From one state -/

/-- From `s`, `m` does what `m'` does, or stops on the way for a reason in `F`; `m'` would go on
from there along `R`. -/
def CutsAt (ι : ε → ε') (R : σ → σ → Prop) (F : ε' → σ → Prop) (m : Exec ε' σ α) (m' : Exec ε σ α)
    (s : σ) : Prop :=
  m.run s = (m'.run s).mapError ι ∨ ∃ e s', m.run s = .fail e s' ∧ F e s' ∧ R s' (Final m' s)

namespace CutsAt

variable {m : Exec ε' σ α} {m' : Exec ε σ α} {s : σ}

theorem pure (a : α) : CutsAt ι R F (Pure.pure a) (Pure.pure a) s := .inl rfl

theorem stop (e : ε) : CutsAt ι R F (Exec.stop (ι e) : Exec ε' σ α) (Exec.stop e) s := .inl rfl

theorem modify (f : σ → σ) : CutsAt ι R F (Exec.modify f) (Exec.modify f) s := .inl rfl

theorem lift (m : Exec ε σ α) : CutsAt ι R F (m.lift ι) m s := .inl rfl

theorem get_bind {f : σ → Exec ε' σ α} {f' : σ → Exec ε σ α} (h : CutsAt ι R F (f s) (f' s) s) :
    CutsAt ι R F (get >>= f) (get >>= f') s := h

theorem modify_bind {g : σ → σ} {f : Unit → Exec ε' σ α} {f' : Unit → Exec ε σ α}
    (h : CutsAt ι R F (f ()) (f' ()) (g s)) :
    CutsAt ι R F (Exec.modify g >>= f) (Exec.modify g >>= f') s := h

theorem mono (h : CutsAt ι R F m m' s) (hR : ∀ s s', R s s' → R' s s')
    (hF : ∀ e s', m.run s = .fail e s' → F e s' → R s' (Final m' s) → F' e s') :
    CutsAt ι R' F' m m' s := by
  rcases h with heq | ⟨e, s', hfail, hFe, hRe⟩
  · exact .inl heq
  · exact .inr ⟨e, s', hfail, hF e s' hfail hFe hRe, hR _ _ hRe⟩

theorem ite {c : Prop} [Decidable c] {m₁ m₂ : Exec ε' σ α} {m₁' m₂' : Exec ε σ α}
    (h₁ : c → CutsAt ι R F m₁ m₁' s) (h₂ : ¬c → CutsAt ι R F m₂ m₂' s) :
    CutsAt ι R F (if c then m₁ else m₂) (if c then m₁' else m₂') s := by
  split
  · exact h₁ ‹_›
  · exact h₂ ‹_›

/-- What holds of the runs of `m'` holds of those of `m`, unless `m` stops on the way. -/
theorem wp {Q : α → σ → Prop} {E : ε → σ → Prop} (h : CutsAt ι R F m m' s)
    (hm : Exec.wp m' Q E s) :
    Exec.wp m Q (fun e s' => (∃ e₀, e = ι e₀ ∧ E e₀ s') ∨ F e s') s := by
  unfold Exec.wp at hm
  rcases h with heq | ⟨e, s', hfail, hF, -⟩
  · cases hm' : m'.run s with
    | ok a s' =>
        rw [hm'] at heq hm
        exact wp_of_ok heq hm
    | fail e s' =>
        rw [hm'] at heq hm
        exact wp_of_fail heq (.inl ⟨e, rfl, hm⟩)
  · exact wp_of_fail hfail (.inr hF)

theorem bind [IsPreorder σ R] {f : α → Exec ε' σ β} {f' : α → Exec ε σ β}
    (hm : CutsAt ι R F m m' s) (hf : ∀ a s', m'.run s = .ok a s' → CutsAt ι R F (f a) (f' a) s')
    (hkeep : ∀ a, Preserves R (f' a)) : CutsAt ι R F (m >>= f) (m' >>= f') s := by
  have hfinal : ∀ a s', m'.run s = .ok a s' → Final (m' >>= f') s = Final (f' a) s' := by
    intro a s' hok
    unfold Final
    rw [run_bind_ok hok]
  rcases hm with heq | ⟨e, s₁, hfail, hF, hR⟩
  · cases hm' : m'.run s with
    | ok a s' =>
        rw [hm'] at heq
        have hnext := hf a s' hm'
        unfold CutsAt at hnext ⊢
        rwa [run_bind_ok heq, run_bind_ok hm', hfinal a s' hm']
    | fail e s' =>
        rw [hm'] at heq
        left
        rw [run_bind_fail heq, run_bind_fail hm']
        rfl
  · refine .inr ⟨e, s₁, run_bind_fail hfail, hF, ?_⟩
    cases hm' : m'.run s with
    | ok a s' =>
        rw [Final, hm'] at hR
        rw [hfinal a s' hm']
        exact trans_of R hR ((hkeep a).final s')
    | fail e' s' =>
        rw [Final, hm'] at hR
        rw [Final, run_bind_fail hm']
        exact hR

end CutsAt

/-! ## From every state -/

/-- `m` does what `m'` does, or stops on the way; `m'` would go on from there along `R`. -/
def Cuts (R : σ → σ → Prop) (m m' : Exec ε σ α) : Prop :=
  ∀ s, m.run s = m'.run s ∨ ∃ e s', m.run s = .fail e s' ∧ R s' (Final m' s)

theorem cuts_iff {m m' : Exec ε σ α} : Cuts R m m' ↔ ∀ s, CutsAt id R (fun _ _ => True) m m' s := by
  simp only [Cuts, CutsAt, Res.mapError_id, true_and]

theorem Cuts.refl (m : Exec ε σ α) : Cuts R m m := fun _ => .inl rfl

theorem Cuts.run {m m' : Exec ε σ α} (h : Cuts R m m') {s s' : σ} {a : α}
    (hm : m.run s = .ok a s') : m'.run s = .ok a s' := by
  rcases h s with heq | ⟨e, s₁, hfail, -⟩
  · rw [← heq, hm]
  · rw [hm] at hfail
    cases hfail

theorem Cuts.bind [IsPreorder σ R] {m m' : Exec ε σ α} {f f' : α → Exec ε σ β} (hm : Cuts R m m')
    (hf : ∀ a, Cuts R (f a) (f' a)) (hkeep : ∀ a, Preserves R (f' a)) :
    Cuts R (m >>= f) (m' >>= f') :=
  cuts_iff.2 fun s => (cuts_iff.1 hm s).bind (fun a s' _ => cuts_iff.1 (hf a) s') hkeep

theorem Cuts.ite {c : Prop} [Decidable c] {m₁ m₁' m₂ m₂' : Exec ε σ α} (h₁ : Cuts R m₁ m₁')
    (h₂ : Cuts R m₂ m₂') : Cuts R (if c then m₁ else m₂) (if c then m₁' else m₂') := by
  split
  · exact h₁
  · exact h₂

end Exec

end Xv6.Verified
