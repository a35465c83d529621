import Mathlib.Order.Defs.Unbundled
import Mathlib.Tactic.Ring

/-!
# State-passing computations that may stop

Kernel code either returns, halts the machine with a `panic`, or waits for a
condition that never comes.  `Exec ε σ α` is the shape all three share: a
function from a state to either a value and a new state, or a stop reason and
the state in which the machine stopped.

Reasoning goes through the weakest-precondition transformer `wp`, which keeps
the stopped case as an explicit second postcondition: a claim that some panic is
unreachable is a claim about that postcondition.

## Main results

* `wp_bind`, `wp_mono`, `wp_and`: how `wp` composes.
* `wp_loopTo`: the invariant rule for a counting loop.
* `Preserves`: a preorder of states that a computation only moves up in,
  however it ends; closed under sequencing and loops.
* `Keeps`: an invariant of states that a computation keeps, with the reasons it
  may stop for; closed under sequencing and loops.
* `ok_of_wp`, `fail_of_wp`: reading a computed outcome through `wp`.
-/

namespace Xv6.Verified

/-- Outcome of a computation: a value, or a stop reason, each with the state
it was reached in. -/
inductive Res (ε σ α : Type) where
  | ok (a : α) (s : σ)
  | fail (e : ε) (s : σ)

/-- A computation over states `σ` with stop reasons `ε`. -/
structure Exec (ε σ α : Type) where
  run : σ → Res ε σ α

namespace Exec

variable {ε σ α β : Type}

instance : Monad (Exec ε σ) where
  pure a := ⟨fun s => .ok a s⟩
  bind m f := ⟨fun s =>
    match m.run s with
    | .ok a s' => (f a).run s'
    | .fail e s' => .fail e s'⟩

/-- Stop with reason `e`. -/
def stop (e : ε) : Exec ε σ α := ⟨fun s => .fail e s⟩

/-- The current state. -/
def get : Exec ε σ σ := ⟨fun s => .ok s s⟩

/-- Replace the state by its image under `f`. -/
def modify (f : σ → σ) : Exec ε σ Unit := ⟨fun s => .ok () (f s)⟩

/-- `body 0; body 1; …; body (n - 1)`, the loop `for (i = 0; i < n; i++)`. -/
def loopTo (body : Nat → Exec ε σ Unit) : Nat → Exec ε σ Unit
  | 0 => pure ()
  | n + 1 => loopTo body n >>= fun _ => body n

/-! ## Evaluation equations -/

@[simp] theorem run_pure (a : α) (s : σ) : (pure a : Exec ε σ α).run s = .ok a s := rfl

@[simp] theorem run_stop (e : ε) (s : σ) : (stop e : Exec ε σ α).run s = .fail e s := rfl

@[simp] theorem run_get (s : σ) : (get : Exec ε σ σ).run s = .ok s s := rfl

@[simp] theorem run_modify (f : σ → σ) (s : σ) :
    (modify f : Exec ε σ Unit).run s = .ok () (f s) := rfl

theorem run_bind (m : Exec ε σ α) (f : α → Exec ε σ β) (s : σ) :
    (m >>= f).run s =
      match m.run s with
      | .ok a s' => (f a).run s'
      | .fail e s' => .fail e s' := rfl

@[simp] theorem run_get_bind (f : σ → Exec ε σ β) (s : σ) :
    (get >>= f).run s = (f s).run s := rfl

@[simp] theorem run_modify_bind (g : σ → σ) (f : Unit → Exec ε σ β) (s : σ) :
    (modify g >>= f).run s = (f ()).run (g s) := rfl

@[simp] theorem run_pure_bind (a : α) (f : α → Exec ε σ β) (s : σ) :
    ((pure a : Exec ε σ α) >>= f).run s = (f a).run s := rfl

@[simp] theorem run_stop_bind (e : ε) (f : α → Exec ε σ β) (s : σ) :
    ((stop e : Exec ε σ α) >>= f).run s = .fail e s := rfl

@[simp] theorem run_ite (c : Prop) [Decidable c] (m m' : Exec ε σ α) (s : σ) :
    (if c then m else m').run s = if c then m.run s else m'.run s := by
  split <;> rfl

theorem run_bind_ok {m : Exec ε σ α} {f : α → Exec ε σ β} {s s' : σ} {a : α}
    (h : m.run s = .ok a s') : (m >>= f).run s = (f a).run s' := by
  rw [run_bind, h]

theorem run_bind_fail {m : Exec ε σ α} {f : α → Exec ε σ β} {s s' : σ} {e : ε}
    (h : m.run s = .fail e s') : (m >>= f).run s = .fail e s' := by
  rw [run_bind, h]

theorem bind_assoc {γ : Type} (m : Exec ε σ α) (f : α → Exec ε σ β) (g : β → Exec ε σ γ) :
    m >>= f >>= g = m >>= fun a => f a >>= g := by
  refine congrArg Exec.mk (funext fun s => ?_)
  simp only [run_bind]
  cases m.run s <;> rfl

/-- Peel the first computation off a successful sequence. -/
theorem run_bind_eq_ok {m : Exec ε σ α} {f : α → Exec ε σ β} {s s'' : σ} {b : β}
    (h : (m >>= f).run s = .ok b s'') :
    ∃ a s', m.run s = .ok a s' ∧ (f a).run s' = .ok b s'' := by
  rw [run_bind] at h
  cases hm : m.run s with
  | ok a s' => exact ⟨a, s', rfl, by simpa [hm] using h⟩
  | fail e s' => simp [hm] at h

/-! ## Weakest preconditions -/

/-- `wp m Q E s`: run from `s`, `m` either returns with `Q` or stops with `E`. -/
def wp (m : Exec ε σ α) (Q : α → σ → Prop) (E : ε → σ → Prop) (s : σ) : Prop :=
  match m.run s with
  | .ok a s' => Q a s'
  | .fail e s' => E e s'

variable {Q Q' : α → σ → Prop} {E E' : ε → σ → Prop} {s : σ}

theorem wp_of_ok {m : Exec ε σ α} {a : α} {s' : σ} (h : m.run s = .ok a s')
    (hQ : Q a s') : wp m Q E s := by
  simpa [wp, h] using hQ

theorem wp_of_fail {m : Exec ε σ α} {e : ε} {s' : σ} (h : m.run s = .fail e s')
    (hE : E e s') : wp m Q E s := by
  simpa [wp, h] using hE

theorem ok_of_wp {m : Exec ε σ α} (h : wp m Q E s) {a : α} {s' : σ}
    (hm : m.run s = .ok a s') : Q a s' := by
  simpa [wp, hm] using h

theorem fail_of_wp {m : Exec ε σ α} (h : wp m Q E s) {e : ε} {s' : σ}
    (hm : m.run s = .fail e s') : E e s' := by
  simpa [wp, hm] using h

/-- Code that does not stop returns. -/
theorem returns_of_wp {m : Exec ε σ α} (h : wp m Q (fun _ _ => False) s) :
    ∃ a s', m.run s = .ok a s' ∧ Q a s' := by
  unfold wp at h
  cases hm : m.run s with
  | ok a s' =>
      rw [hm] at h
      exact ⟨a, s', rfl, h⟩
  | fail e s' =>
      rw [hm] at h
      exact h.elim

@[simp] theorem wp_pure (a : α) : wp (pure a : Exec ε σ α) Q E s ↔ Q a s := Iff.rfl

@[simp] theorem wp_stop (e : ε) : wp (stop e : Exec ε σ α) Q E s ↔ E e s := Iff.rfl

@[simp] theorem wp_get {Q : σ → σ → Prop} :
    wp (get : Exec ε σ σ) Q E s ↔ Q s s := Iff.rfl

@[simp] theorem wp_modify (f : σ → σ) {Q : Unit → σ → Prop} :
    wp (modify f : Exec ε σ Unit) Q E s ↔ Q () (f s) := Iff.rfl

@[simp] theorem wp_bind (m : Exec ε σ α) (f : α → Exec ε σ β) {Q : β → σ → Prop} :
    wp (m >>= f) Q E s ↔ wp m (fun a s' => wp (f a) Q E s') E s := by
  unfold wp
  rw [run_bind]
  cases m.run s <;> rfl

@[simp] theorem wp_ite (c : Prop) [Decidable c] (m m' : Exec ε σ α) :
    wp (if c then m else m') Q E s ↔ (c → wp m Q E s) ∧ (¬c → wp m' Q E s) := by
  by_cases h : c <;> simp [h]

theorem wp_mono {m : Exec ε σ α} (h : wp m Q E s)
    (hQ : ∀ a s', Q a s' → Q' a s') (hE : ∀ e s', E e s' → E' e s') :
    wp m Q' E' s := by
  unfold wp at h ⊢
  cases hm : m.run s with
  | ok a s' => exact hQ a s' (by simpa [hm] using h)
  | fail e s' => exact hE e s' (by simpa [hm] using h)

/-- Strengthen only the returning case. -/
theorem wp_imp {m : Exec ε σ α} (h : wp m Q E s)
    (hQ : ∀ a s', Q a s' → Q' a s') : wp m Q' E s :=
  wp_mono h hQ fun _ _ he => he

theorem wp_and {m : Exec ε σ α} (h : wp m Q E s) (h' : wp m Q' E' s) :
    wp m (fun a s' => Q a s' ∧ Q' a s') (fun e s' => E e s' ∧ E' e s') s := by
  unfold wp at h h' ⊢
  cases hm : m.run s with
  | ok a s' => exact ⟨by simpa [hm] using h, by simpa [hm] using h'⟩
  | fail e s' => exact ⟨by simpa [hm] using h, by simpa [hm] using h'⟩

/-- Invariant rule: an invariant indexed by the iterations done so far. -/
theorem wp_loopTo {f : Nat → Exec ε σ Unit} {I : Nat → σ → Prop} (n : Nat)
    (h0 : I 0 s)
    (hstep : ∀ i s', i < n → I i s' → wp (f i) (fun _ => I (i + 1)) E s') :
    wp (loopTo f n) (fun _ => I n) E s := by
  induction n with
  | zero => simpa [loopTo] using h0
  | succ n ih =>
      rw [loopTo, wp_bind]
      refine wp_imp (ih fun i s' hi => hstep i s' (by omega)) ?_
      intro _ s' hI
      exact hstep n s' (by omega) hI

/-! ## Moving up in a preorder of states -/

/-- Whether it returns or stops, `m` relates its first state to its last by
`R`. -/
structure Preserves (R : σ → σ → Prop) (m : Exec ε σ α) : Prop where
  wp : ∀ s, wp m (fun _ s' => R s s') (fun _ s' => R s s') s

theorem Preserves.imp {R R' : σ → σ → Prop} {m : Exec ε σ α} (h : Preserves R m)
    (himp : ∀ s s', R s s' → R' s s') : Preserves R' m := by
  constructor
  intro s
  exact wp_mono (h.wp s) (fun _ s' => himp s s') fun _ s' => himp s s'

section Preserves

variable {R : σ → σ → Prop} [IsPreorder σ R]

theorem Preserves.pure (a : α) : Preserves R (pure a : Exec ε σ α) :=
  ⟨fun s => refl_of R s⟩

theorem Preserves.stop (e : ε) : Preserves R (stop e : Exec ε σ α) :=
  ⟨fun s => refl_of R s⟩

theorem Preserves.get : Preserves R (get : Exec ε σ σ) :=
  ⟨fun s => refl_of R s⟩

omit [IsPreorder σ R] in
theorem Preserves.modify {f : σ → σ} (h : ∀ s, R s (f s)) :
    Preserves R (modify f : Exec ε σ Unit) := ⟨h⟩

theorem Preserves.bind {m : Exec ε σ α} {f : α → Exec ε σ β} (hm : Preserves R m)
    (hf : ∀ a, Preserves R (f a)) : Preserves R (m >>= f) := by
  refine ⟨fun s => ?_⟩
  rw [wp_bind]
  refine wp_mono (hm.wp s) ?_ fun _ _ h => h
  intro a s' h
  exact wp_mono ((hf a).wp s') (fun _ _ h' => trans_of R h h') fun _ _ h' => trans_of R h h'

omit [IsPreorder σ R] in
theorem Preserves.ite {c : Prop} [Decidable c] {m m' : Exec ε σ α} (h : Preserves R m)
    (h' : Preserves R m') : Preserves R (if c then m else m') := by
  split
  · exact h
  · exact h'

theorem Preserves.loopTo {body : Nat → Exec ε σ Unit} (h : ∀ i, Preserves R (body i))
    (n : Nat) : Preserves R (loopTo body n) := by
  induction n with
  | zero => exact .pure ()
  | succ n ih => exact .bind ih fun _ => h n

end Preserves

/-! ## Keeping an invariant -/

/-- From a state with `I`, `m` returns in a state with `I` or stops with `E`. -/
structure Keeps (I : σ → Prop) (E : ε → σ → Prop) (m : Exec ε σ α) : Prop where
  wp : ∀ s, I s → wp m (fun _ s' => I s') E s

section Keeps

variable {I : σ → Prop} {E : ε → σ → Prop}

theorem Keeps.pure (a : α) : Keeps I E (pure a : Exec ε σ α) := ⟨fun _ h => h⟩

theorem Keeps.stop {e : ε} (h : ∀ s, I s → E e s) : Keeps I E (stop e : Exec ε σ α) := ⟨h⟩

theorem Keeps.get : Keeps I E (get : Exec ε σ σ) := ⟨fun _ h => h⟩

theorem Keeps.modify {f : σ → σ} (h : ∀ s, I s → I (f s)) :
    Keeps I E (modify f : Exec ε σ Unit) := ⟨h⟩

theorem Keeps.bind {m : Exec ε σ α} {f : α → Exec ε σ β} (hm : Keeps I E m)
    (hf : ∀ a, Keeps I E (f a)) : Keeps I E (m >>= f) := by
  constructor
  intro s hs
  rw [wp_bind]
  apply wp_imp (hm.wp s hs)
  intro a s' hs'
  exact (hf a).wp s' hs'

/-- The state that `get` answers with satisfies the invariant. -/
theorem Keeps.get_bind {f : σ → Exec ε σ β} (hf : ∀ s, I s → Exec.wp (f s) (fun _ s' => I s') E s) :
    Keeps I E (Exec.get >>= f) := by
  constructor
  intro s hs
  rw [wp_bind, wp_get]
  exact hf s hs

theorem Keeps.ite {c : Prop} [Decidable c] {m m' : Exec ε σ α} (h : Keeps I E m)
    (h' : Keeps I E m') : Keeps I E (if c then m else m') := by
  split
  · exact h
  · exact h'

theorem Keeps.loopTo {body : Nat → Exec ε σ Unit} (h : ∀ i, Keeps I E (body i))
    (n : Nat) : Keeps I E (loopTo body n) := by
  induction n with
  | zero => exact .pure ()
  | succ n ih => exact .bind ih fun _ => h n

end Keeps

attribute [irreducible] wp

end Exec

end Xv6.Verified
