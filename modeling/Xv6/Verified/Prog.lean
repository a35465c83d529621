import Mathlib.Logic.Function.Basic
import Xv6.Verified.Exec

/-!
# Programs as trees of atomic acts

`Prog A R α` is a program that performs acts `a : A`, each answered by a value
of type `R a`, and ends with a value of type `α`.  Two ways of running it matter
here: alone (`Prog.run`), one act after the other, and as one of several threads
of an interleaved machine (`Step`).

* `Prog.wp` is the weakest precondition of a lone run all of whose acts meet a
  condition `ok`; `wp_run` connects it with `run`.
* `Typed` is a type-state discipline: a thread carries a type-state that each
  act may require something of and changes.  `RunOf.disciplined` turns a lemma
  about one act into an invariant of every interleaved run.
-/

namespace Xv6.Verified

/-- A type-state discipline: what an act requires, which answers it can get, and
what the type-state is after it. -/
structure Discipline (A : Type) (R : A → Type) (T : Type) where
  pre : T → A → Prop
  fits : T → (a : A) → R a → Prop
  next : T → (a : A) → R a → T

/-- A program over acts `A` with answers `R`. -/
inductive Prog (A : Type) (R : A → Type) (α : Type) where
  | ret (a : α)
  | act (a : A) (k : R a → Prog A R α)

namespace Prog

variable {A : Type} {R : A → Type} {α β : Type}

/-- Sequencing. -/
def bind (p : Prog A R α) (f : α → Prog A R β) : Prog A R β :=
  match p with
  | .ret a => f a
  | .act a k => .act a fun r => (k r).bind f

instance : Monad (Prog A R) where
  pure := .ret
  bind := bind

/-- The program that performs one act. -/
def perform (a : A) : Prog A R (R a) := .act a .ret

/-- `body` for each element of the list in turn. -/
def forEach {γ : Type} (body : γ → Prog A R Unit) : List γ → Prog A R Unit
  | [] => pure ()
  | x :: xs => body x >>= fun _ => forEach body xs

@[simp] theorem ret_bind (a : α) (f : α → Prog A R β) : (.ret a : Prog A R α) >>= f = f a :=
  rfl

@[simp] theorem pure_bind (a : α) (f : α → Prog A R β) :
    (pure a : Prog A R α) >>= f = f a := rfl

@[simp] theorem act_bind (a : A) (k : R a → Prog A R α) (f : α → Prog A R β) :
    (.act a k : Prog A R α) >>= f = .act a fun r => k r >>= f := rfl

/-! ## Running a program alone -/

variable {ε σ : Type} (exec : (a : A) → Exec ε σ (R a))

/-- Run the program with no other thread in between. -/
def run : Prog A R α → Exec ε σ α
  | .ret a => pure a
  | .act a k => exec a >>= fun r => (k r).run

/-- Run the first `n` acts of the program; what is left of it is the result. -/
def runFor : Nat → Prog A R α → Exec ε σ (Prog A R α)
  | 0, q => pure q
  | _ + 1, .ret a => pure (.ret a)
  | n + 1, .act a k => exec a >>= fun r => (k r).runFor n

/-- Every act the run performs meets the condition `ok` in the state it is
performed in. -/
def Meets (ok : σ → A → Prop) : Prog A R α → σ → Prop
  | .ret _, _ => True
  | .act a k, s =>
      ok s a ∧ match (exec a).run s with
        | .ok r s' => (k r).Meets ok s'
        | .fail _ _ => True

instance Meets.decidable (ok : σ → A → Prop) [∀ s a, Decidable (ok s a)] :
    ∀ (p : Prog A R α) (s : σ), Decidable (p.Meets exec ok s)
  | .ret _, _ => inferInstanceAs (Decidable True)
  | .act a k, s =>
      match h : (exec a).run s with
      | .ok r s' =>
          have := Meets.decidable ok (k r) s'
          decidable_of_iff (ok s a ∧ (k r).Meets exec ok s') (by rw [Meets, h])
      | .fail e s' => decidable_of_iff (ok s a) (by rw [Meets, h, and_true])

/-- Weakest precondition of a run whose acts all meet `ok`. -/
def wp (ok : σ → A → Prop) (Q : α → σ → Prop) (E : ε → σ → Prop) : Prog A R α → σ → Prop
  | .ret a, s => Q a s
  | .act a k, s => ok s a → Exec.wp (exec a) (fun r s' => (k r).wp ok Q E s') E s

variable {exec} {ok : σ → A → Prop} {Q Q' : α → σ → Prop} {E E' : ε → σ → Prop} {s : σ}

@[simp] theorem wp_ret (a : α) : (.ret a : Prog A R α).wp exec ok Q E s ↔ Q a s := Iff.rfl

@[simp] theorem wp_pure (a : α) : (pure a : Prog A R α).wp exec ok Q E s ↔ Q a s := Iff.rfl

theorem wp_act (a : A) (k : R a → Prog A R α) :
    (.act a k : Prog A R α).wp exec ok Q E s ↔
      (ok s a → Exec.wp (exec a) (fun r s' => (k r).wp exec ok Q E s') E s) := Iff.rfl

theorem wp_bind (p : Prog A R α) (f : α → Prog A R β) {Q : β → σ → Prop} :
    (p >>= f).wp exec ok Q E s ↔
      p.wp exec ok (fun a s' => (f a).wp exec ok Q E s') E s := by
  induction p generalizing s with
  | ret a => rfl
  | act a k ih =>
      rw [act_bind, wp_act, wp_act]
      simp only [ih]

theorem wp_mono {p : Prog A R α} (h : p.wp exec ok Q E s)
    (hQ : ∀ a s', Q a s' → Q' a s') (hE : ∀ e s', E e s' → E' e s') :
    p.wp exec ok Q' E' s := by
  induction p generalizing s with
  | ret a => exact hQ a s h
  | act a k ih =>
      intro hok
      exact Exec.wp_mono (h hok) (fun r s' hr => ih r hr) hE

theorem wp_imp {p : Prog A R α} (h : p.wp exec ok Q E s)
    (hQ : ∀ a s', Q a s' → Q' a s') : p.wp exec ok Q' E s :=
  wp_mono h hQ fun _ _ he => he

theorem wp_and {p : Prog A R α} (h : p.wp exec ok Q E s) (h' : p.wp exec ok Q' E' s) :
    p.wp exec ok (fun a s' => Q a s' ∧ Q' a s') (fun e s' => E e s' ∧ E' e s') s := by
  induction p generalizing s with
  | ret a => exact ⟨h, h'⟩
  | act a k ih =>
      intro hok
      exact Exec.wp_mono (Exec.wp_and (h hok) (h' hok)) (fun r s' hr => ih r hr.1 hr.2)
        fun _ _ he => he

/-- What `wp` says about a run whose acts meet the condition. -/
theorem wp_run {p : Prog A R α} (h : p.wp exec ok Q E s) (hok : p.Meets exec ok s) :
    Exec.wp (p.run exec) Q E s := by
  induction p generalizing s with
  | ret a => exact (Exec.wp_pure a).2 h
  | act a k ih =>
      rw [run, Exec.wp_bind]
      rw [Meets] at hok
      obtain ⟨hacts, hrest⟩ := hok
      have hwp := h hacts
      cases hrun : (exec a).run s with
      | ok r s' =>
          rw [hrun] at hrest
          exact Exec.wp_of_ok hrun (ih r (Exec.ok_of_wp hwp hrun) hrest)
      | fail e s' => exact Exec.wp_of_fail hrun (Exec.fail_of_wp hwp hrun)

/-- A run that needs no condition. -/
theorem wp_run_of_true {p : Prog A R α} (h : p.wp exec (fun _ _ => True) Q E s) :
    Exec.wp (p.run exec) Q E s := by
  refine wp_run h ?_
  clear h
  induction p generalizing s with
  | ret a => trivial
  | act a k ih =>
      rw [Meets]
      refine ⟨trivial, ?_⟩
      cases (exec a).run s with
      | ok r s' => exact ih r
      | fail e s' => trivial

theorem run_bind (p : Prog A R α) (f : α → Prog A R β) :
    (p >>= f).run exec = p.run exec >>= fun a => (f a).run exec := by
  induction p with
  | ret a => rfl
  | act a k ih =>
      rw [act_bind, run, run]
      simp only [ih]
      exact (Exec.bind_assoc _ _ _).symm

/-- Dropping a program's value changes nothing about its acts. -/
theorem meets_bind_pure {p : Prog A R α} (f : α → β) :
    (p >>= fun a => pure (f a)).Meets exec ok s ↔ p.Meets exec ok s := by
  induction p generalizing s with
  | ret a => rfl
  | act a k ih =>
      rw [act_bind, Meets, Meets]
      cases (exec a).run s with
      | ok r s' => simp only [ih]
      | fail e s' => rfl

/-! ## Type-states -/

variable {T : Type} (D : Discipline A R T)

/-- From type-state `t`, every act of the program is allowed when it comes, and
the program ends with `Q`. -/
def Typed (Q : α → T → Prop) : Prog A R α → T → Prop
  | .ret a, t => Q a t
  | .act a k, t => D.pre t a ∧ ∀ r, D.fits t a r → (k r).Typed Q (D.next t a r)

variable {D} {P P' : α → T → Prop} {t : T}

theorem typed_bind {p : Prog A R α} {f : α → Prog A R β} {Q : β → T → Prop}
    (h : p.Typed D (fun a t' => (f a).Typed D Q t') t) :
    (p >>= f).Typed D Q t := by
  induction p generalizing t with
  | ret a => exact h
  | act a k ih => exact ⟨h.1, fun r hr => ih r (h.2 r hr)⟩

theorem typed_mono {p : Prog A R α} (h : p.Typed D P t)
    (hP : ∀ a t', P a t' → P' a t') : p.Typed D P' t := by
  induction p generalizing t with
  | ret a => exact hP a t h
  | act a k ih => exact ⟨h.1, fun r hr => ih r (h.2 r hr)⟩

/-- Sequencing, by a lemma about the first part. -/
theorem typed_then {p : Prog A R α} {f : α → Prog A R β} {Q : β → T → Prop}
    (h : p.Typed D P t) (hf : ∀ a t', P a t' → (f a).Typed D Q t') :
    (p >>= f).Typed D Q t :=
  typed_bind (typed_mono h hf)

/-- An act, and then the rest. -/
theorem typed_act {a : A} {f : R a → Prog A R β} {Q : β → T → Prop} (h : D.pre t a)
    (hf : ∀ r, D.fits t a r → (f r).Typed D Q (D.next t a r)) :
    (perform a >>= f).Typed D Q t :=
  ⟨h, hf⟩

theorem typed_forEach {γ : Type} {body : γ → Prog A R Unit} {I : T → Prop} (xs : List γ)
    (h0 : I t) (hstep : ∀ x t', x ∈ xs → I t' → (body x).Typed D (fun _ => I) t') :
    (forEach body xs).Typed D (fun _ => I) t := by
  induction xs generalizing t with
  | nil => exact h0
  | cons x xs ih =>
      exact typed_then (hstep x t (by simp) h0)
        fun _ t' hI => ih hI fun y t'' hy => hstep y t'' (by simp [hy])

/-! ## Two ways of executing the acts -/

end Prog

/-! ## Several threads -/

section Machine

variable {ι A : Type} {R : A → Type} {ε σ T : Type} [DecidableEq ι]

/-- A machine's state and, for each thread, what is left of the call it is in. -/
structure Config (ι A : Type) (R : A → Type) (σ : Type) where
  state : σ
  threads : ι → Option (Prog A R Unit)

variable (exec : ι → (a : A) → Exec ε σ (R a)) (starts : σ → ι → Prog A R Unit → Prop)

/-- A run of the machine: a thread that is in no call starts one, performs its
next act, or returns, and every act performed met the condition `ok`. -/
inductive RunOf (ok : ι → σ → A → Prop) : Config ι A R σ → Config ι A R σ → Prop
  | refl (c : Config ι A R σ) : RunOf ok c c
  | call {c c' : Config ι A R σ} (h : RunOf ok c c') (p : ι) (q : Prog A R Unit)
      (hidle : c'.threads p = none) (hstart : starts c'.state p q) :
      RunOf ok c { c' with threads := Function.update c'.threads p (some q) }
  | act {c c' : Config ι A R σ} (h : RunOf ok c c') (p : ι) {a : A}
      {k : R a → Prog A R Unit} {r : R a} {s' : σ}
      (hnext : c'.threads p = some (.act a k)) (hok : ok p c'.state a)
      (hrun : (exec p a).run c'.state = .ok r s') :
      RunOf ok c ⟨s', Function.update c'.threads p (some (k r))⟩
  | done {c c' : Config ι A R σ} (h : RunOf ok c c') (p : ι)
      (hret : c'.threads p = some (.ret ())) :
      RunOf ok c { c' with threads := Function.update c'.threads p none }

variable {exec starts} in
/-- A thread that is left alone runs to the end of its call. -/
theorem RunOf.run_thread {ok : ι → σ → A → Prop} {c : Config ι A R σ} {p : ι}
    {q : Prog A R Unit} : ∀ {s s' : σ} {th : ι → Option (Prog A R Unit)},
    RunOf exec starts ok c ⟨s, th⟩ → th p = some q → q.Meets (exec p) (ok p) s →
    (q.run (exec p)).run s = .ok () s' →
    RunOf exec starts ok c ⟨s', Function.update th p (some (.ret ()))⟩ := by
  induction q with
  | ret a =>
      intro s s' th h hq _ hrun
      cases hrun
      rw [← hq, Function.update_eq_self]
      exact h
  | act a k ih =>
      intro s s' th h hq hok hrun
      obtain ⟨r, s₁, hact, hrest⟩ := Exec.run_bind_eq_ok hrun
      rw [Prog.Meets, hact] at hok
      have hstep := RunOf.act h p hq hok.1 hact
      have hend := ih r hstep (Function.update_self _ _ _) hok.2 hrest
      rwa [Function.update_idem] at hend

variable {exec starts} in
/-- A whole call, with every thread idle before and after. -/
theorem RunOf.whole_call {ok : ι → σ → A → Prop} {c : Config ι A R σ} {s s' : σ} (p : ι)
    (q : Prog A R Unit) (h : RunOf exec starts ok c ⟨s, fun _ => none⟩) (hstart : starts s p q)
    (hok : q.Meets (exec p) (ok p) s) (hrun : (q.run (exec p)).run s = .ok () s') :
    RunOf exec starts ok c ⟨s', fun _ => none⟩ := by
  have hcall := RunOf.call h p q rfl hstart
  have hend := RunOf.run_thread hcall (Function.update_self _ _ _) hok hrun
  have hdone := RunOf.done hend p (Function.update_self _ _ _)
  have hidle : Function.update (fun _ => none : ι → Option (Prog A R Unit)) p none =
      fun _ => none := Function.update_eq_self p _
  rw [Function.update_idem, Function.update_idem, hidle] at hdone
  exact hdone

variable {exec starts} in
/-- A thread that is left alone for `n` acts. -/
theorem RunOf.runFor {c : Config ι A R σ} {p : ι} (n : Nat) : ∀ {q q' : Prog A R Unit} {s s' : σ}
    {th : ι → Option (Prog A R Unit)}, RunOf exec starts (fun _ _ _ => True) c ⟨s, th⟩ →
    th p = some q → (q.runFor (exec p) n).run s = .ok q' s' →
    RunOf exec starts (fun _ _ _ => True) c ⟨s', Function.update th p (some q')⟩ := by
  induction n with
  | zero =>
      intro q q' s s' th h hq hrun
      cases hrun
      rwa [← hq, Function.update_eq_self]
  | succ n ih =>
      intro q q' s s' th h hq hrun
      cases q with
      | ret a =>
          cases hrun
          rwa [← hq, Function.update_eq_self]
      | act a k =>
          obtain ⟨r, s₁, hact, hrest⟩ := Exec.run_bind_eq_ok hrun
          have hnext := ih (h.act p hq trivial hact) (Function.update_self _ _ _) hrest
          rwa [Function.update_idem] at hnext

variable {exec starts} in
/-- A thread that is left alone and whose run stops gets to the act that stops. -/
theorem RunOf.reach_stop {ok : ι → σ → A → Prop} {c : Config ι A R σ} {p : ι}
    {q : Prog A R Unit} {e : ε} : ∀ {s s' : σ} {th : ι → Option (Prog A R Unit)},
    RunOf exec starts ok c ⟨s, th⟩ → th p = some q → q.Meets (exec p) (ok p) s →
    (q.run (exec p)).run s = .fail e s' →
    ∃ c' a k, RunOf exec starts ok c c' ∧ c'.threads p = some (.act a k) ∧
      ok p c'.state a ∧ (exec p a).run c'.state = .fail e s' := by
  induction q with
  | ret a =>
      intro s s' th _ _ _ hrun
      cases hrun
  | act a k ih =>
      intro s s' th h hq hok hrun
      rw [Prog.Meets] at hok
      rw [Prog.run, Exec.run_bind] at hrun
      cases hact : (exec p a).run s with
      | ok r s₁ =>
          rw [hact] at hok hrun
          have hstep := RunOf.act h p hq hok.1 hact
          exact ih r hstep (Function.update_self _ _ _) hok.2 hrun
      | fail e' s₁ =>
          rw [hact] at hrun
          cases hrun
          exact ⟨⟨s, th⟩, a, k, h, hq, hok.1, hact⟩

/-- Every thread follows the type-state discipline, and the type-states together
satisfy `J`. -/
def Disciplined (D : Discipline A R T) (idle : T → Prop)
    (J : (ι → T) → σ → Prop) (c : Config ι A R σ) : Prop :=
  ∃ ts : ι → T, J ts c.state ∧ ∀ p,
    match c.threads p with
    | none => idle (ts p)
    | some q => q.Typed D (fun _ => idle) (ts p)

variable {exec starts} {ok : ι → σ → A → Prop} {D : Discipline A R T} {idle : T → Prop}
  {J : (ι → T) → σ → Prop}

/-- What holds of one act of one thread holds along every run. -/
theorem RunOf.disciplined
    (hcall : ∀ s p q t, starts s p q → idle t → q.Typed D (fun _ => idle) t)
    (hact : ∀ ts s p a r s', J ts s → D.pre (ts p) a → ok p s a →
      (exec p a).run s = .ok r s' →
      D.fits (ts p) a r ∧ J (Function.update ts p (D.next (ts p) a r)) s')
    {c c' : Config ι A R σ} (hr : RunOf exec starts ok c c')
    (h0 : Disciplined D idle J c) : Disciplined D idle J c' := by
  induction hr with
  | refl => exact h0
  | call _ p q hidle hstart ih =>
      obtain ⟨ts, hJ, hts⟩ := ih
      refine ⟨ts, hJ, fun p' => ?_⟩
      by_cases hp : p' = p
      · subst hp
        have hidle_ts := hts p'
        rw [hidle] at hidle_ts
        simp only [Function.update_self]
        exact hcall _ _ _ _ hstart hidle_ts
      · simp only [Function.update_of_ne hp]
        exact hts p'
  | act _ p hnext hok hrun ih =>
      obtain ⟨ts, hJ, hts⟩ := ih
      have htyped := hts p
      rw [hnext] at htyped
      obtain ⟨hfits, hJ'⟩ := hact ts _ p _ _ _ hJ htyped.1 hok hrun
      refine ⟨_, hJ', fun p' => ?_⟩
      by_cases hp : p' = p
      · subst hp
        simp only [Function.update_self]
        exact htyped.2 _ hfits
      · simp only [Function.update_of_ne hp]
        exact hts p'
  | done _ p hret ih =>
      obtain ⟨ts, hJ, hts⟩ := ih
      have htyped := hts p
      rw [hret] at htyped
      refine ⟨ts, hJ, fun p' => ?_⟩
      by_cases hp : p' = p
      · subst hp
        simp only [Function.update_self]
        exact htyped
      · simp only [Function.update_of_ne hp]
        exact hts p'

end Machine

end Xv6.Verified
