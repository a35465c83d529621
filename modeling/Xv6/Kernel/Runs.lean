import Xv6.Kernel.Sysfile

/-!
# Runs of complete calls

Calls made one after the other, by any processes, each to its end.  Such a run
is one of the interleavings of `RunOf`, the one in which nobody is interrupted.
-/

namespace Xv6.Kernel

open Xv6.Verified
open Exec

/-- Process `p` makes a call: only a live process can. -/
def makeCall (p : Nat) (c : Call) : K Int := do
  let k ← get
  if (k.ptable p).state = .live then c.prog.run (Act.exec p) else stop .blocked

/-- Calls, one after the other. -/
def runCalls : List (Nat × Call) → K Unit
  | [] => pure ()
  | (p, c) :: cs => do
      let _ ← makeCall p c
      runCalls cs

/-- Every act of these calls meets the condition `ok` when it is performed. -/
def CallsMeet (ok : Nat → State → Act → Prop) : List (Nat × Call) → State → Prop
  | [], _ => True
  | (p, c) :: cs, k =>
      c.prog.Meets (Act.exec p) (ok p) k ∧ match (makeCall p c).run k with
        | .ok _ k' => CallsMeet ok cs k'
        | .fail _ _ => True

instance CallsMeet.decidable (ok : Nat → State → Act → Prop) [∀ p k a, Decidable (ok p k a)] :
    ∀ (cs : List (Nat × Call)) (k : State), Decidable (CallsMeet ok cs k)
  | [], _ => inferInstanceAs (Decidable True)
  | (p, c) :: cs, k =>
      match h : (makeCall p c).run k with
      | .ok r k' =>
          have := CallsMeet.decidable ok cs k'
          decidable_of_iff (c.prog.Meets (Act.exec p) (ok p) k ∧ CallsMeet ok cs k')
            (by rw [CallsMeet, h])
      | .fail e k' =>
          decidable_of_iff (c.prog.Meets (Act.exec p) (ok p) k) (by rw [CallsMeet, h, and_true])

/-- The kernel with no process in a system call. -/
def atRest (k : State) : Config Nat Act Act.Res State := ⟨k, fun _ => none⟩

section Reach

variable {ok : Nat → State → Act → Prop} {k k' : State} {p : Nat} {c : Call}

theorem makeCall_ok {r : Int} (h : (makeCall p c).run k = .ok r k') :
    (k.ptable p).state = .live ∧ (c.prog.run (Act.exec p)).run k = .ok r k' := by
  unfold makeCall at h
  rw [run_get_bind, run_ite] at h
  split at h
  · exact ⟨by assumption, h⟩
  · cases h

theorem makeCall_fail {e : Stop} (he : e ≠ .blocked) (h : (makeCall p c).run k = .fail e k') :
    (k.ptable p).state = .live ∧ (c.prog.run (Act.exec p)).run k = .fail e k' := by
  unfold makeCall at h
  rw [run_get_bind, run_ite] at h
  split at h
  · exact ⟨by assumption, h⟩
  · cases h
    exact absurd rfl he

/-- A call that returns, as part of an interleaved run. -/
theorem makeCall_reach {cfg : Config Nat Act Act.Res State} {r : Int}
    (hrun : RunOf Act.exec Starts ok cfg (atRest k))
    (hok : c.prog.Meets (Act.exec p) (ok p) k) (h : (makeCall p c).run k = .ok r k') :
    RunOf Act.exec Starts ok cfg (atRest k') := by
  obtain ⟨hlive, hcall⟩ := makeCall_ok h
  apply RunOf.whole_call p (c.prog >>= fun _ => pure ()) hrun ⟨hlive, c, rfl⟩
  · exact (Prog.meets_bind_pure fun _ => ()).2 hok
  · rw [Prog.run_bind, run_bind_ok hcall]
    rfl

/-- Calls that return, as an interleaved run. -/
theorem runCalls_reach {cfg : Config Nat Act Act.Res State} (cs : List (Nat × Call)) :
    ∀ {k k' : State}, RunOf Act.exec Starts ok cfg (atRest k) → CallsMeet ok cs k →
      (runCalls cs).run k = .ok () k' → RunOf Act.exec Starts ok cfg (atRest k') := by
  induction cs with
  | nil =>
      intro k k' hrun _ h
      cases h
      exact hrun
  | cons pc cs ih =>
      obtain ⟨p, c⟩ := pc
      intro k k' hrun hok h
      obtain ⟨r, k₁, hcall, hrest⟩ := run_bind_eq_ok h
      rw [CallsMeet, hcall] at hok
      exact ih (makeCall_reach hrun hok.1 hcall) hok.2 hrest

/-- Calls that end in a halt, as an interleaved run up to the act that halts. -/
theorem runCalls_stop {cfg : Config Nat Act Act.Res State} {e : Stop} (he : e ≠ .blocked)
    (cs : List (Nat × Call)) :
    ∀ {k k' : State}, RunOf Act.exec Starts ok cfg (atRest k) → CallsMeet ok cs k →
      (runCalls cs).run k = .fail e k' →
      ∃ c p a rest, RunOf Act.exec Starts ok cfg c ∧ c.threads p = some (.act a rest) ∧
        ok p c.state a ∧ (Act.exec p a).run c.state = .fail e k' := by
  induction cs with
  | nil =>
      intro k k' _ _ h
      cases h
  | cons pc cs ih =>
      obtain ⟨p, c⟩ := pc
      intro k k' hrun hok h
      rw [runCalls, run_bind] at h
      cases hcall : (makeCall p c).run k with
      | ok r k₁ =>
          rw [hcall] at h
          rw [CallsMeet, hcall] at hok
          exact ih (makeCall_reach hrun hok.1 hcall) hok.2 h
      | fail e' k₁ =>
          rw [hcall] at h
          cases h
          obtain ⟨hlive, hfail⟩ := makeCall_fail he hcall
          have hq : ((c.prog >>= fun _ => pure ()).run (Act.exec p)).run k = .fail e k' := by
            rw [Prog.run_bind, run_bind_fail hfail]
          have hstart := RunOf.call hrun p (c.prog >>= fun _ => pure ()) rfl ⟨hlive, c, rfl⟩
          obtain ⟨c', a, rest, hreach, hnext, hact, hstop⟩ := RunOf.reach_stop hstart
            (Function.update_self _ _ _) ((Prog.meets_bind_pure fun _ => ()).2 hok.1) hq
          exact ⟨c', p, a, rest, hreach, hnext, hact, hstop⟩

end Reach

/-! ## Looking at the outcome -/

/-- The result of some calls, as far as `f` shows it. -/
def outcome {α : Type} (f : State → α) (cs : List (Nat × Call)) (k : State) :
    Option Stop × α :=
  match (runCalls cs).run k with
  | .ok _ k' => (none, f k')
  | .fail e k' => (some e, f k')

theorem outcome_fail {α : Type} {f : State → α} {cs : List (Nat × Call)} {k : State} {e : Stop}
    {v : α} (h : outcome f cs k = (some e, v)) :
    ∃ k', (runCalls cs).run k = .fail e k' ∧ f k' = v := by
  unfold outcome at h
  cases hrun : (runCalls cs).run k with
  | ok a k' =>
      rw [hrun] at h
      cases h
  | fail e' k' =>
      rw [hrun] at h
      cases h
      exact ⟨k', rfl, rfl⟩

theorem outcome_ok {α : Type} {f : State → α} {cs : List (Nat × Call)} {k : State}
    {v : α} (h : outcome f cs k = (none, v)) :
    ∃ k', (runCalls cs).run k = .ok () k' ∧ f k' = v := by
  unfold outcome at h
  cases hrun : (runCalls cs).run k with
  | ok a k' =>
      rw [hrun] at h
      cases h
      exact ⟨k', rfl, rfl⟩
  | fail e' k' =>
      rw [hrun] at h
      cases h

end Xv6.Kernel
