import Mathlib.Data.List.Basic
import Mathlib.Logic.Function.Basic
import Mathlib.Tactic.Ring

/-!
# Write traces and their crash points

A store whose single-cell writes are atomic and reach it in program order is
described, after any run, by its initial contents and the list of writes the
run issued.  A crash keeps a prefix of that list.  This module has the two
notions a crash argument needs, over arbitrary addresses and contents:
`applyWrites`, the store after a list of writes, and `AtEveryCrash`, a property
that holds whatever prefix survived.

Traces compose: `AtEveryCrash.append` splits a crash point over two consecutive
parts of a run, so each phase of a program is handled on its own.
-/

namespace Xv6.Verified.CrashTrace

variable {A V : Type} [DecidableEq A]

/-- The store after a list of single-cell writes, oldest first. -/
def applyWrites (d : A → V) (ws : List (A × V)) : A → V :=
  ws.foldl (fun d w => Function.update d w.1 w.2) d

@[simp] theorem applyWrites_nil (d : A → V) : applyWrites d [] = d := rfl

@[simp] theorem applyWrites_cons (d : A → V) (w : A × V) (ws : List (A × V)) :
    applyWrites d (w :: ws) = applyWrites (Function.update d w.1 w.2) ws := rfl

theorem applyWrites_append (d : A → V) (ws ws' : List (A × V)) :
    applyWrites d (ws ++ ws') = applyWrites (applyWrites d ws) ws' := by
  simp [applyWrites, List.foldl_append]

/-- A cell no write of the list names keeps its contents. -/
theorem applyWrites_of_notMem {d : A → V} {ws : List (A × V)} {x : A}
    (h : ∀ w ∈ ws, w.1 ≠ x) : applyWrites d ws x = d x := by
  induction ws generalizing d with
  | nil => rfl
  | cons w ws ih =>
      rw [applyWrites_cons, ih fun v hv => h v (by simp [hv])]
      exact Function.update_of_ne (h w (by simp)).symm _ _

/-- `P` holds of the store at every crash point of the writes `ws`, the
points before the first and after the last of them included. -/
def AtEveryCrash (P : (A → V) → Prop) (d : A → V) (ws : List (A × V)) : Prop :=
  ∀ j, P (applyWrites d (ws.take j))

variable {P Q : (A → V) → Prop} {d : A → V} {ws ws' : List (A × V)}

theorem AtEveryCrash.nil (h : P d) : AtEveryCrash P d [] := by
  intro j
  simpa using h

theorem AtEveryCrash.cons {w : A × V} (h : P d)
    (hrest : AtEveryCrash P (Function.update d w.1 w.2) ws) :
    AtEveryCrash P d (w :: ws) := by
  intro j
  cases j with
  | zero => simpa using h
  | succ j => simpa using hrest j

/-- A crash point of two consecutive traces lies in one of them. -/
theorem AtEveryCrash.append (h : AtEveryCrash P d ws)
    (h' : AtEveryCrash P (applyWrites d ws) ws') :
    AtEveryCrash P d (ws ++ ws') := by
  intro j
  rcases Nat.le_total j ws.length with hj | hj
  · rw [List.take_append_of_le_length hj]
    exact h j
  · rw [List.take_append, List.take_of_length_le hj, applyWrites_append]
    exact h' _

theorem AtEveryCrash.mono (h : AtEveryCrash P d ws) (hPQ : ∀ d, P d → Q d) :
    AtEveryCrash Q d ws :=
  fun j => hPQ _ (h j)

/-- The store with no crash at all is one of the crash points. -/
theorem AtEveryCrash.last (h : AtEveryCrash P d ws) : P (applyWrites d ws) := by
  simpa using h ws.length

/-- A property that every single write of the trace keeps holds at every crash
point. -/
theorem AtEveryCrash.of_step (h : P d)
    (hstep : ∀ w ∈ ws, ∀ d, P d → P (Function.update d w.1 w.2)) :
    AtEveryCrash P d ws := by
  induction ws generalizing d with
  | nil => exact .nil h
  | cons w ws ih =>
      refine .cons h (ih (hstep w (by simp) d h) ?_)
      exact fun v hv => hstep v (by simp [hv])

end Xv6.Verified.CrashTrace
