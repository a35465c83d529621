import Mathlib.Tactic.SplitIfs
import Xv6.Kernel.Ptable

/-!
# The priority scheduler

`scheduler` of `kernel/proc.c`, on one CPU.  The priorities are any numbers, as `chpr` sets
them.  The scheduler walks over the process
table; at every `RUNNABLE` process it looks through the whole table for one with a smaller
priority number, and dispatches that one instead.  The process it has dispatched is also where
the walk goes on from: the inner scan overwrites the position of the outer one.

So a `RUNNABLE` process of a larger number sends the walk back to the first process of the
smallest number, and those of the smallest number that lie behind it are never reached.

## Main results

* `pick_minimal`: what is dispatched is `RUNNABLE` and has the smallest number.
* `Run.dispatched`: with nothing of a larger number in between, every process of the smallest
  number is dispatched once in `NPROC + 1` dispatches, also when processes come and go.
* `scheduler_fair_iff`: it is so for a table exactly if there is nothing in between.
* `scheduler_starves`: three processes, of which the third never runs.
-/

namespace Xv6.Kernel.Sched

open Xv6.Kernel.Ptable

/-- `struct proc`, as far as the scheduler uses it. -/
structure Proc where
  state : Ptable.ProcState
  priority : Int

/-- `ptable.proc`. -/
abbrev Table := Nat → Proc

variable {t : Table} {p q h n : Nat}

/-- A process that can be dispatched. -/
def Runnable (t : Table) (p : Nat) : Prop := p < NPROC ∧ (t p).state = .runnable

instance (t : Table) (p : Nat) : Decidable (Runnable t p) := inferInstanceAs (Decidable (_ ∧ _))

/-! ## The loops -/

/-- The inner loop over the first `n` slots, from `highP = p`. -/
def highest (t : Table) (p : Nat) : Nat → Nat
  | 0 => p
  | n + 1 =>
      let highP := highest t p n
      if (t n).state = .runnable ∧ (t highP).priority > (t n).priority then n else highP

/-- The outer loop from slot `p` on, over `fuel` slots, up to the next dispatch. -/
def scan (t : Table) : Nat → Nat → Option Nat
  | 0, _ => none
  | fuel + 1, p =>
      if (t p).state = .runnable then some (highest t p NPROC) else scan t fuel (p + 1)

/-- The next dispatch in this pass over the table, if there is one. -/
def pick (t : Table) (p : Nat) : Option Nat := scan t (NPROC - p) p

/-- `p->state = RUNNING`. -/
def dispatch (t : Table) (p : Nat) : Table := Function.update t p { t p with state := .running }

/-- The process that runs gives up the CPU, as in `yield`. -/
def yield (t : Table) (p : Nat) : Table := Function.update t p { t p with state := .runnable }

/-- The next dispatch from position `p`: in this pass, or in the next one. -/
inductive Dispatches (t : Table) (p : Nat) : Nat → Prop
  | pass {h : Nat} (hpick : pick t p = some h) : Dispatches t p h
  | wrap {h : Nat} (hend : pick t p = none) (hpick : pick t 0 = some h) : Dispatches t p h

/-! ## What is dispatched -/

/-- `RUNNABLE`, with the smallest priority number of those that are. -/
def Minimal (t : Table) (p : Nat) : Prop :=
  Runnable t p ∧ ∀ q, Runnable t q → (t p).priority ≤ (t q).priority

/-- After the slots below `n`, the inner loop has found the smallest number; it has left `p`
only for the first slot that has it. -/
theorem highest_spec (hp : Runnable t p) : ∀ n, n ≤ NPROC →
    Runnable t (highest t p n) ∧
      (∀ q, q < n → Runnable t q → (t (highest t p n)).priority ≤ (t q).priority) ∧
      (highest t p n = p ∨ (t (highest t p n)).priority < (t p).priority ∧
        ∀ q, q < highest t p n → Runnable t q →
          (t (highest t p n)).priority < (t q).priority) := by
  intro n hn
  induction n with
  | zero => exact ⟨hp, fun q hq => absurd hq (Nat.not_lt_zero q), .inl rfl⟩
  | succ n ih =>
      obtain ⟨hrun, hmin, hleft⟩ := ih (by omega)
      rw [highest]
      split_ifs with htake
      · obtain ⟨hstate, hless⟩ := htake
        refine ⟨⟨by omega, hstate⟩, fun q hq hqrun => ?_, .inr ⟨?_, fun q hq hqrun => ?_⟩⟩
        · rcases Nat.lt_succ_iff_lt_or_eq.1 hq with hlt | rfl
          · have := hmin q hlt hqrun
            omega
          · exact Int.le_refl _
        · rcases hleft with heq | ⟨hlt, -⟩
          · rw [heq] at hless
            exact hless
          · omega
        · have := hmin q hq hqrun
          omega
      · refine ⟨hrun, fun q hq hqrun => ?_, hleft⟩
        rcases Nat.lt_succ_iff_lt_or_eq.1 hq with hlt | rfl
        · exact hmin q hlt hqrun
        · by_contra hnot
          exact htake ⟨hqrun.2, by omega⟩

theorem highest_minimal (hp : Runnable t p) : Minimal t (highest t p NPROC) := by
  obtain ⟨hrun, hmin, -⟩ := highest_spec hp NPROC (Nat.le_refl _)
  exact ⟨hrun, fun q hq => hmin q hq.1 hq⟩

/-- A process of the smallest number is not passed over. -/
theorem highest_of_minimal (hp : Minimal t p) : highest t p NPROC = p := by
  obtain ⟨hrun, -, hleft⟩ := highest_spec hp.1 NPROC (Nat.le_refl _)
  refine hleft.resolve_right fun hless => ?_
  have := hp.2 _ hrun
  omega

/-- From any other one the scheduler goes to the first process of the smallest number. -/
theorem highest_le (hp : Runnable t p) (hnot : ¬Minimal t p) (hq : Minimal t q) :
    highest t p NPROC ≤ q := by
  have hhigh := highest_minimal hp
  obtain ⟨-, -, hleft⟩ := highest_spec hp NPROC (Nat.le_refl _)
  rcases hleft with heq | ⟨-, hfirst⟩
  · rw [heq] at hhigh
    exact absurd hhigh hnot
  · by_contra hlt
    have hless := hfirst q (by omega) hq.1
    have := hq.2 _ hhigh.1
    omega

/-- The outer loop stops at the first `RUNNABLE` slot. -/
theorem scan_eq_some (fuel : Nat) (hscan : scan t fuel p = some h) (hfuel : p + fuel = NPROC) :
    ∃ r, p ≤ r ∧ Runnable t r ∧ (∀ q, p ≤ q → q < r → ¬Runnable t q) ∧
      h = highest t r NPROC := by
  induction fuel generalizing p with
  | zero => cases hscan
  | succ fuel ih =>
      rw [scan] at hscan
      split_ifs at hscan with hstate
      · cases hscan
        exact ⟨p, Nat.le_refl p, ⟨by omega, hstate⟩, fun q hq hq' => by omega, rfl⟩
      · obtain ⟨r, hr, hrun, hnone, hh⟩ := ih hscan (by omega)
        refine ⟨r, by omega, hrun, fun q hq hq' => ?_, hh⟩
        rcases Nat.eq_or_lt_of_le hq with rfl | hlt
        · exact fun hqrun => hstate hqrun.2
        · exact hnone q hlt hq'

theorem scan_eq_none (fuel : Nat) (hscan : scan t fuel p = none) (hfuel : p + fuel = NPROC) :
    ∀ q, p ≤ q → ¬Runnable t q := by
  induction fuel generalizing p with
  | zero => exact fun q hq hrun => absurd hrun.1 (by omega)
  | succ fuel ih =>
      rw [scan] at hscan
      split_ifs at hscan with hstate
      intro q hq
      rcases Nat.eq_or_lt_of_le hq with rfl | hlt
      · exact fun hqrun => hstate hqrun.2
      · exact ih hscan (by omega) q hlt

/-- A dispatch, by the first `RUNNABLE` slot `r` that the walk meets. -/
theorem pick_eq_some (hpick : pick t p = some h) :
    ∃ r, p ≤ r ∧ Runnable t r ∧ (∀ q, p ≤ q → q < r → ¬Runnable t q) ∧
      h = highest t r NPROC := by
  by_cases hp : p ≤ NPROC
  · exact scan_eq_some _ hpick (by omega)
  · rw [pick, show NPROC - p = 0 by omega] at hpick
    cases hpick

theorem pick_eq_none (hpick : pick t p = none) : ∀ q, p ≤ q → ¬Runnable t q := by
  by_cases hp : p ≤ NPROC
  · exact scan_eq_none _ hpick (by omega)
  · exact fun q hq hrun => absurd hrun.1 (by omega)

theorem pick_minimal (hpick : pick t p = some h) : Minimal t h := by
  obtain ⟨r, -, hrun, -, rfl⟩ := pick_eq_some hpick
  exact highest_minimal hrun

theorem Dispatches.minimal (hd : Dispatches t p h) : Minimal t h := by
  cases hd with
  | pass hpick => exact pick_minimal hpick
  | wrap _ hpick => exact pick_minimal hpick

/-! ## Who gets a turn -/

/-- No process of a larger number lies between two of the smallest number. -/
def Unbroken (t : Table) : Prop :=
  ∀ i j k, i < j → j < k → Minimal t i → Runnable t j → Minimal t k → Minimal t j

/-- Walking towards `q`, the scheduler does not pass it by. -/
theorem pick_towards (hbroken : Unbroken t) (hq : Minimal t q) (hp : p ≤ q)
    (hpick : pick t p = some h) : p ≤ h ∧ h ≤ q := by
  obtain ⟨r, hr, hrun, hnone, rfl⟩ := pick_eq_some hpick
  have hrq : r ≤ q := by
    by_contra hlt
    exact hnone q hp (by omega) hq.1
  by_cases hmin : Minimal t r
  · rw [highest_of_minimal hmin]
    exact ⟨hr, hrq⟩
  · refine ⟨?_, highest_le hrun hmin hq⟩
    -- A process of the smallest number before `r` would have `r` between it and `q`.
    have hhigh := highest_minimal hrun
    by_contra hlt
    have hne : r ≠ q := fun heq => hmin (heq ▸ hq)
    exact hmin (hbroken _ r q (by omega) (by omega) hhigh hrun hq)

/-- The scheduler goes on, or comes back to `q` or before it. -/
theorem pick_away (hq : Minimal t q) (hpick : pick t p = some h) :
    p ≤ h ∨ h ≤ q := by
  obtain ⟨r, hr, hrun, -, rfl⟩ := pick_eq_some hpick
  by_cases hmin : Minimal t r
  · rw [highest_of_minimal hmin]
    exact .inl hr
  · exact .inr (highest_le hrun hmin hq)

/-- The number of dispatches that can come before `q`, from position `p`. -/
def distance (q p : Nat) : Nat := if p ≤ q then q - p else NPROC - p + q + 1

theorem distance_le (hq : q < NPROC) : distance q p ≤ NPROC := by
  rw [distance]
  split <;> omega

/-- Every dispatch but that of `q` itself brings it closer. -/
theorem Dispatches.closer (hd : Dispatches t p h) (hbroken : Unbroken t) (hq : Minimal t q)
    (hne : h ≠ q) : distance q (h + 1) < distance q p := by
  have hqN : q < NPROC := hq.1.1
  have hhN : h < NPROC := hd.minimal.1.1
  cases hd with
  | pass hpick =>
      by_cases hp : p ≤ q
      · obtain ⟨hle, hge⟩ := pick_towards hbroken hq hp hpick
        rw [distance, distance, if_pos (by omega), if_pos hp]
        omega
      · rcases pick_away hq hpick with hle | hge
        · rw [distance, distance, if_neg (by omega), if_neg hp]
          omega
        · rw [distance, distance, if_pos (by omega), if_neg hp]
          omega
  | wrap hend hpick =>
      have hp : ¬p ≤ q := fun hle => pick_eq_none hend q hle hq.1
      obtain ⟨-, hge⟩ := pick_towards hbroken hq (Nat.zero_le q) hpick
      rw [distance, distance, if_pos (by omega), if_neg hp]
      omega

/-- A sequence of dispatches: of `d n` from position `p n` of table `T n`. -/
structure Run (T : Nat → Table) (p d : Nat → Nat) : Prop where
  dispatches : ∀ n, Dispatches (T n) (p n) (d n)
  resumes : ∀ n, p (n + 1) = d n + 1

variable {T : Nat → Table} {pos d : Nat → Nat}

/-- A process that is `RUNNABLE` with the smallest number all the time gets a turn, also if
other processes come and go. -/
theorem Run.dispatched (hrun : Run T pos d) (hbroken : ∀ n, Unbroken (T n))
    (hq : ∀ n, Minimal (T n) q) (n : Nat) : ∃ i, n ≤ i ∧ i ≤ n + NPROC ∧ d i = q := by
  -- Up to `m` dispatches without `q` leave a distance of at least `m` less.
  have hstep : ∀ m, (∀ i, n ≤ i → i < n + m → d i ≠ q) →
      distance q (pos (n + m)) + m ≤ distance q (pos n) := by
    intro m hnot
    induction m with
    | zero => exact Nat.le_refl _
    | succ m ih =>
        have hle := ih fun i hi hi' => hnot i hi (by omega)
        have hcloser := (hrun.dispatches (n + m)).closer (hbroken _) (hq _)
          (hnot (n + m) (by omega) (by omega))
        rw [← hrun.resumes] at hcloser
        rw [show n + (m + 1) = n + m + 1 from rfl]
        omega
  by_contra hnone
  have hfar := hstep (NPROC + 1) fun i hi hi' heq => hnone ⟨i, hi, by omega, heq⟩
  have hnear := distance_le (p := pos n) (hq 0).1.1
  omega

/-- Every process that is dispatched is `RUNNABLE` again when control returns, and nothing
else in the table changes. -/
def Returns (T : Nat → Table) (d : Nat → Nat) : Prop :=
  ∀ n, T (n + 1) = yield (dispatch (T n) (d n)) (d n)

/-- From any position, each process of the smallest number is dispatched in every
`NPROC + 1` consecutive dispatches. -/
def Fair (t : Table) : Prop :=
  ∀ T pos d, T 0 = t → Run T pos d → Returns T d →
    ∀ q, Minimal t q → ∀ n, ∃ i, n ≤ i ∧ i ≤ n + NPROC ∧ d i = q

theorem yield_dispatch (hp : Runnable t p) : yield (dispatch t p) p = t := by
  have hself : { t p with state := .runnable } = t p := by rw [← hp.2]
  rw [yield, dispatch, Function.update_idem, Function.update_self]
  simp only [hself, Function.update_eq_self]

/-- Such a run stays with the table it starts from. -/
theorem Returns.table_eq (hret : Returns T d) (hrun : Run T pos d) : ∀ n, T n = T 0 := by
  intro n
  induction n with
  | zero => rfl
  | succ n ih => rw [hret n, yield_dispatch (hrun.dispatches n).minimal.1, ih]

/-- The next dispatch, when there is a process to dispatch. -/
def nextDispatch (t : Table) (p : Nat) : Nat := (pick t p).getD ((pick t 0).getD 0)

theorem nextDispatch_spec (hq : Runnable t q) : Dispatches t p (nextDispatch t p) := by
  rw [nextDispatch]
  cases hpick : pick t p with
  | some h => exact .pass hpick
  | none =>
      cases hfirst : pick t 0 with
      | some h => exact .wrap hpick hfirst
      | none => exact absurd hq (pick_eq_none hfirst q (Nat.zero_le q))

/-- The position after `n` dispatches, with the same table each time. -/
def positions (t : Table) (p : Nat) : Nat → Nat
  | 0 => p
  | n + 1 => nextDispatch t (positions t p n) + 1

/-- Below a process of a larger number that follows one of the smallest, the walk stays. -/
theorem nextDispatch_lt {i j : Nat} (hij : i < j) (hi : Minimal t i) (hj : Runnable t j)
    (hjnot : ¬Minimal t j) (hp : p ≤ j) : nextDispatch t p < j := by
  have hbound : ∀ {p h}, p ≤ j → pick t p = some h → h < j := by
    intro p h hp hpick
    obtain ⟨r, hr, hrun, hnone, rfl⟩ := pick_eq_some hpick
    have hrj : r ≤ j := by
      by_contra hlt
      exact hnone j hp (by omega) hj
    by_cases hmin : Minimal t r
    · rw [highest_of_minimal hmin]
      have hne : r ≠ j := fun heq => hjnot (heq ▸ hmin)
      omega
    · exact Nat.lt_of_le_of_lt (highest_le hrun hmin hi) hij
  cases nextDispatch_spec (p := p) hj with
  | pass hpick => exact hbound hp hpick
  | wrap _ hpick => exact hbound (Nat.zero_le j) hpick

theorem unbroken_of_fair (hfair : Fair t) : Unbroken t := by
  intro i j k hij hjk hi hj hk
  by_contra hjnot
  have hrun : Run (fun _ => t) (positions t 0) fun n => nextDispatch t (positions t 0 n) :=
    ⟨fun n => nextDispatch_spec hi.1, fun n => rfl⟩
  have hret : Returns (fun _ => t) fun n => nextDispatch t (positions t 0 n) :=
    fun n => (yield_dispatch (hrun.dispatches n).minimal.1).symm
  have hstay : ∀ n, positions t 0 n ≤ j := by
    intro n
    induction n with
    | zero => exact Nat.zero_le j
    | succ n ih => exact nextDispatch_lt hij hi hj hjnot ih
  obtain ⟨n, -, -, hn⟩ := hfair _ _ _ rfl hrun hret k hk 0
  have := nextDispatch_lt hij hi hj hjnot (hstay n)
  omega

/-- The scheduler dispatches `RUNNABLE` processes of the smallest number only; and all of them
get their turn exactly if no process of a larger number lies between two of them. -/
theorem scheduler_fair_iff (t : Table) :
    (∀ p h, Dispatches t p h → Minimal t h) ∧ (Fair t ↔ Unbroken t) := by
  refine ⟨fun p h hd => hd.minimal, unbroken_of_fair, ?_⟩
  intro hbroken T pos d hT hrun hret q hq n
  have hsame : ∀ n, T n = t := fun n => (hret.table_eq hrun n).trans hT
  exact hrun.dispatched (fun n => by rwa [hsame n]) (fun n => by rwa [hsame n]) n

/-- Slots 0 and 2 have the smallest number, slot 1 a larger one; nothing else is in use. -/
def three : Table := fun p =>
  if p = 0 then ⟨.runnable, 5⟩
  else if p = 1 then ⟨.runnable, 9⟩
  else if p = 2 then ⟨.runnable, 5⟩
  else ⟨.unused, 0⟩

theorem three_runnable (hq : Runnable three q) : q = 0 ∨ q = 1 ∨ q = 2 := by
  by_contra hnot
  obtain ⟨h0, hnot⟩ := not_or.1 hnot
  obtain ⟨h1, h2⟩ := not_or.1 hnot
  have := hq.2
  simp [three, h0, h1, h2] at this

/-- The third process is starved by the first. -/
theorem scheduler_starves : ¬Fair three := by
  have hmin : ∀ p, Runnable three p → (three p).priority = 5 → Minimal three p := by
    intro p hp hprio
    refine ⟨hp, fun q hq => ?_⟩
    rw [hprio]
    rcases three_runnable hq with rfl | rfl | rfl <;> decide
  intro hfair
  have hmid := unbroken_of_fair hfair 0 1 2 (by decide) (by decide) (hmin 0 (by decide) rfl)
    (by decide) (hmin 2 (by decide) rfl)
  exact absurd (hmid.2 0 (by decide)) (by decide)

end Xv6.Kernel.Sched
