import Mathlib.Data.List.Nodup
import Mathlib.Logic.Function.Basic
import Mathlib.Tactic.SplitIfs
import Xv6.Verified.Transitions

/-!
# Spinlocks and interrupts

`kernel/spinlock.c` with `sched`, `scheduler` and `forkret` of `kernel/proc.c`: any number of
CPUs, and processes that run on them in turn.  `ncli` and `intena` belong to a CPU, but
`intena` says how interrupts were for the process; `sched` saves it in a local variable and
puts it back on whatever CPU the process is resumed.

A step is an operation on one CPU, by the process or the scheduler that runs there.  `acquire`
is two steps, since others run while it spins; the rest happens with interrupts off and touches
nothing that another CPU looks at in between.

* `held` and `pushes` record what is outstanding on a CPU: the locks taken there and the calls
  of `pushcli` that a program makes itself.
* `first` is the interrupt flag that a process had when it took the first of the locks it
  holds.  A new process starts in `forkret` with a lock it never took.

## Main results

* `interrupts_of_run`: in every state of every run `ncli` counts what is outstanding,
  interrupts are off as long as anything is, no panic of `popcli` is reached, and with its last
  lock a process gets back the flag it had before its first.
-/

namespace Xv6.Kernel.Spin

open Xv6.Verified

/-- `&ptable.lock`. -/
abbrev ptableLock : Nat := 0

/-- `struct cpu` with the interrupt flag, the process that runs (or the scheduler), and what is
outstanding: locks, calls of `pushcli`, and a lock that is being acquired. -/
structure Cpu where
  ncli : Int
  intena : Bool
  flag : Bool
  proc : Option Nat
  held : List Nat
  pushes : Nat
  spins : Option Nat

/-- The number of spinlocks and `pushcli`s outstanding; the `pushcli` of an `acquire` that
spins is one. -/
def Cpu.outstanding (c : Cpu) : Nat := c.held.length + c.pushes + (if c.spins = none then 0 else 1)

/-- Where a process is: it never ran, it runs on a CPU, or it is in `sched` with what it saved
of `intena`. -/
inductive Place where
  | fresh
  | running (c : Nat)
  | parked (intena : Bool)
  deriving DecidableEq

/-- The CPU on which a process runs. -/
def Place.cpu? : Place → Option Nat
  | .running c => some c
  | _ => none

theorem Place.cpu?_eq_none {pl : Place} : pl.cpu? = none ↔ ∀ c, pl ≠ .running c := by
  cases pl with
  | fresh => simp [Place.cpu?]
  | running c => simp [Place.cpu?]
  | parked i => simp [Place.cpu?]

/-- The CPUs, the CPU that holds each lock, and the processes. -/
structure State where
  cpu : Nat → Cpu
  lock : Nat → Option Nat
  place : Nat → Place
  first : Nat → Option Bool

/-- The panics of these functions. -/
inductive Panic where
  | acquire
  | release
  | popcliInterruptible
  | popcli
  | schedLock
  | schedLocks
  | schedInterruptible
  deriving DecidableEq

/-- What a CPU does next.  `setFlag` stands for the changes of the flag outside of these
functions: `sti` at the top of `scheduler`, traps and the return from them. -/
inductive Op where
  | pushcli
  | popcli
  | acquire (l : Nat)
  | acquired
  | release (l : Nat)
  | sched
  | dispatch (p : Nat)
  | setFlag (b : Bool)
  deriving DecidableEq

variable {s t : State} {c c' p l : Nat} {op : Op}

/-! ## The code -/

/-- The CPU after `pushcli`. -/
def Cpu.push (c : Cpu) : Cpu :=
  { c with
    flag := false
    ncli := c.ncli + 1
    intena := if c.ncli = 0 then c.flag else c.intena }

/-- The CPU after `popcli`. -/
def Cpu.pop (c : Cpu) : Except Panic Cpu :=
  if c.flag then .error .popcliInterruptible
  else if c.ncli - 1 < 0 then .error .popcli
  else .ok { c with
    ncli := c.ncli - 1
    flag := if c.ncli - 1 = 0 ∧ c.intena then true else c.flag }

/-- What `first` is after an operation on a CPU that was `c` and is `c'`: set with the first
lock, cleared with the last. -/
def trackFirst (first : Nat → Option Bool) (c c' : Cpu) : Nat → Option Bool :=
  match c.proc with
  | none => first
  | some p =>
      if c'.outstanding = 0 then Function.update first p none
      else if c.outstanding = 0 then Function.update first p (some c.flag)
      else first

/-- CPU `c` becomes `x`. -/
def State.setCpu (s : State) (c : Nat) (x : Cpu) : State :=
  { s with cpu := Function.update s.cpu c x, first := trackFirst s.first (s.cpu c) x }

/-- An operation on CPU `c`. -/
def step (s : State) (c : Nat) : Op → Except Panic State
  | .pushcli =>
      let x := (s.cpu c).push
      .ok (s.setCpu c { x with pushes := x.pushes + 1 })
  | .popcli => do
      let x ← (s.cpu c).pop
      return s.setCpu c { x with pushes := x.pushes - 1 }
  | .acquire l =>
      let x := (s.cpu c).push
      if s.lock l = some c then .error .acquire
      else .ok (s.setCpu c { x with spins := some l })
  | .acquired =>
      match (s.cpu c).spins with
      | some l => .ok
          { s.setCpu c { s.cpu c with held := l :: (s.cpu c).held, spins := none } with
            lock := Function.update s.lock l (some c) }
      | none => .ok s
  | .release l =>
      if s.lock l ≠ some c then .error .release
      else do
        let x ← (s.cpu c).pop
        return { s.setCpu c { x with held := x.held.erase l } with
          lock := Function.update s.lock l none }
  | .sched =>
      if s.lock ptableLock ≠ some c then .error .schedLock
      else if (s.cpu c).ncli ≠ 1 then .error .schedLocks
      else if (s.cpu c).flag then .error .schedInterruptible
      else match (s.cpu c).proc with
        | some p => .ok { s with
            cpu := Function.update s.cpu c { s.cpu c with proc := none }
            place := Function.update s.place p (.parked (s.cpu c).intena) }
        | none => .ok s
  | .dispatch p =>
      let intena := match s.place p with
        | .parked i => i
        | _ => (s.cpu c).intena
      .ok { s with
        cpu := Function.update s.cpu c { s.cpu c with proc := some p, intena }
        place := Function.update s.place p (.running c) }
  | .setFlag b => .ok (s.setCpu c { s.cpu c with flag := b })

/-- Only `ptable.lock` is outstanding. -/
def Cpu.OnlyPtable (c : Cpu) : Prop := c.held = [ptableLock] ∧ c.pushes = 0 ∧ c.spins = none

/-- What processes and scheduler do: locks and `pushcli`s are given back by whoever has them,
`sched` and the switch to a process happen with `ptable.lock` and nothing else, and the flag is
changed otherwise only with nothing outstanding. -/
def Allowed (s : State) (a : Nat × Op) : Prop :=
  let c := s.cpu a.1
  match a.2 with
  | .pushcli => c.spins = none
  | .popcli => c.spins = none ∧ 0 < c.pushes
  | .acquire _ => c.spins = none
  | .acquired => ∃ l, c.spins = some l ∧ s.lock l = none
  | .release l => c.spins = none ∧ l ∈ c.held
  | .sched => c.OnlyPtable ∧ ∃ p, c.proc = some p
  | .dispatch p => c.OnlyPtable ∧ c.proc = none ∧ ∀ c', s.place p ≠ .running c'
  | .setFlag _ => c.outstanding = 0

instance : DecidablePred (Allowed s) := fun a =>
  match a with
  | (c, .pushcli) => inferInstanceAs (Decidable ((s.cpu c).spins = none))
  | (c, .popcli) => inferInstanceAs (Decidable ((s.cpu c).spins = none ∧ 0 < (s.cpu c).pushes))
  | (c, .acquire _) => inferInstanceAs (Decidable ((s.cpu c).spins = none))
  | (c, .acquired) => decidable_of_iff ((s.cpu c).spins.any fun l => s.lock l = none)
      (by simp [Allowed, Option.any_eq_true])
  | (c, .release l) => inferInstanceAs (Decidable ((s.cpu c).spins = none ∧ l ∈ (s.cpu c).held))
  | (c, .sched) => decidable_of_iff (((s.cpu c).held = [ptableLock] ∧ (s.cpu c).pushes = 0 ∧
      (s.cpu c).spins = none) ∧ (s.cpu c).proc.isSome)
      (by simp [Allowed, Cpu.OnlyPtable, Option.isSome_iff_exists])
  | (c, .dispatch p) => decidable_of_iff (((s.cpu c).held = [ptableLock] ∧ (s.cpu c).pushes = 0 ∧
      (s.cpu c).spins = none) ∧ (s.cpu c).proc = none ∧ (s.place p).cpu? = none)
      (by simp [Allowed, Cpu.OnlyPtable, Place.cpu?_eq_none])
  | (c, .setFlag _) => inferInstanceAs (Decidable ((s.cpu c).outstanding = 0))

/-- The state after an operation that does not panic. -/
def exec (s : State) (a : Nat × Op) : Option State := (step s a.1 a.2).toOption

/-! ## One CPU -/

/-- What is true of a CPU: `ncli` counts, interrupts are off as long as anything is
outstanding, and `intena` is what the process had before its first lock. -/
structure CpuOk (first : Nat → Option Bool) (c : Cpu) : Prop where
  count : c.ncli = c.outstanding
  off : 0 < c.outstanding → c.flag = false
  first : ∀ p b, c.proc = some p → first p = some b → 0 < c.outstanding ∧ c.intena = b

variable {first : Nat → Option Bool} {x y z : Cpu}

theorem trackFirst_of_eq (hp : x.proc = some p) : trackFirst first x y p =
    if y.outstanding = 0 then none else if x.outstanding = 0 then some x.flag else first p := by
  rw [trackFirst, hp]
  dsimp only
  split_ifs
  · exact Function.update_self p _ _
  · exact Function.update_self p _ _
  · rfl

/-- One more is outstanding. -/
theorem CpuOk.push (h : CpuOk first x) (hy : y.ncli = x.push.ncli ∧ y.flag = x.push.flag ∧
      y.intena = x.push.intena ∧ y.proc = x.proc) (hout : y.outstanding = x.outstanding + 1) :
    CpuOk (trackFirst first x y) y := by
  obtain ⟨hncli, hflag, hintena, hproc⟩ := hy
  refine ⟨?_, fun _ => hflag, fun p b hp hfirst => ⟨by omega, ?_⟩⟩
  · have hcount := h.count
    rw [hncli, hout]
    show x.ncli + 1 = _
    omega
  · rw [hproc] at hp
    rw [trackFirst_of_eq hp, if_neg (by omega)] at hfirst
    rw [hintena, Cpu.push]
    by_cases hzero : x.outstanding = 0
    · rw [if_pos hzero, Option.some.injEq] at hfirst
      rw [if_pos (by rw [h.count, hzero]; rfl)]
      exact hfirst
    · rw [if_neg hzero] at hfirst
      rw [if_neg (by rw [h.count]; omega)]
      exact (h.first p b hp hfirst).2

/-- With something outstanding `popcli` does not panic. -/
theorem CpuOk.pop_ok (h : CpuOk first x) (hpos : 0 < x.outstanding) :
    x.pop = .ok { x with
      ncli := x.ncli - 1
      flag := if x.ncli - 1 = 0 ∧ x.intena then true else x.flag } := by
  have hcount := h.count
  rw [Cpu.pop, if_neg (by rw [h.off hpos]; decide), if_neg (by omega)]

/-- One less is outstanding, and with the last one the flag is what it was before the first. -/
theorem CpuOk.pop (h : CpuOk first x) (hpos : 0 < x.outstanding) (hpop : x.pop = .ok y)
    (hz : z.ncli = y.ncli ∧ z.flag = y.flag ∧ z.intena = y.intena ∧ z.proc = y.proc)
    (hout : z.outstanding + 1 = x.outstanding) :
    CpuOk (trackFirst first x z) z ∧
      (∀ p b, x.proc = some p → first p = some b → z.outstanding = 0 → z.flag = b) := by
  rw [h.pop_ok hpos, Except.ok.injEq] at hpop
  subst hpop
  obtain ⟨hncli, hflag, hintena, hproc⟩ := hz
  dsimp only at hncli hflag hintena hproc
  have hcount := h.count
  have hoff := h.off hpos
  refine ⟨⟨by omega, fun hz => ?_, fun p b hp hfirst => ?_⟩, fun p b hp hfirst hz => ?_⟩
  · rw [hflag, if_neg (by omega), hoff]
  · rw [hproc] at hp
    rw [trackFirst_of_eq hp] at hfirst
    split_ifs at hfirst with hzero hzero'
    · omega
    · rw [hintena]
      exact ⟨by omega, (h.first p b hp hfirst).2⟩
  · have hintena' := (h.first p b hp hfirst).2
    rw [hflag, hintena', hoff]
    have hlast : x.ncli - 1 = 0 := by omega
    cases b with
    | true => simp [hlast]
    | false => simp

/-- As much is outstanding as before, and as long as something is the flag stays. -/
theorem CpuOk.keep (h : CpuOk first x) (hout : y.outstanding = x.outstanding)
    (hflag : 0 < x.outstanding → y.flag = x.flag)
    (hy : y.ncli = x.ncli ∧ y.intena = x.intena ∧ y.proc = x.proc) :
    CpuOk (trackFirst first x y) y := by
  obtain ⟨hncli, hintena, hproc⟩ := hy
  refine ⟨?_, fun hpos => ?_, fun p b hp hfirst => ?_⟩
  · rw [hncli, hout]
    exact h.count
  · rw [hflag (by omega)]
    exact h.off (by omega)
  · rw [hproc] at hp
    rw [trackFirst_of_eq hp] at hfirst
    split_ifs at hfirst with hzero hzero'
    · omega
    · rw [hintena]
      exact ⟨by omega, (h.first p b hp hfirst).2⟩

/-! ## All CPUs -/

/-- What every step keeps. -/
structure Inv (s : State) : Prop where
  cpus : ∀ c, CpuOk s.first (s.cpu c)
  holds : ∀ c l, l ∈ (s.cpu c).held ↔ s.lock l = some c
  nodup : ∀ c, (s.cpu c).held.Nodup
  runs : ∀ c p, (s.cpu c).proc = some p ↔ s.place p = .running c
  parked : ∀ p i b, s.place p = .parked i → s.first p = some b → i = b
  fresh : ∀ p, s.place p = .fresh → s.first p = none

theorem trackFirst_of_ne {q : Nat} (hq : x.proc ≠ some q) : trackFirst first x y q = first q := by
  rw [trackFirst]
  cases hproc : x.proc with
  | none => rfl
  | some p =>
      have hne : q ≠ p := by
        rintro rfl
        exact hq hproc
      dsimp only
      split_ifs
      · exact Function.update_of_ne hne _ _
      · exact Function.update_of_ne hne _ _
      · rfl

/-- A CPU takes or gives back a lock, or none, and its process stays. -/
theorem Inv.setCpu (h : Inv s) (lock : Nat → Option Nat) (hproc : x.proc = (s.cpu c).proc)
    (hok : CpuOk (trackFirst s.first (s.cpu c) x) x) (hown : ∀ l, l ∈ x.held ↔ lock l = some c)
    (hother : ∀ c', c' ≠ c → ∀ l, lock l = some c' ↔ s.lock l = some c') (hnodup : x.held.Nodup) :
    Inv { s.setCpu c x with lock } := by
  have hcpu : ∀ c', c' ≠ c → Function.update s.cpu c x c' = s.cpu c' :=
    fun c' hne => Function.update_of_ne hne _ _
  -- A process that is not on this CPU keeps its first flag.
  have hfirst : ∀ p, s.place p ≠ .running c → trackFirst s.first (s.cpu c) x p = s.first p :=
    fun p hp => trackFirst_of_ne fun heq => hp ((h.runs c p).1 heq)
  refine ⟨fun c' => ?_, fun c' l => ?_, fun c' => ?_, fun c' p => ?_, fun p i b hp hb => ?_,
    fun p hp => ?_⟩
  · by_cases hne : c' = c
    · subst hne
      simp only [State.setCpu, Function.update_self]
      exact hok
    · simp only [State.setCpu, hcpu c' hne]
      refine ⟨(h.cpus c').count, (h.cpus c').off, fun p b hp hb => (h.cpus c').first p b hp ?_⟩
      rwa [hfirst p] at hb
      rw [(h.runs c' p).1 hp]
      exact fun heq => hne (Place.running.inj heq)
  · by_cases hne : c' = c
    · subst hne
      simp only [State.setCpu, Function.update_self]
      exact hown l
    · simp only [State.setCpu, hcpu c' hne]
      rw [h.holds, hother c' hne]
  · by_cases hne : c' = c
    · subst hne
      simp only [State.setCpu, Function.update_self]
      exact hnodup
    · simp only [State.setCpu, hcpu c' hne]
      exact h.nodup c'
  · by_cases hne : c' = c
    · subst hne
      simp only [State.setCpu, Function.update_self, hproc]
      exact h.runs c' p
    · simp only [State.setCpu, hcpu c' hne]
      exact h.runs c' p
  · have hp' : s.place p = .parked i := hp
    have hb' : trackFirst s.first (s.cpu c) x p = some b := hb
    rw [hfirst p (by simp [hp'])] at hb'
    exact h.parked p i b hp' hb'
  · have hp' : s.place p = .fresh := hp
    show trackFirst s.first (s.cpu c) x p = none
    rw [hfirst p (by simp [hp'])]
    exact h.fresh p hp'

/-- Nothing is outstanding without holding a lock, calling `pushcli` or spinning. -/
theorem Cpu.outstanding_pos_of_mem (h : l ∈ x.held) : 0 < x.outstanding := by
  have hlen := List.length_pos_of_mem h
  rw [Cpu.outstanding]
  omega

theorem Cpu.OnlyPtable.outstanding (h : x.OnlyPtable) : x.outstanding = 1 := by
  rw [Cpu.outstanding, h.1, h.2.1, if_pos h.2.2]
  rfl

/-- A process goes on or off a CPU. -/
theorem Inv.switch (h : Inv s) {proc : Option Nat} {i : Bool} {pl : Place}
    (hok : CpuOk s.first { s.cpu c with proc, intena := i })
    (hne : ∀ q, q ≠ p → (s.cpu c).proc ≠ some q ∧ proc ≠ some q)
    (hon : proc = some p ↔ pl = .running c)
    (hplace : ∀ c', c' ≠ c → s.place p ≠ .running c' ∧ pl ≠ .running c')
    (hparked : ∀ j b, pl = .parked j → s.first p = some b → j = b) (hfresh : pl ≠ .fresh) :
    Inv { s with
      cpu := Function.update s.cpu c { s.cpu c with proc, intena := i }
      place := Function.update s.place p pl } := by
  refine ⟨fun c' => ?_, fun c' l => ?_, fun c' => ?_, fun c' q => ?_, fun q j b hq hb => ?_,
    fun q hq => ?_⟩
  · by_cases hc : c' = c
    · subst hc
      simp only [Function.update_self]
      exact hok
    · simp only [Function.update_of_ne hc]
      exact h.cpus c'
  · by_cases hc : c' = c
    · subst hc
      simp only [Function.update_self]
      exact h.holds c' l
    · simp only [Function.update_of_ne hc]
      exact h.holds c' l
  · by_cases hc : c' = c
    · subst hc
      simp only [Function.update_self]
      exact h.nodup c'
    · simp only [Function.update_of_ne hc]
      exact h.nodup c'
  · by_cases hq : q = p
    · subst hq
      by_cases hc : c' = c
      · subst hc
        simp only [Function.update_self]
        exact hon
      · simp only [Function.update_of_ne hc, Function.update_self, h.runs, hplace c' hc]
    · by_cases hc : c' = c
      · subst hc
        simp only [Function.update_self, Function.update_of_ne hq, ← h.runs, hne q hq]
      · simp only [Function.update_of_ne hc, Function.update_of_ne hq]
        exact h.runs c' q
  · by_cases hqp : q = p
    · subst hqp
      simp only [Function.update_self] at hq
      exact hparked j b hq hb
    · simp only [Function.update_of_ne hqp] at hq
      exact h.parked q j b hq hb
  · by_cases hqp : q = p
    · subst hqp
      simp only [Function.update_self] at hq
      exact absurd hq hfresh
    · simp only [Function.update_of_ne hqp] at hq
      exact h.fresh q hq

/-- A process leaves its CPU in `sched` and takes its `intena` along. -/
theorem Inv.sched (h : Inv s) (hproc : (s.cpu c).proc = some p) :
    Inv { s with
      cpu := Function.update s.cpu c { s.cpu c with proc := none }
      place := Function.update s.place p (.parked (s.cpu c).intena) } := by
  have hrun := (h.runs c p).1 hproc
  refine h.switch ⟨(h.cpus c).count, (h.cpus c).off, fun _ _ hp => nomatch hp⟩
    (fun q hq => ⟨?_, nofun⟩) (by simp) (fun c' hc => ⟨?_, nofun⟩) (fun j b hj hb => ?_) nofun
  · rw [hproc]
    exact fun heq => hq (Option.some.inj heq).symm
  · rw [hrun]
    exact fun heq => hc (Place.running.inj heq).symm
  · cases hj
    exact ((h.cpus c).first p b hproc hb).2

/-- A process continues on a CPU, with the `intena` it saved. -/
theorem Inv.dispatch (h : Inv s) (honly : (s.cpu c).OnlyPtable) (hproc : (s.cpu c).proc = none)
    (hplace : ∀ c', s.place p ≠ .running c') {i : Bool}
    (hi : ∀ j, s.place p = .parked j → i = j) :
    Inv { s with
      cpu := Function.update s.cpu c { s.cpu c with proc := some p, intena := i }
      place := Function.update s.place p (.running c) } := by
  refine h.switch ⟨(h.cpus c).count, (h.cpus c).off, fun q b hq hb => ⟨?_, ?_⟩⟩
    (fun q hq => ⟨?_, ?_⟩) (by simp) (fun c' hc => ⟨hplace c', ?_⟩) nofun nofun
  · show 0 < (s.cpu c).outstanding
    rw [honly.outstanding]
    exact Nat.one_pos
  · cases hq
    show i = b
    cases hp : s.place p with
    | fresh =>
        rw [h.fresh p hp] at hb
        cases hb
    | running c' => exact absurd hp (hplace c')
    | parked j =>
        rw [hi j hp]
        exact h.parked p j b hp hb
  · rw [hproc]
    nofun
  · exact fun heq => hq (Option.some.inj heq).symm
  · exact fun heq => hc (Place.running.inj heq).symm

/-! ## One operation -/

/-- What an operation does: it keeps the invariant, and with the last lock the flag is back. -/
structure Done (s : State) (c : Nat) (t : State) : Prop where
  inv : Inv t
  restored : ∀ p b, (s.cpu c).proc = some p → s.first p = some b → (t.cpu c).outstanding = 0 →
    (t.cpu c).flag = b

/-- More is outstanding afterwards, or as much. -/
theorem Done.of_le (h : Inv s) (ht : Inv t)
    (hle : (s.cpu c).outstanding ≤ (t.cpu c).outstanding) : Done s c t := by
  refine ⟨ht, fun p b hp hb hzero => ?_⟩
  have hpos := ((h.cpus c).first p b hp hb).1
  omega

/-- The locks that a CPU holds stay. -/
theorem Inv.setCpu_same (h : Inv s) (hproc : x.proc = (s.cpu c).proc)
    (hheld : x.held = (s.cpu c).held) (hok : CpuOk (trackFirst s.first (s.cpu c) x) x) :
    Inv (s.setCpu c x) := by
  refine h.setCpu s.lock hproc hok (fun l => ?_) (fun _ _ _ => Iff.rfl) ?_
  · rw [hheld]
    exact h.holds c l
  · rw [hheld]
    exact h.nodup c

@[simp] theorem State.setCpu_cpu (s : State) (c : Nat) (x : Cpu) : (s.setCpu c x).cpu c = x := by
  rw [State.setCpu]
  exact Function.update_self c x s.cpu

theorem pushcli_done (h : Inv s) (hok : Allowed s (c, .pushcli)) :
    ∃ t, step s c .pushcli = .ok t ∧ Done s c t := by
  have hspins : (s.cpu c).spins = none := hok
  have hout : { (s.cpu c).push with pushes := (s.cpu c).push.pushes + 1 }.outstanding =
      (s.cpu c).outstanding + 1 := by
    simp only [Cpu.outstanding, Cpu.push, hspins]
    omega
  refine ⟨_, rfl, Done.of_le h (h.setCpu_same rfl rfl ((h.cpus c).push ?_ hout)) ?_⟩
  · exact ⟨rfl, rfl, rfl, rfl⟩
  · rw [State.setCpu_cpu, hout]
    omega

theorem acquire_done (h : Inv s) (hok : Allowed s (c, .acquire l)) :
    step s c (.acquire l) = .error .acquire ∨
      ∃ t, step s c (.acquire l) = .ok t ∧ Done s c t := by
  have hspins : (s.cpu c).spins = none := hok
  rw [step]
  by_cases hheld : s.lock l = some c
  · exact .inl (if_pos hheld)
  · have hout : { (s.cpu c).push with spins := some l }.outstanding =
        (s.cpu c).outstanding + 1 := by
      simp [Cpu.outstanding, Cpu.push, hspins]
    refine .inr ⟨_, if_neg hheld, Done.of_le h (h.setCpu_same rfl rfl ((h.cpus c).push ?_ hout)) ?_⟩
    · exact ⟨rfl, rfl, rfl, rfl⟩
    · rw [State.setCpu_cpu, hout]
      omega

theorem acquired_done (h : Inv s) (hok : Allowed s (c, .acquired)) :
    ∃ t, step s c .acquired = .ok t ∧ Done s c t := by
  obtain ⟨l, hspins, hfree⟩ := hok
  have hspins' : (s.cpu c).spins = some l := hspins
  have hout : { s.cpu c with held := l :: (s.cpu c).held, spins := none }.outstanding =
      (s.cpu c).outstanding := by
    simp only [Cpu.outstanding, hspins', List.length_cons, if_true, reduceCtorEq, if_false]
    omega
  refine ⟨_, by rw [step, hspins'], Done.of_le h ?_ (by simp [hout])⟩
  refine h.setCpu _ rfl ((h.cpus c).keep hout (fun _ => rfl) ⟨rfl, rfl, rfl⟩) (fun l' => ?_)
    (fun c' hc l' => ?_) ?_
  · by_cases hl : l' = l
    · subst hl
      simp
    · simp [hl, h.holds]
  · by_cases hl : l' = l
    · subst hl
      simp [hfree, Ne.symm hc]
    · simp [hl]
  · rw [List.nodup_cons]
    refine ⟨fun hmem => ?_, h.nodup c⟩
    rw [h.holds, hfree] at hmem
    cases hmem

/-- `popcli` at the end of `release` or called by itself: one less is outstanding. -/
theorem pop_done (h : Inv s) (lock : Nat → Option Nat) (hpop : (s.cpu c).pop = .ok y)
    (hz : z.ncli = y.ncli ∧ z.flag = y.flag ∧ z.intena = y.intena ∧ z.proc = y.proc)
    (hout : z.outstanding + 1 = (s.cpu c).outstanding) (hproc : z.proc = (s.cpu c).proc)
    (hown : ∀ l, l ∈ z.held ↔ lock l = some c)
    (hother : ∀ c', c' ≠ c → ∀ l, lock l = some c' ↔ s.lock l = some c') (hnodup : z.held.Nodup) :
    Done s c { s.setCpu c z with lock } := by
  obtain ⟨hok, hback⟩ := (h.cpus c).pop (by omega) hpop hz hout
  refine ⟨h.setCpu lock hproc hok hown hother hnodup, fun p b hp hb hzero => ?_⟩
  simp only [State.setCpu_cpu] at hzero ⊢
  exact hback p b hp hb hzero

theorem popcli_done (h : Inv s) (hok : Allowed s (c, .popcli)) :
    ∃ t, step s c .popcli = .ok t ∧ Done s c t := by
  obtain ⟨hspins, hpushes⟩ : (s.cpu c).spins = none ∧ 0 < (s.cpu c).pushes := hok
  have hpos : 0 < (s.cpu c).outstanding := by
    rw [Cpu.outstanding]
    omega
  have hpop := (h.cpus c).pop_ok hpos
  refine ⟨_, by rw [step, hpop]; rfl, ?_⟩
  refine pop_done h s.lock hpop ⟨rfl, rfl, rfl, rfl⟩ ?_ rfl (h.holds c)
    (fun _ _ _ => Iff.rfl) (h.nodup c)
  simp only [Cpu.outstanding, hspins]
  omega

theorem release_done (h : Inv s) (hok : Allowed s (c, .release l)) :
    ∃ t, step s c (.release l) = .ok t ∧ Done s c t := by
  obtain ⟨hspins, hmem⟩ : (s.cpu c).spins = none ∧ l ∈ (s.cpu c).held := hok
  have hheld := (h.holds c l).1 hmem
  have hpos := Cpu.outstanding_pos_of_mem hmem
  have hpop := (h.cpus c).pop_ok hpos
  refine ⟨_, by rw [step, if_neg (by simp [hheld]), hpop]; rfl, ?_⟩
  refine pop_done h _ hpop ⟨rfl, rfl, rfl, rfl⟩ ?_ rfl (fun l' => ?_) (fun c' hc l' => ?_)
    ((h.nodup c).erase l)
  · have hlen := List.length_erase_of_mem hmem
    have hlen' := List.length_pos_of_mem hmem
    simp only [Cpu.outstanding, hspins, hlen]
    omega
  · by_cases hl : l' = l
    · subst hl
      simp [(h.nodup c).mem_erase_iff]
    · simp [(h.nodup c).mem_erase_iff, hl, h.holds]
  · by_cases hl : l' = l
    · subst hl
      simp [hheld, Ne.symm hc]
    · simp [hl]

theorem sched_done (h : Inv s) (hok : Allowed s (c, .sched)) :
    ∃ t, step s c .sched = .ok t ∧ Done s c t := by
  obtain ⟨honly, p, hproc⟩ : (s.cpu c).OnlyPtable ∧ ∃ p, (s.cpu c).proc = some p := hok
  have hlock : s.lock ptableLock = some c := (h.holds c _).1 (by simp [honly.1])
  have hncli : (s.cpu c).ncli = 1 := by
    rw [(h.cpus c).count, honly.outstanding]
    rfl
  have hoff := (h.cpus c).off (by simp [honly.outstanding])
  refine ⟨_, ?_, Done.of_le h (h.sched hproc) ?_⟩
  · rw [step, if_neg (by simp [hlock]), if_neg (by simp [hncli]), if_neg (by simp [hoff]), hproc]
  · simp only [Function.update_self]
    exact Nat.le_refl _

theorem dispatch_done (h : Inv s) (hok : Allowed s (c, .dispatch p)) :
    ∃ t, step s c (.dispatch p) = .ok t ∧ Done s c t := by
  obtain ⟨honly, hproc, hplace⟩ : (s.cpu c).OnlyPtable ∧ (s.cpu c).proc = none ∧
    ∀ c', s.place p ≠ .running c' := hok
  refine ⟨_, rfl, Done.of_le h (h.dispatch honly hproc hplace fun j hj => ?_) ?_⟩
  · rw [hj]
  · simp only [Function.update_self]
    exact Nat.le_refl _

theorem setFlag_done (h : Inv s) {b : Bool} (hok : Allowed s (c, .setFlag b)) :
    ∃ t, step s c (.setFlag b) = .ok t ∧ Done s c t := by
  have hzero : (s.cpu c).outstanding = 0 := hok
  have hout : { s.cpu c with flag := b }.outstanding = (s.cpu c).outstanding := rfl
  have hkeep := (h.cpus c).keep hout (fun hpos => absurd hpos (by omega)) ⟨rfl, rfl, rfl⟩
  refine ⟨_, rfl, Done.of_le h (h.setCpu_same rfl rfl hkeep) ?_⟩
  rw [State.setCpu_cpu]
  exact Nat.le_of_eq hout.symm

/-- An operation panics only if it acquires a lock that the CPU holds already. -/
theorem step_done (h : Inv s) (hok : Allowed s (c, op)) :
    step s c op = .error .acquire ∨ ∃ t, step s c op = .ok t ∧ Done s c t := by
  cases op with
  | pushcli => exact .inr (pushcli_done h hok)
  | popcli => exact .inr (popcli_done h hok)
  | acquire l => exact acquire_done h hok
  | acquired => exact .inr (acquired_done h hok)
  | release l => exact .inr (release_done h hok)
  | sched => exact .inr (sched_done h hok)
  | dispatch p => exact .inr (dispatch_done h hok)
  | setFlag b => exact .inr (setFlag_done h hok)

/-! ## Runs -/

/-- Every CPU is in its scheduler with nothing outstanding, and no process ran yet. -/
structure Start (s : State) : Prop where
  idle : ∀ c, (s.cpu c).ncli = 0 ∧ (s.cpu c).proc = none ∧ (s.cpu c).held = [] ∧
    (s.cpu c).pushes = 0 ∧ (s.cpu c).spins = none
  free : ∀ l, s.lock l = none
  fresh : ∀ p, s.place p = .fresh ∧ s.first p = none

theorem Start.inv (h : Start s) : Inv s := by
  refine ⟨fun c => ?_, fun c l => ?_, fun c => ?_, fun c p => ?_, fun p i b hp => ?_,
    fun p _ => (h.fresh p).2⟩
  · obtain ⟨hncli, hproc, hheld, hpushes, hspins⟩ := h.idle c
    have hout : (s.cpu c).outstanding = 0 := by simp [Cpu.outstanding, hheld, hpushes, hspins]
    refine ⟨?_, fun hpos => absurd hpos (by omega), fun p b hp => ?_⟩
    · rw [hncli, hout]
      rfl
    · rw [hproc] at hp
      cases hp
  · simp [h.idle c, h.free l]
  · simp [h.idle c]
  · simp [h.idle c, h.fresh p]
  · rw [(h.fresh p).1] at hp
    cases hp

theorem inv_of_run (hstart : Start s) (h : Reaches exec Allowed s t) : Inv t := by
  refine h.inv (fun u a u' hinv hok hexec => ?_) hstart.inv
  obtain herr | ⟨u'', hstep, hdone⟩ := step_done hinv hok
  · rw [exec, herr] at hexec
    cases hexec
  · rw [exec, hstep] at hexec
    cases hexec
    exact hdone.inv

/-- In every state of every run, on every CPU: `ncli` counts what is outstanding, interrupts are
off as long as anything is, no operation panics but an `acquire` of a lock that the CPU holds,
and an operation that leaves a process nothing outstanding leaves the flag as it was when the
process took the first of its locks. -/
theorem interrupts_of_run (hstart : Start s) (h : Reaches exec Allowed s t) (c : Nat) :
    (t.cpu c).ncli = (t.cpu c).outstanding ∧
      (0 < (t.cpu c).ncli → (t.cpu c).flag = false) ∧
      ∀ op, Allowed t (c, op) →
        (∀ e, step t c op = .error e → e = .acquire) ∧
        ∀ t' p b, step t c op = .ok t' → (t.cpu c).proc = some p → t.first p = some b →
          (t'.cpu c).outstanding = 0 → (t'.cpu c).flag = b := by
  have hinv := inv_of_run hstart h
  have hcount := (hinv.cpus c).count
  refine ⟨hcount, fun hpos => (hinv.cpus c).off (by omega), fun op hok => ⟨?_, ?_⟩⟩
  · intro e herr
    obtain herr' | ⟨t', hstep, -⟩ := step_done hinv hok
    · rw [herr', Except.error.injEq] at herr
      exact herr.symm
    · rw [hstep] at herr
      cases herr
  · intro t' p b hstep
    obtain herr | ⟨t'', hstep', hdone⟩ := step_done hinv hok
    · rw [herr] at hstep
      cases hstep
    · rw [hstep', Except.ok.injEq] at hstep
      subst hstep
      exact hdone.restored p b

/-- CPUs that are about to enter their schedulers. -/
def boot : State where
  cpu _ := ⟨0, false, true, none, [], 0, none⟩
  lock _ := none
  place _ := .fresh
  first _ := none

/-- Process 0 starts on CPU 0, takes `ptable.lock` with interrupts on, calls `sched`, and is
resumed on CPU 1. -/
def migrate : List (Nat × Op) :=
  [(0, .acquire ptableLock), (0, .acquired), (0, .dispatch 0), (0, .release ptableLock),
   (0, .setFlag true), (0, .acquire ptableLock), (0, .acquired), (0, .sched),
   (0, .release ptableLock), (1, .setFlag false), (1, .acquire ptableLock), (1, .acquired),
   (1, .dispatch 0)]

theorem interrupts_run : ∃ t t', runActs exec Allowed migrate boot = some t ∧
    step t 1 (.release ptableLock) = .ok t' ∧ (t.cpu 1).ncli = 1 ∧ (t.cpu 1).flag = false ∧
    (t'.cpu 1).flag = true := by
  have hstart : Start boot := ⟨fun _ => ⟨rfl, rfl, rfl, rfl, rfl⟩, fun _ => rfl,
    fun _ => ⟨rfl, rfl⟩⟩
  have hrun : runActs exec Allowed migrate boot = some _ := rfl
  have h := interrupts_of_run hstart (.of_runActs _ hrun) 1
  refine ⟨_, _, hrun, rfl, h.1, h.2.1 ?_, (h.2.2 (.release ptableLock) ?_).2 _ 0 true rfl ?_ ?_ ?_⟩
  · decide
  · decide
  · rfl
  · rfl
  · rfl

end Xv6.Kernel.Spin
