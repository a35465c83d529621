import Xv6.Kernel.Layout
import Xv6.Verified.Slots
import Xv6.Verified.Transitions

/-!
# The process table

`kernel/proc.c`: `fork`, `exit`, `wait`, `kill`, `sleep` and `wakeup` on the table of `NPROC`
slots.  A step is what a process does under `ptable.lock`, from `acquire` to `release` or to
the switch in `sched`; `fork` touches the new slot also without the lock, and those
assignments are steps of their own.

* A slot is used again and again.  `inc` numbers the processes, so that the one in a slot
  can be told from an earlier one; `parentInc` is the number of the process that `parent`
  was set to, `bornTo` that of the process that forked it.
* `exited` and `reaped` record the exits and, with the caller's number, what `wait` returned.
* `kills` lists the arguments of the `kill` calls since the process in the slot was created,
  `faulted` says whether it had a fault in user space since then.

The file-system and memory side of these calls is elsewhere; here `fork` may fail after
`allocproc` for any reason.
-/

namespace Xv6.Kernel.Ptable

open Xv6.Verified

/-- `enum procstate`. -/
inductive ProcState where
  | unused
  | embryo
  | sleeping
  | runnable
  | running
  | zombie
  deriving DecidableEq, Repr

/-- A channel: the address of a process, in `wait`, or another address. -/
inductive Chan where
  | proc (p : Nat)
  | other (c : Nat)
  deriving DecidableEq, Repr

/-- `struct proc`, as far as these functions use it. -/
structure Proc where
  state : ProcState
  pid : Int
  parent : Option Nat
  killed : Bool
  chan : Option Chan

/-- Where a process is: in `fork` with its new slot, before or after the assignment to
`np->parent`; in the loop of `wait`; or elsewhere. -/
inductive Pc where
  | user
  | forking (np : Nat) (copied : Bool)
  | waiting
  deriving DecidableEq, Repr

/-- The process table, and the processes. -/
structure State where
  proc : Nat → Proc
  nextpid : Int
  initproc : Nat
  pc : Nat → Pc
  births : Nat
  inc : Nat → Nat
  parentInc : Nat → Nat
  bornTo : Nat → Nat
  exited : List Nat
  reaped : List (Nat × Nat)
  kills : Nat → List Int
  faulted : Nat → Bool

/-- `x + 1` as an `int`. -/
def succInt (x : Int) : Int := (x + 1 + 2147483648) % 4294967296 - 2147483648

/-- A zeroed slot. -/
def Proc.zero : Proc := ⟨.unused, 0, none, false, none⟩

/-- After `userinit`: the first process has slot 0. -/
def userinit : State where
  proc := Function.update (fun _ => Proc.zero) 0 ⟨.runnable, 1, none, false, none⟩
  nextpid := 2
  initproc := 0
  pc _ := .user
  births := 1
  inc _ := 0
  parentInc _ := 0
  bornTo _ := 0
  exited := []
  reaped := []
  kills _ := []
  faulted _ := false

namespace State

/-- Replace slot `p`. -/
def setProc (s : State) (p : Nat) (x : Proc) : State :=
  { s with proc := Function.update s.proc p x }

/-- Process `p` goes on at `l`. -/
def goto (s : State) (p : Nat) (l : Pc) : State := { s with pc := Function.update s.pc p l }

/-- `wakeup1`. -/
def wakeup1 (s : State) (chan : Option Chan) : State :=
  { s with proc := fun p =>
      if (s.proc p).state = .sleeping ∧ (s.proc p).chan = chan then
        { s.proc p with state := .runnable }
      else s.proc p }

/-- `sleep(chan, …)`, up to the switch. -/
def sleep (s : State) (p : Nat) (chan : Chan) : State :=
  s.setProc p { s.proc p with state := .sleeping, chan := some chan }

/-! ## `fork` -/

/-- `allocproc`, called by `p`: the first unused slot becomes an embryo.  What follows the
release of the lock fails in `forkFail` or does not. -/
def allocproc (s : State) (p : Nat) : State :=
  match firstFrom (fun q => decide ((s.proc q).state = .unused)) NPROC 0 with
  | none => s
  | some np =>
      { (s.setProc np { s.proc np with state := .embryo, pid := s.nextpid }).goto p
          (.forking np false) with
        nextpid := succInt s.nextpid
        births := s.births + 1
        inc := Function.update s.inc np s.births
        kills := Function.update s.kills np []
        faulted := Function.update s.faulted np false }

/-- No page for the kernel stack, or `copyuvm` failed: `np->state = UNUSED`. -/
def forkFail (s : State) (p np : Nat) : State :=
  (s.setProc np { s.proc np with state := .unused }).goto p .user

/-- `np->parent = proc`. -/
def forkCopy (s : State) (p np : Nat) : State :=
  { (s.setProc np { s.proc np with parent := some p }).goto p (.forking np true) with
    parentInc := Function.update s.parentInc np (s.inc p)
    bornTo := Function.update s.bornTo (s.inc np) (s.inc p) }

/-- `np->state = RUNNABLE`. -/
def forkDone (s : State) (p np : Nat) : State :=
  ((s.setProc np { s.proc np with state := .runnable }).goto np .user).goto p .user

/-! ## `exit` and `wait` -/

/-- One round of the loop of `exit`, for slot `q`. -/
def passOn (p : Nat) (s : State) (q : Nat) : State :=
  if (s.proc q).parent = some p then
    let s := { s.setProc q { s.proc q with parent := some s.initproc } with
      parentInc := Function.update s.parentInc q (s.inc s.initproc) }
    if (s.proc q).state = .zombie then s.wakeup1 (some (.proc s.initproc)) else s
  else s

/-- `exit`, once the process has closed its files. -/
def exit (s : State) (p : Nat) : State :=
  let s := s.wakeup1 ((s.proc p).parent.map .proc)
  let s := (List.range NPROC).foldl (passOn p) s
  { s.setProc p { s.proc p with state := .zombie } with exited := s.exited ++ [s.inc p] }

/-- What the scan of `wait` finds: a zombie child, no reason to wait, or neither. -/
inductive WaitScan where
  | found (q : Nat)
  | fail
  | again
  deriving DecidableEq, Repr

/-- The scan of `wait`. -/
def waitScan (s : State) (p : Nat) : WaitScan :=
  match firstFrom (fun q => decide ((s.proc q).parent = some p ∧ (s.proc q).state = .zombie))
      NPROC 0 with
  | some q => .found q
  | none =>
      if (firstFrom (fun q => decide ((s.proc q).parent = some p)) NPROC 0).isNone
          ∨ (s.proc p).killed = true then .fail
      else .again

/-- One round of the loop of `wait`. -/
def wait (s : State) (p : Nat) : State :=
  match s.waitScan p with
  | .found q =>
      { (s.setProc q { s.proc q with
          state := .unused, pid := 0, parent := none, killed := false }).goto p .user with
        reaped := s.reaped ++ [(s.inc q, s.inc p)] }
  | .fail => s.goto p .user
  | .again => (s.sleep p (.proc p)).goto p .waiting

/-! ## `kill` -/

/-- The slot `kill` finds: the first with this number in its `pid` field. -/
def target (s : State) (pid : Int) : Option Nat :=
  firstFrom (fun q => decide ((s.proc q).pid = pid)) NPROC 0

/-- `kill`. -/
def kill (s : State) (pid : Int) : State :=
  let s := { s with kills := fun q => pid :: s.kills q }
  match s.target pid with
  | none => s
  | some q =>
      s.setProc q { s.proc q with
        killed := true
        state := if (s.proc q).state = .sleeping then .runnable else (s.proc q).state }

/-- Its return value. -/
def killReturn (s : State) (pid : Int) : Int := if (s.target pid).isSome then 0 else -1

end State

/-! ## Interleavings -/

/-- What can happen next. -/
inductive Act where
  | fork (p : Nat)
  | forkFail (p : Nat)
  | forkCopy (p : Nat)
  | forkDone (p : Nat)
  | exit (p : Nat)
  | wait (p : Nat)
  | kill (pid : Int)
  | run (p : Nat)
  | yield (p : Nat)
  | sleep (p c : Nat)
  | wakeup (c : Nat)
  | fault (p : Nat)

/-- What it does, if it is possible: only a running process runs, and it does what comes
next where it is.  A process that is scheduled again clears `chan` at the end of `sleep`. -/
def Act.exec (s : State) : Act → Option State
  | .fork p =>
      if (s.proc p).state = .running ∧ s.pc p = .user then some (s.allocproc p) else none
  | .forkFail p =>
      match s.pc p with
      | .forking np false =>
          if (s.proc p).state = .running then some (s.forkFail p np) else none
      | _ => none
  | .forkCopy p =>
      match s.pc p with
      | .forking np false =>
          if (s.proc p).state = .running then some (s.forkCopy p np) else none
      | _ => none
  | .forkDone p =>
      match s.pc p with
      | .forking np true =>
          if (s.proc p).state = .running then some (s.forkDone p np) else none
      | _ => none
  | .exit p =>
      if (s.proc p).state = .running ∧ s.pc p = .user ∧ p ≠ s.initproc then some (s.exit p)
      else none
  | .wait p =>
      if (s.proc p).state = .running ∧ (s.pc p = .user ∨ s.pc p = .waiting) then some (s.wait p)
      else none
  | .kill pid => some (s.kill pid)
  | .run p =>
      if (s.proc p).state = .runnable then
        some (s.setProc p { s.proc p with state := .running, chan := none })
      else none
  | .yield p =>
      if (s.proc p).state = .running then some (s.setProc p { s.proc p with state := .runnable })
      else none
  | .sleep p c =>
      if (s.proc p).state = .running ∧ s.pc p = .user then some (s.sleep p (.other c)) else none
  | .wakeup c => some (s.wakeup1 (some (.other c)))
  | .fault p =>
      if (s.proc p).state = .running ∧ s.pc p = .user then
        some { s.setProc p { s.proc p with killed := true } with
          faulted := Function.update s.faulted p true }
      else none

/-- When an act is possible, and what it leads to. -/
def Act.Leads (s s' : State) : Act → Prop
  | .fork p => (s.proc p).state = .running ∧ s.pc p = .user ∧ s' = s.allocproc p
  | .forkFail p => ∃ np, s.pc p = .forking np false ∧ s' = s.forkFail p np
  | .forkCopy p => ∃ np, s.pc p = .forking np false ∧ s' = s.forkCopy p np
  | .forkDone p => ∃ np, s.pc p = .forking np true ∧ s' = s.forkDone p np
  | .exit p => (s.proc p).state = .running ∧ s.pc p = .user ∧ p ≠ s.initproc ∧ s' = s.exit p
  | .wait p => (s.proc p).state = .running ∧ (s.pc p = .user ∨ s.pc p = .waiting) ∧ s' = s.wait p
  | .kill pid => s' = s.kill pid
  | .run p => (s.proc p).state = .runnable ∧
      s' = s.setProc p { s.proc p with state := .running, chan := none }
  | .yield p => (s.proc p).state = .running ∧
      s' = s.setProc p { s.proc p with state := .runnable }
  | .sleep p c => (s.proc p).state = .running ∧ s.pc p = .user ∧ s' = s.sleep p (.other c)
  | .wakeup c => s' = s.wakeup1 (some (.other c))
  | .fault p => (s.proc p).state = .running ∧ s.pc p = .user ∧
      s' = { s.setProc p { s.proc p with killed := true } with
        faulted := Function.update s.faulted p true }

theorem Act.leads {s s' : State} {a : Act} (h : a.exec s = some s') : a.Leads s s' := by
  cases a <;> simp only [Act.exec] at h <;> try split at h
  all_goals grind [Act.Leads]

/-- The states that acts meeting `ok` lead to, in any order. -/
abbrev Steps (ok : State → Act → Prop) : State → State → Prop := Reaches Act.exec ok

end Xv6.Kernel.Ptable
