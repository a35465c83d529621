import Xv6.Kernel.Layout
import Xv6.Verified.RingBuffer
import Xv6.Verified.Transitions

/-!
# Pipes

`kernel/pipe.c`: a ring of `PIPESIZE` bytes, its counters `nread` and `nwrite`, and the two
flags that say which ends are open, under one lock.  Any number of processes are in
`pipewrite`, `piperead` or `pipeclose` at a time; `Pc` is where a process is in that code,
and a step takes it to the next test, assignment, `wakeup`, `acquire` or `release`.

* `sleep` gives up the lock and marks the process in one critical section of
  `ptable.lock`, so it is one step; so is `wakeup`, and so is `kill`.
* A process that was woken, or killed, runs on with `acquire` at the end of `sleep`.
* A call of `pipewrite` has a number, and `sent` lists the bytes put into the ring with the
  numbers of their calls; `got` lists the bytes taken out.

A process that has an end open keeps `pipeclose` from freeing the page, so the page is
there as long as a call is under way; the runs here are not restricted to such.

## Main results

* `Inv.steps`: the ring holds what was sent and not yet taken out.
* `pipe_fifo`: bytes come out as they went in, those of each call and each process in their
  order, and an end of file is reported only when nothing is left.
-/

namespace Xv6.Kernel.Pipe

open Xv6.Verified

/-- `PIPESIZE`. -/
abbrev PIPESIZE : Nat := 1024

/-- What a process can sleep on: `&p->nread` and `&p->nwrite`. -/
inductive Chan where
  | nread
  | nwrite
  deriving DecidableEq, Repr

/-- A call `pipewrite(p, addr, n)` of process `proc`. -/
structure Call where
  proc : Nat
  n : Int
  addr : Nat → UInt8

/-- Where a process is.  In `pipewrite`, `c` is the call, `i` the loop variable and `i₀` the
value it had when the process last acquired the lock; in `piperead`, `n` is the length. -/
inductive Pc where
  | idle
  | writeAcquire (c : Nat)
  | writeLoop (c i i₀ : Nat)
  | writeFull (c i i₀ : Nat)
  | writeWake (c i i₀ : Nat)
  | writeSleep (c i : Nat)
  | writeRelock (c i : Nat)
  | writeDone (c i : Nat)
  | writeReturn (c i : Nat) (r : Int)
  | readAcquire (n : Int)
  | readTest (n : Int)
  | readEmpty (n : Int)
  | readSleep (n : Int)
  | readRelock (n : Int)
  | readLoop (n : Int) (i : Nat)
  | readDone (n : Int) (i : Nat)
  | readReturn (n : Int) (r : Int)
  | closeAcquire (writable : Bool)
  | closeMark (writable : Bool)
  | closeWake (writable : Bool)
  | closeRelease
  deriving DecidableEq

/-- The pipe and the processes that use it. -/
structure State where
  data : Nat → UInt8
  nread : Nat
  nwrite : Nat
  readopen : Bool
  writeopen : Bool
  lock : Option Nat
  asleep : Nat → Option Chan
  killed : Nat → Bool
  pc : Nat → Pc
  calls : List Call
  sent : List (Nat × UInt8)
  got : List UInt8

/-- `pipealloc`: the ring as `kalloc` left it, both ends open. -/
def pipealloc (data : Nat → UInt8) : State where
  data := data
  nread := 0
  nwrite := 0
  readopen := true
  writeopen := true
  lock := none
  asleep _ := none
  killed _ := false
  pc _ := .idle
  calls := []
  sent := []
  got := []

/-! ## The code -/

namespace State

/-- `p->nread == p->nwrite`. -/
def Empty (s : State) : Prop := s.nread = s.nwrite

/-- `p->nwrite == p->nread + PIPESIZE`. -/
def Full (s : State) : Prop := s.nwrite = (s.nread + PIPESIZE) % UINT

instance (s : State) : Decidable s.Empty := inferInstanceAs (Decidable (_ = _))

instance (s : State) : Decidable s.Full := inferInstanceAs (Decidable (_ = _))

/-- Process `q` goes on at `l`. -/
def goto (s : State) (q : Nat) (l : Pc) : State := { s with pc := Function.update s.pc q l }

/-- `acquire(&p->lock)`. -/
def acquire (s : State) (q : Nat) (l : Pc) : Option State :=
  if s.lock = none then some { s.goto q l with lock := some q } else none

/-- `release(&p->lock)`, and the call returns. -/
def release (s : State) (q : Nat) : State := { s.goto q .idle with lock := none }

/-- `sleep(chan, &p->lock)`, up to the point where the process is woken. -/
def sleep (s : State) (q : Nat) (chan : Chan) (l : Pc) : State :=
  { s.goto q l with lock := none, asleep := Function.update s.asleep q (some chan) }

/-- `wakeup(chan)`. -/
def wakeup (s : State) (chan : Chan) : State :=
  { s with asleep := fun q => if s.asleep q = some chan then none else s.asleep q }

/-- `p->data[p->nwrite++ % PIPESIZE] = addr[i]`, of call `c`. -/
def enqueue (s : State) (c : Nat) (x : UInt8) : State :=
  { s with
    data := Function.update s.data (s.nwrite % PIPESIZE) x
    nwrite := (s.nwrite + 1) % UINT
    sent := s.sent ++ [(c, x)] }

/-- `addr[i] = p->data[p->nread++ % PIPESIZE]`. -/
def dequeue (s : State) : State :=
  { s with
    nread := (s.nread + 1) % UINT
    got := s.got ++ [s.data (s.nread % PIPESIZE)] }

/-- The bytes put into the ring so far. -/
def bytes (s : State) : List UInt8 := s.sent.map Prod.snd

/-- The bytes of call `c` among them. -/
def bytesOf (s : State) (c : Nat) : List UInt8 :=
  (s.sent.filter fun x => x.1 = c).map Prod.snd

/-- The calls that put the bytes of process `q` into the ring, byte for byte. -/
def callsOf (s : State) (q : Nat) : List Nat :=
  (s.sent.filter fun x => s.calls[x.1]?.map Call.proc = some q).map Prod.fst

/-- The next step of `pipewrite`. -/
def write (s : State) (q : Nat) (call : Call) : Pc → Option State
  | .writeAcquire c => s.acquire q (.writeLoop c 0 0)
  | .writeLoop c i i₀ =>
      if (i : Int) < call.n then
        if s.Full then some (s.goto q (.writeFull c i i₀))
        else some ((s.enqueue c (call.addr i)).goto q (.writeLoop c (i + 1) i₀))
      else some (s.goto q (.writeDone c i))
  | .writeFull c i i₀ =>
      if s.readopen = false ∨ s.killed q = true then some (s.goto q (.writeReturn c i (-1)))
      else some (s.goto q (.writeWake c i i₀))
  | .writeWake c i _ => some ((s.wakeup .nread).goto q (.writeSleep c i))
  | .writeSleep c i => some (s.sleep q .nwrite (.writeRelock c i))
  | .writeRelock c i => s.acquire q (.writeLoop c i i)
  | .writeDone c i => some ((s.wakeup .nread).goto q (.writeReturn c i call.n))
  | .writeReturn _ _ _ => some (s.release q)
  | _ => none

/-- The next step of `piperead`. -/
def read (s : State) (q : Nat) : Pc → Option State
  | .readAcquire n => s.acquire q (.readTest n)
  | .readTest n =>
      if s.Empty ∧ s.writeopen = true then some (s.goto q (.readEmpty n))
      else some (s.goto q (.readLoop n 0))
  | .readEmpty n =>
      if s.killed q = true then some (s.goto q (.readReturn n (-1)))
      else some (s.goto q (.readSleep n))
  | .readSleep n => some (s.sleep q .nread (.readRelock n))
  | .readRelock n => s.acquire q (.readTest n)
  | .readLoop n i =>
      if (i : Int) < n then
        if s.Empty then some (s.goto q (.readDone n i))
        else some (s.dequeue.goto q (.readLoop n (i + 1)))
      else some (s.goto q (.readDone n i))
  | .readDone n i => some ((s.wakeup .nwrite).goto q (.readReturn n i))
  | .readReturn _ _ => some (s.release q)
  | _ => none

/-- The next step of `pipeclose`. -/
def close (s : State) (q : Nat) : Pc → Option State
  | .closeAcquire writable => s.acquire q (.closeMark writable)
  | .closeMark true => some ({ s with writeopen := false }.goto q (.closeWake true))
  | .closeMark false => some ({ s with readopen := false }.goto q (.closeWake false))
  | .closeWake true => some ((s.wakeup .nread).goto q .closeRelease)
  | .closeWake false => some ((s.wakeup .nwrite).goto q .closeRelease)
  | .closeRelease => some (s.release q)
  | _ => none

end State

/-- The call a process is in, if it is in `pipewrite`, and its loop variable. -/
def Pc.writing : Pc → Option (Nat × Nat)
  | .writeAcquire c => some (c, 0)
  | .writeLoop c i _ => some (c, i)
  | .writeFull c i _ => some (c, i)
  | .writeWake c i _ => some (c, i)
  | .writeSleep c i => some (c, i)
  | .writeRelock c i => some (c, i)
  | .writeDone c i => some (c, i)
  | .writeReturn c i _ => some (c, i)
  | _ => none

/-- The next step of process `q`, unless it sleeps or is in no call. -/
def State.next (s : State) (q : Nat) : Option State :=
  if s.asleep q ≠ none then none
  else
    match (s.pc q).writing with
    | some (c, _) => s.calls[c]?.bind fun call => s.write q call (s.pc q)
    | none => (s.read q (s.pc q)).or (s.close q (s.pc q))

/-! ## Interleavings -/

/-- What can happen next: a process calls `pipewrite`, `piperead` or `pipeclose`, takes a
step, or is killed. -/
inductive Act where
  | write (q : Nat) (n : Int) (addr : Nat → UInt8)
  | read (q : Nat) (n : Int)
  | close (q : Nat) (writable : Bool)
  | next (q : Nat)
  | kill (q : Nat)

/-- `kill`: a process that sleeps is made to run. -/
def State.kill (s : State) (q : Nat) : State :=
  { s with
    killed := Function.update s.killed q true
    asleep := Function.update s.asleep q none }

/-- What the act does, if it is possible: a process is in one call at a time. -/
def Act.exec (s : State) : Act → Option State
  | .write q n addr =>
      match s.pc q with
      | .idle => some { s.goto q (.writeAcquire s.calls.length) with
          calls := s.calls ++ [⟨q, n, addr⟩] }
      | _ => none
  | .read q n =>
      match s.pc q with
      | .idle => some (s.goto q (.readAcquire n))
      | _ => none
  | .close q writable =>
      match s.pc q with
      | .idle => some (s.goto q (.closeAcquire writable))
      | _ => none
  | .next q => s.next q
  | .kill q => some (s.kill q)

/-- The states that acts meeting `ok` lead to, in any order. -/
abbrev Steps (ok : State → Act → Prop) : State → State → Prop := Reaches Act.exec ok

/-! ## What a step does -/

/-- The process acquires the lock. -/
inductive Acquires : Pc → Pc → Prop
  | write (c : Nat) : Acquires (.writeAcquire c) (.writeLoop c 0 0)
  | rewrite (c i : Nat) : Acquires (.writeRelock c i) (.writeLoop c i i)
  | read (n : Int) : Acquires (.readAcquire n) (.readTest n)
  | reread (n : Int) : Acquires (.readRelock n) (.readTest n)
  | close (w : Bool) : Acquires (.closeAcquire w) (.closeMark w)

/-- A test. -/
inductive Moves (s : State) (q : Nat) : Pc → Pc → Prop
  | full (c i i₀ : Nat) (h : s.Full) : Moves s q (.writeLoop c i i₀) (.writeFull c i i₀)
  | written (c i i₀ : Nat) : Moves s q (.writeLoop c i i₀) (.writeDone c i)
  | giveUp (c i i₀ : Nat) (h : s.readopen = false ∨ s.killed q = true) :
      Moves s q (.writeFull c i i₀) (.writeReturn c i (-1))
  | stay (c i i₀ : Nat) (h : s.readopen = true) :
      Moves s q (.writeFull c i i₀) (.writeWake c i i₀)
  | empty (n : Int) (h : s.Empty) (hopen : s.writeopen = true) :
      Moves s q (.readTest n) (.readEmpty n)
  | go (n : Int) (h : ¬(s.Empty ∧ s.writeopen = true)) : Moves s q (.readTest n) (.readLoop n 0)
  | leave (n : Int) : Moves s q (.readEmpty n) (.readReturn n (-1))
  | wait (n : Int) : Moves s q (.readEmpty n) (.readSleep n)
  | out (n : Int) (i : Nat) (h : s.Empty) : Moves s q (.readLoop n i) (.readDone n i)
  | enough (n : Int) (i : Nat) (h : n ≤ i) : Moves s q (.readLoop n i) (.readDone n i)

/-- `wakeup`. -/
inductive Wakes : Pc → Chan → Pc → Prop
  | full (c i i₀ : Nat) : Wakes (.writeWake c i i₀) .nread (.writeSleep c i)
  | written (c i : Nat) (r : Int) : Wakes (.writeDone c i) .nread (.writeReturn c i r)
  | read (n : Int) (i : Nat) : Wakes (.readDone n i) .nwrite (.readReturn n i)
  | closeWrite : Wakes (.closeWake true) .nread .closeRelease
  | closeRead : Wakes (.closeWake false) .nwrite .closeRelease

/-- `sleep`. -/
inductive Sleeps : Pc → Chan → Pc → Prop
  | write (c i : Nat) : Sleeps (.writeSleep c i) .nwrite (.writeRelock c i)
  | read (n : Int) : Sleeps (.readSleep n) .nread (.readRelock n)

/-- `release`, and the call returns. -/
inductive Returns : Pc → Prop
  | write (c i : Nat) (r : Int) : Returns (.writeReturn c i r)
  | read (n r : Int) : Returns (.readReturn n r)
  | close : Returns .closeRelease

/-- `pipeclose` clears the flag of one end. -/
def State.mark (s : State) (writable : Bool) : State :=
  { s with readopen := s.readopen && writable, writeopen := s.writeopen && !writable }

/-- A step of process `q`. -/
inductive Step (s : State) (q : Nat) : State → Prop
  | acquire {l l' : Pc} (hpc : s.pc q = l) (hgo : Acquires l l') (hfree : s.lock = none) :
      Step s q { s.goto q l' with lock := some q }
  | move {l l' : Pc} (hpc : s.pc q = l) (hgo : Moves s q l l') : Step s q (s.goto q l')
  | enqueue {c i i₀ : Nat} {call : Call} (hpc : s.pc q = .writeLoop c i i₀)
      (hcall : s.calls[c]? = some call) (hi : (i : Int) < call.n) (hroom : ¬s.Full) :
      Step s q ((s.enqueue c (call.addr i)).goto q (.writeLoop c (i + 1) i₀))
  | dequeue {n : Int} {i : Nat} (hpc : s.pc q = .readLoop n i) (hsome : ¬s.Empty) :
      Step s q (s.dequeue.goto q (.readLoop n (i + 1)))
  | wakeup {l l' : Pc} {chan : Chan} (hpc : s.pc q = l) (hgo : Wakes l chan l') :
      Step s q ((s.wakeup chan).goto q l')
  | sleep {l l' : Pc} {chan : Chan} (hpc : s.pc q = l) (hgo : Sleeps l chan l') :
      Step s q (s.sleep q chan l')
  | mark {w : Bool} (hpc : s.pc q = .closeMark w) : Step s q ((s.mark w).goto q (.closeWake w))
  | release {l : Pc} (hpc : s.pc q = l) (hgo : Returns l) : Step s q (s.release q)

theorem Step.of_acquire {s s' : State} {q : Nat} {l l' : Pc} (hpc : s.pc q = l)
    (hgo : Acquires l l') (h : s.acquire q l' = some s') : Step s q s' := by
  unfold State.acquire at h
  split at h
  · rename_i hfree
    cases h
    exact .acquire hpc hgo hfree
  · cases h

theorem Step.of_write {s s' : State} {q c i : Nat} {call : Call}
    (hw : (s.pc q).writing = some (c, i)) (hcall : s.calls[c]? = some call)
    (h : s.write q call (s.pc q) = some s') : Step s q s' := by
  cases hpc : s.pc q with
  | idle | readAcquire | readTest | readEmpty | readSleep | readRelock | readLoop | readDone
  | readReturn | closeAcquire | closeMark | closeWake | closeRelease =>
      rw [hpc] at hw
      cases hw
  | writeAcquire c =>
      rw [hpc] at h
      exact .of_acquire hpc (.write c) h
  | writeLoop c' i' i₀ =>
      rw [hpc] at h hw
      cases hw
      simp only [State.write] at h
      split at h
      · rename_i hi
        split at h
        · rename_i hfull
          cases h
          exact .move hpc (.full c i i₀ hfull)
        · rename_i hroom
          cases h
          exact .enqueue hpc hcall hi hroom
      · cases h
        exact .move hpc (.written c i i₀)
  | writeFull c i i₀ =>
      rw [hpc] at h
      simp only [State.write] at h
      split at h
      · rename_i hgive
        cases h
        exact .move hpc (.giveUp c i i₀ hgive)
      · rename_i hstay
        cases h
        exact .move hpc (.stay c i i₀ (by simpa using fun h => hstay (.inl h)))
  | writeWake c i i₀ =>
      rw [hpc] at h
      cases h
      exact .wakeup hpc (.full c i i₀)
  | writeSleep c i =>
      rw [hpc] at h
      cases h
      exact .sleep hpc (.write c i)
  | writeRelock c i =>
      rw [hpc] at h
      exact .of_acquire hpc (.rewrite c i) h
  | writeDone c i =>
      rw [hpc] at h
      cases h
      exact .wakeup hpc (.written c i call.n)
  | writeReturn c i r =>
      rw [hpc] at h
      cases h
      exact .release hpc (.write c i r)

theorem Step.of_read {s s' : State} {q : Nat} (h : s.read q (s.pc q) = some s') :
    Step s q s' := by
  cases hpc : s.pc q with
  | idle | writeAcquire | writeLoop | writeFull | writeWake | writeSleep | writeRelock
  | writeDone | writeReturn | closeAcquire | closeMark | closeWake | closeRelease =>
      rw [hpc] at h
      cases h
  | readAcquire n =>
      rw [hpc] at h
      exact .of_acquire hpc (.read n) h
  | readTest n =>
      rw [hpc] at h
      simp only [State.read] at h
      split at h
      · rename_i hempty
        cases h
        exact .move hpc (.empty n hempty.1 hempty.2)
      · rename_i hgo
        cases h
        exact .move hpc (.go n hgo)
  | readEmpty n =>
      rw [hpc] at h
      simp only [State.read] at h
      split at h
      · cases h
        exact .move hpc (.leave n)
      · cases h
        exact .move hpc (.wait n)
  | readSleep n =>
      rw [hpc] at h
      cases h
      exact .sleep hpc (.read n)
  | readRelock n =>
      rw [hpc] at h
      exact .of_acquire hpc (.reread n) h
  | readLoop n i =>
      rw [hpc] at h
      simp only [State.read] at h
      split at h
      · split at h
        · rename_i hempty
          cases h
          exact .move hpc (.out n i hempty)
        · rename_i hsome
          cases h
          exact .dequeue hpc hsome
      · rename_i hi
        cases h
        exact .move hpc (.enough n i (by omega))
  | readDone n i =>
      rw [hpc] at h
      cases h
      exact .wakeup hpc (.read n i)
  | readReturn n r =>
      rw [hpc] at h
      cases h
      exact .release hpc (.read n r)

theorem Step.of_close {s s' : State} {q : Nat} (h : s.close q (s.pc q) = some s') :
    Step s q s' := by
  cases hpc : s.pc q with
  | idle | writeAcquire | writeLoop | writeFull | writeWake | writeSleep | writeRelock
  | writeDone | writeReturn | readAcquire | readTest | readEmpty | readSleep | readRelock
  | readLoop | readDone | readReturn =>
      rw [hpc] at h
      cases h
  | closeAcquire w =>
      rw [hpc] at h
      exact .of_acquire hpc (.close w) h
  | closeMark w =>
      rw [hpc] at h
      have hmark : s' = (s.mark w).goto q (.closeWake w) := by
        cases w <;> cases h <;> simp [State.mark]
      rw [hmark]
      exact .mark hpc
  | closeWake w =>
      rw [hpc] at h
      cases w with
      | true =>
          cases h
          exact .wakeup hpc .closeWrite
      | false =>
          cases h
          exact .wakeup hpc .closeRead
  | closeRelease =>
      rw [hpc] at h
      cases h
      exact .release hpc .close

/-- Every step of a process is one of these, and the process is awake. -/
theorem Step.of_next {s s' : State} {q : Nat} (h : s.next q = some s') :
    s.asleep q = none ∧ Step s q s' := by
  unfold State.next at h
  split at h
  · cases h
  · rename_i hawake
    refine ⟨by simpa using hawake, ?_⟩
    split at h
    · rename_i c i hw
      obtain ⟨call, hcall, hwrite⟩ := Option.bind_eq_some_iff.1 h
      exact .of_write hw hcall hwrite
    · rcases Option.or_eq_some_iff.1 h with hread | ⟨-, hclose⟩
      · exact .of_read hread
      · exact .of_close hclose

/-! ## The lock -/

/-- The process has the lock. -/
def Pc.holding : Pc → Bool
  | .idle => false
  | .writeAcquire _ => false
  | .writeRelock _ _ => false
  | .readAcquire _ => false
  | .readRelock _ => false
  | .closeAcquire _ => false
  | _ => true

/-- The lock is held by the process whose place in the code says so. -/
def State.Locked (s : State) : Prop := ∀ q, s.lock = some q ↔ (s.pc q).holding = true

/-- What a step does to the lock. -/
inductive LockStep (s : State) (q : Nat) (l' : Pc) (s' : State) : Prop
  | keep (h : (s.pc q).holding = true) (h' : l'.holding = true) (hlock : s'.lock = s.lock)
  | take (h : (s.pc q).holding = false) (h' : l'.holding = true) (hfree : s.lock = none)
      (hlock : s'.lock = some q)
  | give (h : (s.pc q).holding = true) (h' : l'.holding = false) (hlock : s'.lock = none)

section Step

variable {s s' : State} {q : Nat}

theorem Step.lockStep (h : Step s q s') :
    ∃ l', s'.pc = Function.update s.pc q l' ∧ LockStep s q l' s' := by
  cases h with
  | acquire hpc hgo hfree =>
      refine ⟨_, rfl, ?_⟩
      cases hgo <;> exact .take (by rw [hpc]; rfl) rfl hfree rfl
  | move hpc hgo =>
      refine ⟨_, rfl, ?_⟩
      cases hgo <;> exact .keep (by rw [hpc]; rfl) rfl rfl
  | enqueue hpc => exact ⟨_, rfl, .keep (by rw [hpc]; rfl) rfl rfl⟩
  | dequeue hpc => exact ⟨_, rfl, .keep (by rw [hpc]; rfl) rfl rfl⟩
  | wakeup hpc hgo =>
      refine ⟨_, rfl, ?_⟩
      cases hgo <;> exact .keep (by rw [hpc]; rfl) rfl rfl
  | sleep hpc hgo =>
      refine ⟨_, rfl, ?_⟩
      cases hgo <;> exact .give (by rw [hpc]; rfl) rfl rfl
  | mark hpc => exact ⟨_, rfl, .keep (by rw [hpc]; rfl) rfl rfl⟩
  | release hpc hgo =>
      refine ⟨_, rfl, ?_⟩
      cases hgo <;> exact .give (by rw [hpc]; rfl) rfl rfl

theorem State.Locked.step (h : s.Locked) (hs : Step s q s') : s'.Locked := by
  obtain ⟨l', hpc, hlock⟩ := hs.lockStep
  intro q'
  rw [hpc]
  by_cases hq : q' = q
  · subst hq
    rw [Function.update_self]
    cases hlock with
    | keep hl hl' heq => rw [heq, h q', hl, hl']
    | take hl hl' hfree heq => rw [heq, hl']; simp
    | give hl hl' heq => rw [heq, hl']; simp
  · rw [Function.update_of_ne hq, ← h q']
    cases hlock with
    | keep hl hl' heq => rw [heq]
    | take hl hl' hfree heq =>
        rw [heq, hfree]
        simp [Ne.symm hq]
    | give hl hl' heq =>
        rw [heq, (h q).2 hl]
        simp [Ne.symm hq]

/-- While a process takes a step, no other process has the lock. -/
theorem State.Locked.others (h : s.Locked) (hs : Step s q s') {q' : Nat} (hq : q' ≠ q) :
    (s.pc q').holding = false := by
  obtain ⟨l', -, hlock⟩ := hs.lockStep
  by_contra hhold
  have hq' : s.lock = some q' := (h q').2 (by simpa using hhold)
  cases hlock with
  | keep hl =>
      rw [(h q).2 hl] at hq'
      exact hq (Option.some.inj hq').symm
  | take _ _ hfree =>
      rw [hfree] at hq'
      cases hq'
  | give hl =>
      rw [(h q).2 hl] at hq'
      exact hq (Option.some.inj hq').symm

/-! ## What a process knows while it has the lock -/

/-- What the tests that led to a place in the code have found, as long as the lock is
held. -/
def State.Knows (s : State) : Pc → Prop
  | .writeLoop _ i i₀ => i₀ ≤ i
  | .writeFull _ _ _ => s.Full
  | .writeWake _ _ _ => s.Full ∧ s.readopen = true
  | .writeSleep _ _ => s.Full ∧ s.readopen = true
  | .readEmpty _ => s.Empty ∧ s.writeopen = true
  | .readSleep _ => s.Empty ∧ s.writeopen = true
  | .readLoop _ i => i = 0 → ¬(s.Empty ∧ s.writeopen = true)
  | .readDone n i => i = 0 → 0 < n → s.Empty ∧ s.writeopen = false
  | .readReturn n r => r = 0 → 0 < n → s.Empty ∧ s.writeopen = false
  | _ => True

theorem State.knows_of_not_holding {l : Pc} (h : l.holding = false) : s.Knows l := by
  cases l with
  | idle | writeAcquire | writeRelock | readAcquire | readRelock | closeAcquire => trivial
  | writeLoop | writeFull | writeWake | writeSleep | writeDone | writeReturn | readTest
  | readEmpty | readSleep | readLoop | readDone | readReturn | closeMark | closeWake
  | closeRelease => cases h

/-- What a process knows is about the counters and the flags. -/
theorem State.Knows.congr {l : Pc} (h : s.Knows l) (hread : s'.nread = s.nread)
    (hwrite : s'.nwrite = s.nwrite) (hropen : s'.readopen = s.readopen)
    (hwopen : s'.writeopen = s.writeopen) : s'.Knows l := by
  cases l <;>
    simp only [State.Knows, State.Full, State.Empty, hread, hwrite, hropen, hwopen] at h ⊢ <;>
    exact h

theorem State.knows_at {f : Nat → Pc} {l : Pc} (hpc : s.pc = Function.update f q l)
    (h : s.Knows l) : s.Knows (s.pc q) := by
  rw [hpc, Function.update_self]
  exact h

/-- The tests found what they say. -/
theorem Step.knows (hs : Step s q s') (h : s.Knows (s.pc q)) : s'.Knows (s'.pc q) := by
  cases hs with
  | acquire hpc hgo hfree =>
      refine State.knows_at rfl ?_
      cases hgo with
      | write => exact Nat.le_refl 0
      | rewrite c i => exact Nat.le_refl i
      | read => trivial
      | reread => trivial
      | close => trivial
  | move hpc hgo =>
      rw [hpc] at h
      refine State.knows_at rfl ?_
      cases hgo with
      | full c i i₀ hfull => exact hfull
      | written => trivial
      | giveUp => trivial
      | stay c i i₀ hopen => exact ⟨h, hopen⟩
      | empty n hempty hopen => exact ⟨hempty, hopen⟩
      | go n hgo => exact fun _ => hgo
      | leave n => exact fun hr => absurd hr (by decide)
      | wait n => exact h
      | out n i hempty =>
          intro hi _
          refine ⟨hempty, ?_⟩
          cases hopen : s.writeopen with
          | false => exact hopen
          | true => exact absurd ⟨hempty, hopen⟩ (h hi)
      | enough n i hle =>
          intro hi hpos
          omega
  | enqueue hpc =>
      rw [hpc] at h
      exact State.knows_at rfl (Nat.le_succ_of_le h)
  | dequeue hpc => exact State.knows_at rfl fun hi => absurd hi (Nat.succ_ne_zero _)
  | wakeup hpc hgo =>
      rw [hpc] at h
      refine State.knows_at rfl ?_
      cases hgo with
      | full => exact h
      | written => trivial
      | read n i => exact fun hr => h (by omega)
      | closeWrite => trivial
      | closeRead => trivial
  | sleep hpc hgo =>
      refine State.knows_at rfl ?_
      cases hgo <;> trivial
  | mark hpc => exact State.knows_at rfl trivial
  | release hpc hgo => exact State.knows_at rfl trivial

/-- The processes know what they know along every step: no other process has the lock
meanwhile. -/
theorem Step.all_know (hs : Step s q s') (hlocked : s.Locked) (h : ∀ q, s.Knows (s.pc q)) :
    ∀ q', s'.Knows (s'.pc q') := by
  intro q'
  by_cases hq : q' = q
  · rw [hq]
    exact hs.knows (h q)
  · obtain ⟨l', hpc, -⟩ := hs.lockStep
    rw [hpc, Function.update_of_ne hq]
    exact State.knows_of_not_holding (hlocked.others hs hq)

end Step

/-! ## The ring and the calls -/

/-- Byte `i` of the call is `addr[i]`, for `i` below `k`. -/
def Call.bytes (call : Call) (k : Nat) : List UInt8 := (List.range k).map call.addr

/-- What has been put into the ring, call by call. -/
structure Sent (s : State) : Prop where
  /-- The bytes of a call are its first ones, in order. -/
  calls : ∀ c call, s.calls[c]? = some call →
    ∃ k : Nat, (k : Int) ≤ max 0 call.n ∧ s.bytesOf c = call.bytes k
  known : ∀ x, x ∈ s.sent → x.1 < s.calls.length
  /-- A process's bytes come call after call. -/
  sorted : ∀ q, (s.callsOf q).Pairwise (· ≤ ·)
  /-- The process that is in a call has put in as many of its bytes as its loop variable
  says, and has made no later call. -/
  active : ∀ q c i, (s.pc q).writing = some (c, i) → ∃ call, s.calls[c]? = some call ∧
    call.proc = q ∧ s.bytesOf c = call.bytes i ∧
    ∀ c' call', s.calls[c']? = some call' → call'.proc = q → c' ≤ c

/-- The invariant. -/
structure Inv (s : State) : Prop where
  locked : s.Locked
  knows : ∀ q, s.Knows (s.pc q)
  ring : Buffers PIPESIZE UINT s.data s.nread s.nwrite s.bytes s.got.length
  order : s.got = s.bytes.take s.got.length
  sent : Sent s

section Inv

variable {s s' : State} {q : Nat}

theorem Inv.empty_iff (h : Inv s) : s.Empty ↔ s.bytes.length = s.got.length :=
  h.ring.empty_iff (by decide)

theorem Inv.full_iff (h : Inv s) : s.Full ↔ s.bytes.length = s.got.length + PIPESIZE :=
  h.ring.full_iff (by decide)

theorem pipealloc_inv (data : Nat → UInt8) : Inv (pipealloc data) where
  locked q := by simp [pipealloc, Pc.holding]
  knows q := trivial
  ring := Buffers.nil _ _ _
  order := rfl
  sent := by
    refine ⟨?_, ?_, ?_, ?_⟩
    · intro c call h
      cases h
    · intro x h
      cases h
    · intro q
      exact List.Pairwise.nil
    · intro q c i h
      cases h

/-- What a step does to the ring. -/
inductive RingStep (s : State) (q : Nat) (s' : State) : Prop
  | keep (hdata : s'.data = s.data) (hread : s'.nread = s.nread) (hwrite : s'.nwrite = s.nwrite)
      (hsent : s'.sent = s.sent) (hgot : s'.got = s.got)
      (hwriting : ∀ c i, (s'.pc q).writing = some (c, i) → (s.pc q).writing = some (c, i))
  | put {c i : Nat} {call : Call} (hcall : s.calls[c]? = some call) (hi : (i : Int) < call.n)
      (hroom : ¬s.Full) (hwriting : (s.pc q).writing = some (c, i))
      (hdata : s'.data = Function.update s.data (s.nwrite % PIPESIZE) (call.addr i))
      (hread : s'.nread = s.nread) (hwrite : s'.nwrite = (s.nwrite + 1) % UINT)
      (hsent : s'.sent = s.sent ++ [(c, call.addr i)]) (hgot : s'.got = s.got)
      (hwriting' : (s'.pc q).writing = some (c, i + 1))
  | take (hsome : ¬s.Empty) (hdata : s'.data = s.data) (hread : s'.nread = (s.nread + 1) % UINT)
      (hwrite : s'.nwrite = s.nwrite) (hsent : s'.sent = s.sent)
      (hgot : s'.got = s.got ++ [s.data (s.nread % PIPESIZE)])
      (hwriting : (s'.pc q).writing = none)

theorem Step.ringStep (h : Step s q s') : RingStep s q s' ∧ s'.calls = s.calls := by
  have hself : ∀ {t : State} {l : Pc}, t.pc = Function.update s.pc q l → t.pc q = l := by
    intro t l ht
    rw [ht, Function.update_self]
  cases h with
  | acquire hpc hgo hfree =>
      refine ⟨.keep rfl rfl rfl rfl rfl fun c i hw => ?_, rfl⟩
      rw [hself rfl] at hw
      rw [hpc]
      cases hgo <;> exact hw
  | move hpc hgo =>
      refine ⟨.keep rfl rfl rfl rfl rfl fun c i hw => ?_, rfl⟩
      rw [hself rfl] at hw
      rw [hpc]
      cases hgo <;> exact hw
  | enqueue hpc hcall hi hroom =>
      refine ⟨.put hcall hi hroom (by rw [hpc]; rfl) rfl rfl rfl rfl rfl ?_, rfl⟩
      rw [hself rfl]
      rfl
  | dequeue hpc hsome =>
      refine ⟨.take hsome rfl rfl rfl rfl rfl ?_, rfl⟩
      rw [hself rfl]
      rfl
  | wakeup hpc hgo =>
      refine ⟨.keep rfl rfl rfl rfl rfl fun c i hw => ?_, rfl⟩
      rw [hself rfl] at hw
      rw [hpc]
      cases hgo <;> exact hw
  | sleep hpc hgo =>
      refine ⟨.keep rfl rfl rfl rfl rfl fun c i hw => ?_, rfl⟩
      rw [hself rfl] at hw
      rw [hpc]
      cases hgo <;> exact hw
  | mark hpc =>
      refine ⟨.keep rfl rfl rfl rfl rfl fun c i hw => ?_, rfl⟩
      rw [hself rfl] at hw
      cases hw
  | release hpc hgo =>
      refine ⟨.keep rfl rfl rfl rfl rfl fun c i hw => ?_, rfl⟩
      rw [hself rfl] at hw
      cases hw

theorem Call.bytes_succ (call : Call) (k : Nat) :
    call.bytes (k + 1) = call.bytes k ++ [call.addr k] := by
  rw [Call.bytes, List.range_succ, List.map_append]
  rfl

theorem bytesOf_congr (hsent : s'.sent = s.sent) (c : Nat) : s'.bytesOf c = s.bytesOf c := by
  unfold State.bytesOf
  rw [hsent]

theorem bytesOf_append {c c' : Nat} {x : UInt8} (hsent : s'.sent = s.sent ++ [(c, x)]) :
    s'.bytesOf c' = if c' = c then s.bytesOf c' ++ [x] else s.bytesOf c' := by
  unfold State.bytesOf
  rw [hsent, List.filter_append, List.map_append]
  split
  · rename_i heq
    rw [heq, List.filter_cons_of_pos (by simp)]
    rfl
  · rename_i hne
    rw [List.filter_cons_of_neg (by simpa using Ne.symm hne), List.filter_nil, List.map_nil,
      List.append_nil]

/-- The bytes of process `q` are those of calls that it made. -/
theorem mem_callsOf {c : Nat} (h : c ∈ s.callsOf q) :
    ∃ call, s.calls[c]? = some call ∧ call.proc = q := by
  obtain ⟨x, hx, rfl⟩ := List.mem_map.1 h
  have hproc := (List.mem_filter.1 hx).2
  rw [decide_eq_true_eq] at hproc
  obtain ⟨call, hcall, hq⟩ := Option.map_eq_some_iff.1 hproc
  exact ⟨call, hcall, hq⟩

/-- A step that puts nothing into the ring. -/
theorem Sent.keep (h : Sent s) (hsent : s'.sent = s.sent) (hcalls : s'.calls = s.calls)
    (hwriting : ∀ q c i, (s'.pc q).writing = some (c, i) → (s.pc q).writing = some (c, i)) :
    Sent s' := by
  have hof : ∀ q, s'.callsOf q = s.callsOf q := by
    intro q
    unfold State.callsOf
    rw [hsent, hcalls]
  refine ⟨?_, ?_, ?_, ?_⟩
  · intro c call hcall
    rw [hcalls] at hcall
    rw [bytesOf_congr hsent]
    exact h.calls c call hcall
  · intro x hx
    rw [hsent] at hx
    rw [hcalls]
    exact h.known x hx
  · intro q
    rw [hof]
    exact h.sorted q
  · intro q c i hw
    rw [hcalls, bytesOf_congr hsent]
    exact h.active q c i (hwriting q c i hw)

/-- A process puts in the next byte of its call. -/
theorem Sent.put (h : Sent s) {c i : Nat} {call : Call} (hcall : s.calls[c]? = some call)
    (hi : (i : Int) < call.n) (hwriting : (s.pc q).writing = some (c, i))
    (hsent : s'.sent = s.sent ++ [(c, call.addr i)]) (hcalls : s'.calls = s.calls)
    (hwriting' : (s'.pc q).writing = some (c, i + 1))
    (hothers : ∀ q', q' ≠ q → s'.pc q' = s.pc q') : Sent s' := by
  obtain ⟨call', hcall', hproc, hbytes, hlatest⟩ := h.active q c i hwriting
  rw [hcall] at hcall'
  cases hcall'
  have hnew : s'.bytesOf c = call.bytes (i + 1) := by
    rw [bytesOf_append hsent, if_pos rfl, hbytes, Call.bytes_succ]
  refine ⟨?_, ?_, ?_, ?_⟩
  · intro c' call' hcall'
    rw [hcalls] at hcall'
    by_cases hc : c' = c
    · subst hc
      rw [hcall] at hcall'
      cases hcall'
      exact ⟨i + 1, by omega, hnew⟩
    · rw [bytesOf_append hsent, if_neg hc]
      exact h.calls c' call' hcall'
  · intro x hx
    rw [hsent, List.mem_append, List.mem_singleton] at hx
    rw [hcalls]
    rcases hx with hx | rfl
    · exact h.known x hx
    · exact (List.getElem?_eq_some_iff.1 hcall).1
  · intro q'
    have hsplit : s'.callsOf q' = s.callsOf q' ++ if call.proc = q' then [c] else [] := by
      unfold State.callsOf
      rw [hsent, hcalls, List.filter_append, List.map_append]
      split
      · rename_i heq
        rw [List.filter_cons_of_pos (by simp [hcall, heq])]
        rfl
      · rename_i hne
        rw [List.filter_cons_of_neg (by simp [hcall, hne])]
        rfl
    rw [hsplit, List.pairwise_append]
    refine ⟨h.sorted q', ?_, ?_⟩
    · split
      · exact List.pairwise_singleton _ _
      · exact List.Pairwise.nil
    · intro c₁ hc₁ c₂ hc₂
      split at hc₂
      · rename_i heq
        rw [List.mem_singleton.1 hc₂]
        obtain ⟨call₁, hcall₁, hproc₁⟩ := mem_callsOf hc₁
        exact hlatest c₁ call₁ hcall₁ (by rw [hproc₁, ← heq, hproc])
      · cases hc₂
  · intro q' c' i' hw
    rw [hcalls]
    by_cases hq : q' = q
    · subst hq
      rw [hwriting'] at hw
      cases hw
      exact ⟨call, hcall, hproc, hnew, hlatest⟩
    · rw [hothers q' hq] at hw
      obtain ⟨call', hcall', hproc', hbytes', hlatest'⟩ := h.active q' c' i' hw
      refine ⟨call', hcall', hproc', ?_, hlatest'⟩
      have hne : c' ≠ c := by
        rintro rfl
        rw [hcall] at hcall'
        cases hcall'
        exact hq (hproc'.symm.trans hproc)
      rw [bytesOf_append hsent, if_neg hne]
      exact hbytes'

/-- A new call of `pipewrite`. -/
theorem Sent.call (h : Sent s) (q : Nat) (n : Int) (addr : Nat → UInt8) :
    Sent { s.goto q (.writeAcquire s.calls.length) with calls := s.calls ++ [⟨q, n, addr⟩] } := by
  have hold : ∀ {c : Nat}, c < s.calls.length → (s.calls ++ [⟨q, n, addr⟩])[c]? = s.calls[c]? := by
    intro c hc
    exact List.getElem?_append_left hc
  have hcases : ∀ {c : Nat} {call : Call}, (s.calls ++ [⟨q, n, addr⟩])[c]? = some call →
      s.calls[c]? = some call ∨ c = s.calls.length ∧ call = ⟨q, n, addr⟩ := by
    intro c call hcall
    rcases Nat.lt_or_ge c s.calls.length with hlt | hge
    · rw [hold hlt] at hcall
      exact .inl hcall
    · rw [List.getElem?_append_right hge] at hcall
      obtain ⟨hlen, heq⟩ := List.getElem?_eq_some_iff.1 hcall
      rw [List.length_singleton] at hlen
      refine .inr ⟨by omega, ?_⟩
      rw [← heq]
      simp
  have hempty : s.bytesOf s.calls.length = [] := by
    unfold State.bytesOf
    rw [List.filter_eq_nil_iff.2, List.map_nil]
    intro x hx
    have := h.known x hx
    simpa using Nat.ne_of_lt this
  have hof : ∀ q', State.callsOf { s.goto q (.writeAcquire s.calls.length) with
      calls := s.calls ++ [⟨q, n, addr⟩] } q' = s.callsOf q' := by
    intro q'
    unfold State.callsOf
    refine congrArg _ (List.filter_congr fun x hx => ?_)
    simp only [hold (h.known x hx)]
  refine ⟨?_, ?_, ?_, ?_⟩
  · intro c call hcall
    rcases hcases hcall with hc | ⟨rfl, rfl⟩
    · exact h.calls c call hc
    · exact ⟨0, Int.le_max_left _ _, hempty⟩
  · intro x hx
    rw [List.length_append]
    exact Nat.lt_add_right _ (h.known x hx)
  · intro q'
    rw [hof]
    exact h.sorted q'
  · intro q' c i hw
    by_cases hq : q' = q
    · subst hq
      simp only [State.goto, Function.update_self] at hw
      cases hw
      refine ⟨⟨q', n, addr⟩, ?_, rfl, hempty, ?_⟩
      · rw [List.getElem?_append_right (Nat.le_refl _), Nat.sub_self]
        rfl
      · intro c' call' hcall' _
        have := (List.getElem?_eq_some_iff.1 hcall').1
        rw [List.length_append, List.length_singleton] at this
        omega
    · simp only [State.goto, Function.update_of_ne hq] at hw
      obtain ⟨call, hcall, hproc, hbytes, hlatest⟩ := h.active q' c i hw
      refine ⟨call, ?_, hproc, hbytes, ?_⟩
      · rw [hold (List.getElem?_eq_some_iff.1 hcall).1]
        exact hcall
      · intro c' call' hcall' hproc'
        rcases hcases hcall' with hc | ⟨-, rfl⟩
        · exact hlatest c' call' hc hproc'
        · exact absurd hproc'.symm hq

theorem Sent.step (h : Sent s) (hs : Step s q s') : Sent s' := by
  obtain ⟨hring, hcalls⟩ := hs.ringStep
  obtain ⟨l', hpc, -⟩ := hs.lockStep
  have hothers : ∀ q', q' ≠ q → s'.pc q' = s.pc q' := by
    intro q' hq
    rw [hpc, Function.update_of_ne hq]
  cases hring with
  | keep _ _ _ hsent _ hwriting =>
      refine h.keep hsent hcalls fun q' c i hw => ?_
      by_cases hq : q' = q
      · subst hq
        exact hwriting c i hw
      · rw [hothers q' hq] at hw
        exact hw
  | put hcall hi _ hwriting _ _ _ hsent _ hwriting' =>
      exact h.put hcall hi hwriting hsent hcalls hwriting' hothers
  | take _ _ _ _ hsent _ hwriting =>
      refine h.keep hsent hcalls fun q' c i hw => ?_
      by_cases hq : q' = q
      · subst hq
        rw [hwriting] at hw
        cases hw
      · rw [hothers q' hq] at hw
        exact hw

/-- A step of a process keeps the invariant. -/
theorem Inv.step (h : Inv s) (hs : Step s q s') : Inv s' := by
  have hbytes : s'.sent = s.sent → s'.bytes = s.bytes := by
    intro hsent
    unfold State.bytes
    rw [hsent]
  have hboth : Buffers PIPESIZE UINT s'.data s'.nread s'.nwrite s'.bytes s'.got.length ∧
      s'.got = s'.bytes.take s'.got.length := by
    cases hs.ringStep.1 with
    | keep hdata hread hwrite hsent hgot =>
        rw [hdata, hread, hwrite, hbytes hsent, hgot]
        exact ⟨h.ring, h.order⟩
    | @put c i call hcall hi hroom _ hdata hread hwrite hsent hgot =>
        have happend : s'.bytes = s.bytes ++ [call.addr i] := by
          unfold State.bytes
          rw [hsent, List.map_append]
          rfl
        rw [hdata, hread, hwrite, happend, hgot]
        rw [h.full_iff] at hroom
        refine ⟨h.ring.put (by decide) hroom _, ?_⟩
        rw [List.take_append_of_le_length h.ring.taken]
        exact h.order
    | take hsome hdata hread hwrite hsent hgot =>
        rw [h.empty_iff] at hsome
        obtain ⟨hnext, hrest⟩ := h.ring.take (by decide) hsome
        have hlen : s'.got.length = s.got.length + 1 := by
          rw [hgot, List.length_append, List.length_singleton]
        rw [hdata, hread, hwrite, hbytes hsent, hlen]
        refine ⟨hrest, ?_⟩
        rw [hgot, List.take_add_one, hnext, ← h.order]
        rfl
  exact ⟨h.locked.step hs, hs.all_know h.locked h.knows, hboth.1, hboth.2, h.sent.step hs⟩

/-- A process that is in no call starts one: it does not have the lock. -/
theorem Inv.goto (h : Inv s) (hidle : s.pc q = .idle) {l : Pc} (hl : l.holding = false)
    (hsent : Sent s') (hpc : s'.pc = Function.update s.pc q l) (hlock : s'.lock = s.lock)
    (hring : s'.data = s.data ∧ s'.nread = s.nread ∧ s'.nwrite = s.nwrite ∧ s'.sent = s.sent ∧
      s'.got = s.got ∧ s'.readopen = s.readopen ∧ s'.writeopen = s.writeopen) : Inv s' := by
  obtain ⟨hdata, hread, hwrite, hsnt, hgot, hropen, hwopen⟩ := hring
  have hbytes : s'.bytes = s.bytes := by
    unfold State.bytes
    rw [hsnt]
  refine ⟨?_, ?_, ?_, ?_, hsent⟩
  · intro q'
    rw [hlock, h.locked q', hpc]
    by_cases hq : q' = q
    · rw [hq, Function.update_self, hl, hidle]
      rfl
    · rw [Function.update_of_ne hq]
  · intro q'
    by_cases hq : q' = q
    · rw [hq, hpc, Function.update_self]
      exact State.knows_of_not_holding hl
    · have hold := h.knows q'
      rw [hpc, Function.update_of_ne hq]
      exact hold.congr hread hwrite hropen hwopen
  · rw [hdata, hread, hwrite, hbytes, hgot]
    exact h.ring
  · rw [hbytes, hgot]
    exact h.order

theorem writing_goto {l : Pc} (hl : l.writing = none) (q' c i : Nat)
    (hw : ((s.goto q l).pc q').writing = some (c, i)) : (s.pc q').writing = some (c, i) := by
  by_cases hq : q' = q
  · simp only [State.goto, hq, Function.update_self, hl] at hw
    cases hw
  · simp only [State.goto, Function.update_of_ne hq] at hw
    exact hw

/-- Whatever happens keeps the invariant. -/
theorem Inv.act (h : Inv s) {a : Act} (hexec : a.exec s = some s') : Inv s' := by
  cases a with
  | write q n addr =>
      simp only [Act.exec] at hexec
      split at hexec
      · rename_i hidle
        cases hexec
        exact h.goto hidle (l := .writeAcquire s.calls.length) rfl (h.sent.call q n addr) rfl rfl
          ⟨rfl, rfl, rfl, rfl, rfl, rfl, rfl⟩
      · cases hexec
  | read q n =>
      simp only [Act.exec] at hexec
      split at hexec
      · rename_i hidle
        cases hexec
        exact h.goto hidle (l := .readAcquire n) rfl
          (h.sent.keep rfl rfl (writing_goto (l := .readAcquire n) rfl)) rfl rfl
          ⟨rfl, rfl, rfl, rfl, rfl, rfl, rfl⟩
      · cases hexec
  | close q w =>
      simp only [Act.exec] at hexec
      split at hexec
      · rename_i hidle
        cases hexec
        exact h.goto hidle (l := .closeAcquire w) rfl
          (h.sent.keep rfl rfl (writing_goto (l := .closeAcquire w) rfl)) rfl rfl
          ⟨rfl, rfl, rfl, rfl, rfl, rfl, rfl⟩
      · cases hexec
  | next q => exact h.step (Step.of_next hexec).2
  | kill q =>
      cases hexec
      exact ⟨h.locked, h.knows, h.ring, h.order, h.sent.keep rfl rfl fun _ _ _ hw => hw⟩

end Inv

theorem Inv.steps {ok : State → Act → Prop} {s s' : State} (h : Inv s) (hs : Steps ok s s') :
    Inv s' :=
  hs.inv (fun _ _ _ h _ hexec => h.act hexec) h

/-- The difference of the counters is the number of bytes in the ring. -/
theorem Inv.difference {s : State} (h : Inv s) :
    (s.nwrite + (UINT - s.nread)) % UINT = s.bytes.length - s.got.length := by
  have htaken := h.ring.taken
  have hroom := h.ring.room
  have hread := h.ring.reader
  have hwrite := h.ring.writer
  simp only [UINT, PIPESIZE] at *
  omega

/-- **Pipes are first in, first out.**  In every interleaving of calls, closes and kills:
the counters differ by at most `PIPESIZE` modulo 2^32; what the readers got is the first
part of what the writers put in; each call's bytes are put in in its order, and a process's
calls one after the other; and a `piperead` of a positive length returns 0 only if the write
end is closed and everything was taken out. -/
theorem pipe_fifo {data : Nat → UInt8} {s : State}
    (hs : Steps (fun _ _ => True) (pipealloc data) s) :
    (s.nwrite + (UINT - s.nread)) % UINT ≤ PIPESIZE ∧
    s.got <+: s.bytes ∧
    (∀ c call, s.calls[c]? = some call →
      ∃ k : Nat, (k : Int) ≤ max 0 call.n ∧ s.bytesOf c = call.bytes k) ∧
    (∀ q, (s.callsOf q).Pairwise (· ≤ ·)) ∧
    ∀ q n, s.pc q = .readReturn n 0 → 0 < n → s.writeopen = false ∧ s.got = s.bytes := by
  have h := (pipealloc_inv data).steps hs
  refine ⟨?_, ?_, h.sent.calls, h.sent.sorted, ?_⟩
  · rw [h.difference]
    have := h.ring.room
    omega
  · rw [h.order]
    exact List.take_prefix _ _
  · intro q n hpc hpos
    have hknows := h.knows q
    rw [hpc] at hknows
    obtain ⟨hempty, hclosed⟩ := hknows rfl hpos
    refine ⟨hclosed, ?_⟩
    rw [h.order, ← h.empty_iff.1 hempty, List.take_length]

/-- Process 0 writes the bytes 65 and 66 and closes its end, process 1 reads one of them
and then asks for three more. -/
def twoBytes : List Act :=
  .write 0 2 (fun i => UInt8.ofNat (65 + i)) :: List.replicate 6 (.next 0) ++
    .read 1 1 :: List.replicate 6 (.next 1) ++
    .close 0 true :: List.replicate 4 (.next 0) ++
    .read 1 3 :: List.replicate 6 (.next 1) ++
    .read 1 3 :: List.replicate 4 (.next 1)

theorem pipe_fifo_two_bytes : ∃ s, Steps (fun _ _ => True) (pipealloc fun _ => 0) s ∧
    s.pc 1 = .readReturn 3 0 ∧ s.writeopen = false ∧ s.got = [65, 66] ∧ s.got = s.bytes := by
  have hrun : ∃ s ∈ runActs Act.exec (fun _ _ => True) twoBytes (pipealloc fun _ => 0),
      s.pc 1 = .readReturn 3 0 ∧ s.got = [65, 66] := by
    decide +kernel
  obtain ⟨s, hs, hpc, hgot⟩ := hrun
  have hsteps := Reaches.of_runActs _ hs
  obtain ⟨hclosed, hall⟩ := (pipe_fifo hsteps).2.2.2.2 1 3 hpc (by decide)
  exact ⟨s, hsteps, hpc, hclosed, hgot, hall⟩

end Xv6.Kernel.Pipe
