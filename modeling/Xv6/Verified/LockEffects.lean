import Mathlib.Data.Fintype.Defs
import Mathlib.Logic.Function.Basic
import Xv6.Verified.Transitions

/-!
# Lock effects

A kernel on several processors, seen through its locks.  A command acquires and releases locks,
sleeps on a lock, gives up the processor, or calls a function; what decides its branches and the
number of its rounds is left open, so every path of the code is a path here.  Each process and the
scheduler of each processor have a stack of commands they have left to do.  A processor that holds
no lock can be interrupted at any time.

A function is *blocking* if it may sleep, else *quiet*.  `effect` computes the locks that a command
leaves held, and refuses it if it sleeps while another lock is held or where there may be no
process, or calls a blocking function while a lock is held.

## Main results

* `safe_of_checked`: in a program whose functions, handlers and scheduler pass the check, whenever
  a processor comes to `sleep` or `sched` it runs a process and holds just the lock they expect.
-/

namespace Xv6.Verified.LockEffects

variable {L F I H P C : Type}

/-! ## Commands -/

/-- Code over locks `L`, functions `F` and inputs `I`. -/
inductive Cmd (L F I : Type) where
  | skip
  /-- Stop the kernel. -/
  | panic
  | acquire (l : L)
  | release (l : L)
  | sleep (l : L)
  /-- Switch from the process to the scheduler. -/
  | sched
  /-- Switch from the scheduler to a process. -/
  | swtch
  | call (f : F)
  | seq (c d : Cmd L F I)
  | either (c d : Cmd L F I)
  /-- Any number of rounds. -/
  | loop (c : Cmd L F I)
  /-- If there is a current process. -/
  | ifProc (c : Cmd L F I)
  /-- Read an input, and compare it with `i`. -/
  | ifRead (i : I) (c d : Cmd L F I)
  deriving DecidableEq

namespace Cmd

/-- One after the other. -/
def seqs : List (Cmd L F I) → Cmd L F I
  | [] => skip
  | [c] => c
  | c :: d :: cs => seq c (seqs (d :: cs))

/-- One of several branches. -/
def oneOf : List (Cmd L F I) → Cmd L F I
  | [] => panic
  | [c] => c
  | c :: d :: cs => either c (oneOf (d :: cs))

/-- A branch that may be left out. -/
def optional (c : Cmd L F I) : Cmd L F I := either c skip

/-- Calls, one after the other. -/
def calls (fs : List F) : Cmd L F I := seqs (fs.map call)

end Cmd

/-- A kernel: its functions, `sleep` for each lock, its interrupt handlers `H`, what a process does
from its first moment on, the scheduler, and the lock under which they switch. -/
structure Program (L F I H : Type) where
  body : F → Cmd L F I
  sleepBody : L → Cmd L F I
  handler : H → Cmd L F I
  process : Cmd L F I
  scheduler : Cmd L F I
  ptable : L

/-! ## Runs -/

/-- The processors `C` and the processes `P`. -/
structure System (L F I P C : Type) where
  held : C → List L
  running : C → Option P
  process : P → List (Cmd L F I)
  scheduler : C → List (Cmd L F I)

/-- What happens on a processor: its next command, with the choice it needs, or an interrupt. -/
inductive Act (I H P : Type) where
  | go
  | left
  | right
  | read (i : I)
  | interrupt (h : H)
  | run (p : P)
  deriving DecidableEq

section Steps

variable [DecidableEq L] [DecidableEq I] [DecidableEq P] [DecidableEq C]

/-- A command that leaves the processor with the same process.  Locks that are held already may be
acquired again: a kernel that panics there does less. -/
def Program.local (prog : Program L F I H) (inProcess : Bool) (h : List L) :
    List (Cmd L F I) → Act I H P → Option (List L × List (Cmd L F I))
  | k, .interrupt i => if h = [] then some (h, prog.handler i :: k) else none
  | .skip :: k, .go => some (h, k)
  | .acquire l :: k, .go => some (l :: h, k)
  | .release l :: k, .go => some (h.erase l, k)
  | .sleep l :: k, .go =>
      if inProcess = true ∧ h = [l] then some (h, prog.sleepBody l :: k) else none
  | .call f :: k, .go => some (h, prog.body f :: k)
  | .seq c d :: k, .go => some (h, c :: d :: k)
  | .either c _ :: k, .left => some (h, c :: k)
  | .either _ d :: k, .right => some (h, d :: k)
  | .loop _ :: k, .left => some (h, k)
  | .loop c :: k, .right => some (h, c :: .loop c :: k)
  | .ifProc c :: k, .go => some (h, if inProcess then c :: k else k)
  | .ifRead i c d :: k, .read j => some (h, if j = i then c :: k else d :: k)
  | _, _ => none

/-- What processor `c` has left to do. -/
def System.stack (s : System L F I P C) (c : C) : List (Cmd L F I) :=
  match s.running c with
  | some p => s.process p
  | none => s.scheduler c

/-- Set it. -/
def System.setStack (s : System L F I P C) (c : C) (k : List (Cmd L F I)) : System L F I P C :=
  match s.running c with
  | some p => { s with process := Function.update s.process p k }
  | none => { s with scheduler := Function.update s.scheduler c k }

/-- One act on one processor. -/
def Program.step [Fintype C] (prog : Program L F I H) (s : System L F I P C)
    (a : C × Act I H P) : Option (System L F I P C) :=
  match s.running a.1, s.stack a.1, a.2 with
  | some p, .sched :: k, .go =>
      if s.held a.1 = [prog.ptable] then some { s with
        running := Function.update s.running a.1 none
        process := Function.update s.process p k }
      else none
  | none, .swtch :: k, .run p =>
      if ∀ c, s.running c ≠ some p then some { s with
        running := Function.update s.running a.1 (some p)
        scheduler := Function.update s.scheduler a.1 k }
      else none
  | r, k, act => (prog.local r.isSome (s.held a.1) k act).map fun x =>
      { s.setStack a.1 x.2 with held := Function.update s.held a.1 x.1 }

/-- All processors are in the scheduler, and all processes at their start. -/
def Program.boot (prog : Program L F I H) : System L F I P C where
  held _ := []
  running _ := none
  process _ := [prog.process]
  scheduler _ := [prog.scheduler]

/-- Whoever comes to `sleep` is a process that holds just this lock, and whoever comes to `sched`
one that holds just `ptable`. -/
structure Safe (ptable : L) (s : System L F I P C) : Prop where
  sleep : ∀ c l k, s.stack c = .sleep l :: k → s.running c ≠ none ∧ s.held c = [l]
  sched : ∀ c k, s.stack c = .sched :: k → s.running c ≠ none ∧ s.held c = [ptable]

end Steps

/-! ## The check -/

/-- What is known where a command runs: nothing of the locks of its callers; that they hold none;
or this, and that there is a process. -/
inductive Mode where
  | quiet
  | idle
  | process
  deriving DecidableEq

/-- The outcome: refused, never reached, or the locks that are held. -/
inductive Out (L : Type) where
  | bad
  | dead
  | held (h : List L)
  deriving DecidableEq

namespace Out

variable {o o' : Out L} {Q : List L → Prop}

/-- `Q` holds of the locks that are held afterwards. -/
def Then (o : Out L) (Q : List L → Prop) : Prop :=
  match o with
  | bad => False
  | dead => True
  | held h => Q h

/-- Go on. -/
def bind (o : Out L) (f : List L → Out L) : Out L :=
  match o with
  | bad => bad
  | dead => dead
  | held h => f h

/-- Either of two. -/
def join [DecidableEq L] : Out L → Out L → Out L
  | bad, _ => bad
  | _, bad => bad
  | dead, o => o
  | o, dead => o
  | held h, held h' => if h = h' then held h else bad

/-- The locks held are `h`, if it gets there. -/
def Ends [DecidableEq L] (o : Out L) (h : List L) : Bool := o = dead ∨ o = held h

theorem Then.imp {R : List L → Prop} (h : o.Then Q) (hQ : ∀ x, Q x → R x) : o.Then R := by
  cases o with
  | bad => exact h
  | dead => trivial
  | held x => exact hQ x h

theorem then_bind {f : List L → Out L} (h : (o.bind f).Then Q) : o.Then fun x => (f x).Then Q := by
  cases o with
  | bad => exact h
  | dead => trivial
  | held x => exact h

theorem then_join [DecidableEq L] (h : (o.join o').Then Q) : o.Then Q ∧ o'.Then Q := by
  cases o with
  | bad => exact h.elim
  | dead =>
      cases o' with
      | bad => exact h.elim
      | dead => exact ⟨trivial, trivial⟩
      | held x => exact ⟨trivial, h⟩
  | held x =>
      cases o' with
      | bad => exact h.elim
      | dead => exact ⟨h, trivial⟩
      | held y =>
          rw [join] at h
          split at h
          · rename_i hxy
            subst hxy
            exact ⟨h, h⟩
          · exact h.elim

theorem Ends.then [DecidableEq L] {h : List L} (he : o.Ends h = true) (hQ : Q h) : o.Then Q := by
  rw [Ends, decide_eq_true_eq] at he
  rcases he with rfl | rfl
  · trivial
  · exact hQ

end Out

section Check

variable [DecidableEq L]

/-- The locks that are held after a command that begins with `h`. -/
def effect (ptable : L) (blocking : F → Bool) (allowed : I → Bool) :
    Mode → Cmd L F I → List L → Out L
  | _, .skip, h => .held h
  | _, .panic, _ => .dead
  | _, .acquire l, h => .held (l :: h)
  | _, .release l, h => if l ∈ h then .held (h.erase l) else .bad
  | m, .sleep l, h => if m = .process ∧ h = [l] then .held h else .bad
  | m, .sched, h => if m = .process ∧ h = [ptable] then .held h else .bad
  | m, .swtch, h => if m = .idle ∧ h = [ptable] then .held h else .bad
  | m, .call f, h =>
      if blocking f then if m = .process ∧ h = [] then .held h else .bad else .held h
  | m, .seq c d, h =>
      (effect ptable blocking allowed m c h).bind (effect ptable blocking allowed m d)
  | m, .either c d, h =>
      (effect ptable blocking allowed m c h).join (effect ptable blocking allowed m d h)
  | m, .loop c, h =>
      if (effect ptable blocking allowed m c h).Ends h then .held h else .bad
  | m, .ifProc c, h =>
      if m = .quiet then .bad
      else (effect ptable blocking allowed .process c h).join (.held h)
  | m, .ifRead i c d, h =>
      if allowed i then
        (effect ptable blocking allowed m c h).join (effect ptable blocking allowed m d h)
      else effect ptable blocking allowed m d h

/-- A program passes the check. -/
structure Checked (prog : Program L F I H) (blocking : F → Bool) (allowed : I → Bool) : Prop where
  quiet : ∀ f, blocking f = false →
    (effect prog.ptable blocking allowed .quiet (prog.body f) []).Ends [] = true
  blocks : ∀ f, blocking f = true →
    (effect prog.ptable blocking allowed .process (prog.body f) []).Ends [] = true
  sleep : ∀ l, (effect prog.ptable blocking allowed .process (prog.sleepBody l) [l]).Ends [l] = true
  handler : ∀ i, (effect prog.ptable blocking allowed .idle (prog.handler i) []).Ends [] = true
  process : (effect prog.ptable blocking allowed .process prog.process [prog.ptable]).Ends [] = true
  scheduler : (effect prog.ptable blocking allowed .idle prog.scheduler []).Ends [] = true

/-! ## Soundness -/

variable {prog : Program L F I H} {blocking : F → Bool} {allowed : I → Bool} {b : Bool}

/-- The commands on a stack pass the check, one after the other, from the locks `h` on, and at the
end none is held.  Each may have been called by code that holds the locks `o`. -/
def Typed (prog : Program L F I H) (blocking : F → Bool) (allowed : I → Bool) (b : Bool) :
    List (Cmd L F I) → List L → Prop
  | [], h => h = []
  | c :: k, h => ∃ m h₀ o, h = h₀ ++ o ∧ (m = .process → b = true) ∧ (m ≠ .quiet → o = []) ∧
      (effect prog.ptable blocking allowed m c h₀).Then
        fun h' => Typed prog blocking allowed b k (h' ++ o)

theorem typed_quiet {c : Cmd L F I} {k : List (Cmd L F I)} {h : List L}
    (hc : (effect prog.ptable blocking allowed .quiet c []).Ends [] = true)
    (hk : Typed prog blocking allowed b k h) : Typed prog blocking allowed b (c :: k) h :=
  ⟨.quiet, [], h, rfl, nofun, fun hne => absurd rfl hne, Out.Ends.then hc hk⟩

theorem typed_exact {m : Mode} {c : Cmd L F I} {k : List (Cmd L F I)} {h h' : List L}
    (hm : m = .process → b = true)
    (hc : (effect prog.ptable blocking allowed m c h).Ends h' = true)
    (hk : Typed prog blocking allowed b k h') : Typed prog blocking allowed b (c :: k) h := by
  refine ⟨m, h, [], (List.append_nil h).symm, hm, fun _ => rfl, Out.Ends.then hc ?_⟩
  rw [List.append_nil]
  exact hk

/-- A process that comes to `sleep` holds just this lock. -/
theorem Typed.sleep {l : L} {k : List (Cmd L F I)} {h : List L}
    (ht : Typed prog blocking allowed b (.sleep l :: k) h) :
    b = true ∧ h = [l] ∧ Typed prog blocking allowed b k [l] := by
  obtain ⟨m, h₀, o, rfl, hm, ho, he⟩ := ht
  rw [effect] at he
  split at he
  · rename_i hcond
    obtain ⟨rfl, rfl⟩ := hcond
    obtain rfl := ho nofun
    exact ⟨hm rfl, rfl, he⟩
  · exact he.elim

theorem Typed.sched {k : List (Cmd L F I)} {h : List L}
    (ht : Typed prog blocking allowed b (.sched :: k) h) :
    b = true ∧ h = [prog.ptable] ∧ Typed prog blocking allowed b k [prog.ptable] := by
  obtain ⟨m, h₀, o, rfl, hm, ho, he⟩ := ht
  rw [effect] at he
  split at he
  · rename_i hcond
    obtain ⟨rfl, rfl⟩ := hcond
    obtain rfl := ho nofun
    exact ⟨hm rfl, rfl, he⟩
  · exact he.elim

theorem Typed.swtch {k : List (Cmd L F I)} {h : List L}
    (ht : Typed prog blocking allowed b (.swtch :: k) h) :
    h = [prog.ptable] ∧ Typed prog blocking allowed b k [prog.ptable] := by
  obtain ⟨m, h₀, o, rfl, -, ho, he⟩ := ht
  rw [effect] at he
  split at he
  · rename_i hcond
    obtain ⟨rfl, rfl⟩ := hcond
    obtain rfl := ho nofun
    exact ⟨rfl, he⟩
  · exact he.elim

/-- A step on one processor keeps its stack typed. -/
theorem Typed.local [DecidableEq I] (hprog : Checked prog blocking allowed)
    {k k' : List (Cmd L F I)} {h h' : List L} {a : Act I H P}
    (ha : ∀ i, a = .read i → allowed i = true) (ht : Typed prog blocking allowed b k h)
    (hstep : prog.local b h k a = some (h', k')) :
    Typed prog blocking allowed b k' h' := by
  unfold Program.local at hstep
  split at hstep
  -- an interrupt
  · split at hstep
    · rename_i hnone
      cases hstep
      subst hnone
      exact typed_exact (m := .idle) nofun (hprog.handler _) ht
    · cases hstep
  -- `skip`
  · cases hstep
    obtain ⟨m, h₀, o, rfl, -, -, he⟩ := ht
    exact he
  -- `acquire`
  · cases hstep
    obtain ⟨m, h₀, o, rfl, -, -, he⟩ := ht
    exact he
  -- `release`
  · cases hstep
    obtain ⟨m, h₀, o, rfl, -, -, he⟩ := ht
    rw [effect] at he
    split at he
    · rename_i hmem
      rw [List.erase_append_left _ hmem]
      exact he
    · exact he.elim
  -- `sleep`
  · split at hstep
    · cases hstep
      obtain ⟨hb, rfl, hk⟩ := ht.sleep
      exact typed_exact (fun _ => hb) (hprog.sleep _) hk
    · cases hstep
  -- `call`
  · cases hstep
    obtain ⟨m, h₀, o, rfl, hm, ho, he⟩ := ht
    rw [effect] at he
    split at he
    · rename_i hblock
      split at he
      · rename_i hcond
        obtain ⟨rfl, rfl⟩ := hcond
        obtain rfl := ho nofun
        exact typed_exact hm (hprog.blocks _ hblock) he
      · exact he.elim
    · rename_i hquiet
      exact typed_quiet (hprog.quiet _ (Bool.eq_false_iff.2 hquiet)) he
  -- `seq`
  · cases hstep
    obtain ⟨m, h₀, o, rfl, hm, ho, he⟩ := ht
    rw [effect] at he
    refine ⟨m, h₀, o, rfl, hm, ho, (Out.then_bind he).imp fun h' hd => ?_⟩
    exact ⟨m, h', o, rfl, hm, ho, hd⟩
  -- `either`, its branches
  · cases hstep
    obtain ⟨m, h₀, o, rfl, hm, ho, he⟩ := ht
    rw [effect] at he
    exact ⟨m, h₀, o, rfl, hm, ho, (Out.then_join he).1⟩
  · cases hstep
    obtain ⟨m, h₀, o, rfl, hm, ho, he⟩ := ht
    rw [effect] at he
    exact ⟨m, h₀, o, rfl, hm, ho, (Out.then_join he).2⟩
  -- `loop`, its end and a round
  · cases hstep
    obtain ⟨m, h₀, o, rfl, -, -, he⟩ := ht
    rw [effect] at he
    split at he
    · exact he
    · exact he.elim
  · cases hstep
    obtain ⟨m, h₀, o, rfl, hm, ho, he⟩ := ht
    have hloop := he
    rw [effect] at he
    split at he
    · rename_i hround
      exact ⟨m, h₀, o, rfl, hm, ho, Out.Ends.then hround ⟨m, h₀, o, rfl, hm, ho, hloop⟩⟩
    · exact he.elim
  -- `ifProc`
  · cases hstep
    obtain ⟨m, h₀, o, rfl, hm, ho, he⟩ := ht
    rw [effect] at he
    split at he
    · exact he.elim
    · rename_i hquiet
      obtain ⟨hthen, hskip⟩ := Out.then_join he
      split
      · rename_i hb
        exact ⟨.process, h₀, o, rfl, fun _ => hb, fun _ => ho hquiet, hthen⟩
      · exact hskip
  -- `ifRead`
  · rename_i i c d k j
    cases hstep
    obtain ⟨m, h₀, o, rfl, hm, ho, he⟩ := ht
    rw [effect] at he
    split at he
    · obtain ⟨hthen, helse⟩ := Out.then_join he
      split
      · exact ⟨m, h₀, o, rfl, hm, ho, hthen⟩
      · exact ⟨m, h₀, o, rfl, hm, ho, helse⟩
    · rename_i hnot
      have hne : j ≠ i := by
        rintro rfl
        exact hnot (ha j rfl)
      rw [if_neg hne]
      exact ⟨m, h₀, o, rfl, hm, ho, he⟩
  · cases hstep

/-- Everybody's stack is typed; a process that does not run, and the scheduler of a processor that
runs one, are about to go on under `ptable`. -/
structure Inv (prog : Program L F I H) (blocking : F → Bool) (allowed : I → Bool)
    (s : System L F I P C) : Prop where
  runs : ∀ c p, s.running c = some p → Typed prog blocking allowed true (s.process p) (s.held c)
  idles : ∀ c, s.running c = none → Typed prog blocking allowed false (s.scheduler c) (s.held c)
  waits : ∀ p, (∀ c, s.running c ≠ some p) →
    Typed prog blocking allowed true (s.process p) [prog.ptable]
  parks : ∀ c p, s.running c = some p →
    Typed prog blocking allowed false (s.scheduler c) [prog.ptable]
  single : ∀ c c' p, s.running c = some p → s.running c' = some p → c = c'

variable [DecidableEq C] {s s' : System L F I P C} {c : C} {p : P}
  {k : List (Cmd L F I)} {h : List L}

/-- A process gives up its processor. -/
theorem Inv.sched [DecidableEq P] (hs : Inv prog blocking allowed s) (hp : s.running c = some p)
    (hk : s.process p = .sched :: k) : Inv prog blocking allowed { s with
      running := Function.update s.running c none
      process := Function.update s.process p k } := by
  have htop := hs.runs c p hp
  rw [hk] at htop
  obtain ⟨-, hheld, htyped⟩ := htop.sched
  have hparked := hs.parks c p hp
  obtain ⟨hruns, hidles, hwaits, hparks, hsingle⟩ := hs
  refine ⟨fun c' q => ?_, fun c' => ?_, fun q => ?_, fun c' q => ?_, fun c₁ c₂ q => ?_⟩ <;>
    simp only [Function.update_apply] <;> grind

/-- The scheduler switches to a process that runs nowhere. -/
theorem Inv.swtch (hs : Inv prog blocking allowed s) (hc : s.running c = none)
    (hk : s.scheduler c = .swtch :: k) (hp : ∀ c', s.running c' ≠ some p) :
    Inv prog blocking allowed { s with
      running := Function.update s.running c (some p)
      scheduler := Function.update s.scheduler c k } := by
  have htop := hs.idles c hc
  rw [hk] at htop
  obtain ⟨hheld, htyped⟩ := htop.swtch
  obtain ⟨hruns, hidles, hwaits, hparks, hsingle⟩ := hs
  refine ⟨fun c' q => ?_, fun c' => ?_, fun q => ?_, fun c' q => ?_, fun c₁ c₂ q => ?_⟩ <;>
    simp only [Function.update_apply] <;> grind

/-- A process goes on. -/
theorem Inv.process [DecidableEq P] (hs : Inv prog blocking allowed s) (hp : s.running c = some p)
    (hk : Typed prog blocking allowed true k h) : Inv prog blocking allowed { s with
      process := Function.update s.process p k
      held := Function.update s.held c h } := by
  obtain ⟨hruns, hidles, hwaits, hparks, hsingle⟩ := hs
  refine ⟨fun c' q => ?_, fun c' => ?_, fun q => ?_, fun c' q => ?_, fun c₁ c₂ q => ?_⟩ <;>
    simp only [Function.update_apply] <;> grind

/-- A scheduler goes on. -/
theorem Inv.scheduler (hs : Inv prog blocking allowed s) (hc : s.running c = none)
    (hk : Typed prog blocking allowed false k h) : Inv prog blocking allowed { s with
      scheduler := Function.update s.scheduler c k
      held := Function.update s.held c h } := by
  obtain ⟨hruns, hidles, hwaits, hparks, hsingle⟩ := hs
  refine ⟨fun c' q => ?_, fun c' => ?_, fun q => ?_, fun c' q => ?_, fun c₁ c₂ q => ?_⟩ <;>
    simp only [Function.update_apply] <;> grind

theorem Inv.step [DecidableEq I] [DecidableEq P] [Fintype C] (hprog : Checked prog blocking allowed)
    (hs : Inv prog blocking allowed s) {a : C × Act I H P}
    (ha : ∀ i, a.2 = .read i → allowed i = true) (hstep : prog.step s a = some s') :
    Inv prog blocking allowed s' := by
  obtain ⟨c, a⟩ := a
  unfold Program.step at hstep
  dsimp only at hstep ha
  split at hstep
  · rename_i p k hp hk
    split at hstep
    · cases hstep
      simp only [System.stack, hp] at hk
      exact hs.sched hp hk
    · cases hstep
  · rename_i k p hc hk
    split at hstep
    · rename_i hfree
      cases hstep
      simp only [System.stack, hc] at hk
      exact hs.swtch hc hk hfree
    · cases hstep
  · obtain ⟨⟨h, k⟩, hlocal, rfl⟩ := Option.map_eq_some_iff.1 hstep
    cases hr : s.running c with
    | none =>
        rw [hr] at hlocal
        simp only [System.stack, hr] at hlocal
        simp only [System.setStack, hr]
        exact hs.scheduler hr ((hs.idles c hr).local hprog ha hlocal)
    | some p =>
        rw [hr] at hlocal
        simp only [System.stack, hr] at hlocal
        simp only [System.setStack, hr]
        exact hs.process hr ((hs.runs c p hr).local hprog ha hlocal)

omit [DecidableEq C] in
theorem Inv.boot (hprog : Checked prog blocking allowed) :
    Inv prog blocking allowed (prog.boot : System L F I P C) where
  runs _ _ := nofun
  idles _ _ := typed_exact (m := .idle) nofun hprog.scheduler rfl
  waits _ _ := typed_exact (fun _ => rfl) hprog.process rfl
  parks _ _ := nofun
  single _ _ _ := nofun

omit [DecidableEq C] in
theorem Inv.safe (hs : Inv prog blocking allowed s) : Safe prog.ptable s := by
  have htyped : ∀ c, Typed prog blocking allowed (s.running c).isSome (s.stack c) (s.held c) := by
    intro c
    cases hr : s.running c with
    | none =>
        simp only [System.stack, hr]
        exact hs.idles c hr
    | some p =>
        simp only [System.stack, hr]
        exact hs.runs c p hr
  refine ⟨fun c l k hk => ?_, fun c k hk => ?_⟩
  · have ht := htyped c
    rw [hk] at ht
    obtain ⟨hsome, hheld, -⟩ := ht.sleep
    exact ⟨Option.isSome_iff_ne_none.1 hsome, hheld⟩
  · have ht := htyped c
    rw [hk] at ht
    obtain ⟨hsome, hheld, -⟩ := ht.sched
    exact ⟨Option.isSome_iff_ne_none.1 hsome, hheld⟩

/-- In a checked program nobody sleeps with another lock held, or where there is no process, as long
as the inputs are allowed. -/
theorem safe_of_checked [DecidableEq I] [DecidableEq P] [Fintype C]
    (hprog : Checked prog blocking allowed)
    (hs : Reaches prog.step (fun _ (a : C × Act I H P) => ∀ i, a.2 = .read i → allowed i = true)
      prog.boot s) : Safe prog.ptable s :=
  (hs.inv (fun _ _ _ hinv ha hstep => hinv.step hprog ha hstep) (Inv.boot hprog)).safe

end Check

end Xv6.Verified.LockEffects
