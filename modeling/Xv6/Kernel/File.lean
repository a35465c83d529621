import Xv6.Kernel.Fs

/-!
# Open files and processes

The parts of `kernel/file.c`, `kernel/sysfile.c` and `kernel/proc.c` that read
and write the file table and the process table.  A process's own `ofile` and
`cwd` are touched by no other process, so what a function does to them and to
the file table between two points where it can sleep is one step here.
-/

namespace Xv6.Kernel

open Xv6.Verified
open Exec

/-! ## The file table -/

/-- `filealloc`. -/
def filealloc : K (Option Nat) := do
  let k ← get
  match (List.range NFILE).find? fun f => (k.ftable f).ref = 0 with
  | none => return none
  | some f => do
      modify fun k => k.setFile f { k.ftable f with ref := 1 }
      return some f

/-- `fdalloc`. -/
def fdalloc (f : Nat) : K (Option Nat) := do
  let k ← get
  match (List.range NOFILE).find? fun fd => (k.proc.ofile fd).isNone with
  | none => return none
  | some fd => do
      modify fun k => k.setProc k.cur (k.proc.setFd fd (some f))
      return some fd

/-- `filedup`. -/
def filedup (f : Nat) : K Unit := do
  let k ← get
  if (k.ftable f).ref < 1 then panic .filedup
  else modify fun k => k.setFile f { k.ftable f with ref := (k.ftable f).ref + 1 }

/-- The critical section of `fileclose`: the inode to give up, if this was the
last reference to a file that has one. -/
def fileclose (f : Nat) : K (Option Nat) := do
  let k ← get
  if (k.ftable f).ref < 1 then panic .fileclose
  else if 1 < (k.ftable f).ref then do
    modify fun k => k.setFile f { k.ftable f with ref := (k.ftable f).ref - 1 }
    return none
  else do
    modify fun k => k.setFile f { k.ftable f with ref := 0, kind := .none }
    return if (k.ftable f).kind = .inode then some (k.ftable f).ip else none

/-- `O_CREATE`. -/
def oCreate (omode : Nat) : Bool := omode.testBit 9

/-- `f->readable` as `sys_open` computes it. -/
def oReadable (omode : Nat) : Bool := !omode.testBit 0

/-- `f->writable` as `sys_open` computes it. -/
def oWritable (omode : Nat) : Bool := omode.testBit 0 || omode.testBit 1

/-- The file of `sys_open`: allocate it and a descriptor, fill it in; if there is
no descriptor the file is given back, and as it has no inode yet that is all. -/
def fileopen (ip omode : Nat) : K (Option Nat) := do
  match ← filealloc with
  | none => return none
  | some f => do
      match ← fdalloc f with
      | none => do
          let _ ← fileclose f
          return none
      | some fd => do
          modify fun k => k.setFile f
            { k.ftable f with
              kind := .inode
              ip := ip
              off := 0
              readable := oReadable omode
              writable := oWritable omode }
          return some fd

/-- `argfd`. -/
def argfd (fd : Nat) : K (Option Nat) := do
  let k ← get
  return if fd < NOFILE then k.proc.ofile fd else none

/-- The file behind a descriptor. -/
def fdfile (fd : Nat) : K (Option File) := do
  let k ← get
  match ← argfd fd with
  | none => return none
  | some f => return some (k.ftable f)

/-- Clear a descriptor and close its file; `none` if it is not open. -/
def fdclose (fd : Nat) : K (Option (Option Nat)) := do
  match ← argfd fd with
  | none => return none
  | some f => do
      modify fun k => k.setProc k.cur (k.proc.setFd fd none)
      let ip ← fileclose f
      return some ip

/-- `f->off` for an open descriptor. -/
def fdoffset (fd : Nat) : K Nat := do
  let k ← get
  match ← argfd fd with
  | none => stop .fault
  | some f => return (k.ftable f).off

/-- `f->off += r` for an open descriptor. -/
def fdadvance (fd r : Nat) : K Unit := do
  match ← argfd fd with
  | none => stop .fault
  | some f =>
      modify fun k => k.setFile f { k.ftable f with off := ((k.ftable f).off + r) % UINT }

/-! ## The process table -/

/-- `proc->cwd`. -/
def cwd : K Nat := do
  let k ← get
  match k.proc.cwd with
  | none => stop .fault
  | some ip => return ip

/-- `idup(proc->cwd)`. -/
def idupCwd : K Nat := do
  let ip ← cwd
  idup ip
  return ip

/-- `proc->cwd = ip`. -/
def setCwd (ip : Option Nat) : K Unit :=
  modify fun k => k.setProc k.cur { k.proc with cwd := ip }

/-- `allocproc`, up to the process's memory. -/
def allocproc : K (Option Nat) := do
  let k ← get
  match (List.range NPROC).find? fun c => (k.ptable c).state = .unused with
  | none => return none
  | some c => do
      modify fun k => k.setProc c { k.ptable c with state := .embryo }
      return some c

/-- Set the state of a process slot. -/
def setState (c : Nat) (s : ProcState) : K Unit :=
  modify fun k => k.setProc c { k.ptable c with state := s }

/-- `if (proc->ofile[fd]) np->ofile[fd] = filedup(proc->ofile[fd])`. -/
def forkFd (c fd : Nat) : K Unit := do
  let k ← get
  match k.proc.ofile fd with
  | none => pure ()
  | some f => do
      filedup f
      modify fun k => k.setProc c ((k.ptable c).setFd fd (some f))

/-- `np->cwd = idup(proc->cwd)`. -/
def forkCwd (c : Nat) : K Unit := do
  let ip ← idupCwd
  modify fun k => k.setProc c { k.ptable c with cwd := some ip }

/-- The first line of `exit`: process 0 is `initproc`. -/
def exitCheck : K Unit := do
  let k ← get
  if k.cur = 0 then panic .initExiting else pure ()

end Xv6.Kernel
