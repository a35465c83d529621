import Xv6.Kernel.File
import Xv6.Verified.Prog

/-!
# Acts of a kernel thread

A system call is a program over these acts.  An act is what a process does
without another process seeing the middle of it: it runs under the inode's lock
and, if it writes, inside the one open transaction, or under the spin lock of
the cache or table it changes.  `ilock` and `begin_trans` are where a process
waits for others.
-/

namespace Xv6.Kernel

open Xv6.Verified
open Exec

/-- What a system call does, step by step. -/
inductive Act where
  | beginTrans
  | commitTrans
  | iget (inum : Nat)
  | idupCwd
  | ilock (ip : Nat)
  | iunlock (ip : Nat)
  | stat (ip : Nat)
  | iputCheck (ip : Nat)
  | iputFree (ip : Nat)
  | readi (ip off n : Nat)
  | writei (ip : Nat) (src : List UInt8) (off : Nat)
  | bumpNlink (ip : Nat) (δ : Int)
  | initInode (ip : Nat) (major minor : Int)
  | ialloc (type : InodeType)
  | panic (m : Panic)
  | fdfile (fd : Nat)
  | fdoffset (fd : Nat)
  | fdadvance (fd r : Nat)
  | fdclose (fd : Nat)
  | fileopen (ip omode : Nat)
  | cwd
  | setCwd (ip : Option Nat)
  | allocproc
  | setState (c : Nat) (s : ProcState)
  | forkFd (c fd : Nat)
  | forkCwd (c : Nat)
  | exitCheck
  | exitProc

namespace Act

/-- What each act answers. -/
abbrev Res : Act → Type
  | idupCwd => Nat
  | stat _ => Dinode
  | iputCheck _ => Bool
  | readi _ _ _ => Option (List UInt8)
  | writei _ _ _ => Int
  | ialloc _ => Nat
  | panic _ => Empty
  | fdfile _ => Option File
  | fdoffset _ => Nat
  | fdclose _ => Option (Option Nat)
  | fileopen _ _ => Option Nat
  | cwd => Nat
  | allocproc => Option Nat
  | _ => Unit

/-- The kernel function behind an act.  Offsets and lengths are `uint`. -/
def code : (a : Act) → K a.Res
  | beginTrans => Kernel.beginTrans
  | commitTrans => Kernel.commitTrans
  | iget inum => Kernel.iget inum
  | idupCwd => Kernel.idupCwd
  | ilock ip => Kernel.ilock ip
  | iunlock ip => Kernel.iunlock ip
  | stat ip => do
      let k ← get
      return k.icopy ip
  | iputCheck ip => Kernel.iputCheck ip
  | iputFree ip => Kernel.iputFree ip
  | readi ip off n => Kernel.readi ip (off % UINT) (n % UINT)
  | writei ip src off =>
      Kernel.writei ip (fun o => src.getD o 0) (off % UINT) (src.length % UINT)
  | bumpNlink ip δ => Kernel.bumpNlink ip δ
  | initInode ip major minor => Kernel.initInode ip major minor
  | ialloc type => Kernel.ialloc type
  | panic m => Kernel.panic m
  | fdfile fd => Kernel.fdfile fd
  | fdoffset fd => Kernel.fdoffset fd
  | fdadvance fd r => Kernel.fdadvance fd r
  | fdclose fd => Kernel.fdclose fd
  | fileopen ip omode => Kernel.fileopen ip omode
  | cwd => Kernel.cwd
  | setCwd ip => Kernel.setCwd ip
  | allocproc => Kernel.allocproc
  | setState c s => Kernel.setState c s
  | forkFd c fd => Kernel.forkFd c fd
  | forkCwd c => Kernel.forkCwd c
  | exitCheck => Kernel.exitCheck
  | exitProc => do
      let k ← get
      Kernel.setState k.cur .zombie

/-- Process `p` performs act `a`: only a live process runs. -/
def exec (p : Nat) (a : Act) : K a.Res := do
  let k ← get
  if (k.ptable p).state = .live then do
    modify fun k => { k with cur := p }
    a.code
  else stop .blocked

end Act

/-- A program of the kernel. -/
abbrev Prog := Verified.Prog Act Act.Res

/-! ## Acts as programs -/

namespace Sys

/-- Perform one act. -/
def act (a : Act) : Prog a.Res := Prog.perform a

/-- `panic` inside a program. -/
def panic {α : Type} (m : Panic) : Prog α := .act (.panic m) Empty.elim

/-- `iput`. -/
def iput (ip : Nat) : Prog Unit := do
  if ← act (.iputCheck ip) then act (.iputFree ip) else pure ()

/-- `iunlockput`. -/
def iunlockput (ip : Nat) : Prog Unit := do
  act (.iunlock ip)
  iput ip

end Sys

end Xv6.Kernel
