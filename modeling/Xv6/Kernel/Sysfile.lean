import Xv6.Kernel.Dir

/-!
# The file-related system calls

`kernel/sysfile.c`, `fileread` and `filewrite` of `kernel/file.c`, and what
`exec`, `fork` and `exit` do with inodes and files.  A path argument is `none`
when `argstr` rejects it.
-/

namespace Xv6.Kernel

open Xv6.Verified

namespace Sys

/-! ## Reading, writing, closing -/

/-- `fileclose`, for an open descriptor; -1 if it is not open. -/
def fileclose (fd : Nat) : Prog Int := do
  match ← act (.fdclose fd) with
  | none => return -1
  | some none => return 0
  | some (some ip) => do
      act .beginTrans
      iput ip
      act .commitTrans
      return 0

/-- `f->off += r` when `r > 0`. -/
def advance (fd r : Nat) : Prog Unit :=
  if 0 < r then act (.fdadvance fd r) else pure ()

/-- `fileread`: the number of bytes read. -/
def fileread (fd : Nat) (f : File) (n : Nat) : Prog Int :=
  if f.readable = false then return -1
  else
    match f.kind with
    | .none => panic .fileread
    | .inode => do
        act (.ilock f.ip)
        let off ← act (.fdoffset fd)
        match ← act (.readi f.ip off n) with
        | none => do
            act (.iunlock f.ip)
            return -1
        | some bytes => do
            advance fd bytes.length
            act (.iunlock f.ip)
            return bytes.length

/-- `max` of `filewrite`, the bytes written in one transaction. -/
abbrev maxWrite : Nat := (LOGSIZE - 1 - 1 - 2) / 2 * BSIZE

/-- One transaction of `filewrite`. -/
def writeChunk (fd ip : Nat) (src : List UInt8) : Prog Int := do
  act .beginTrans
  act (.ilock ip)
  let off ← act (.fdoffset fd)
  let r ← act (.writei ip src off)
  advance fd r.toNat
  act (.iunlock ip)
  act .commitTrans
  return r

/-- The loop of `filewrite`: true if all of `src` was written. -/
def writeLoop (fd ip : Nat) : Nat → List UInt8 → Prog Bool
  | 0, src => return src.isEmpty
  | fuel + 1, src =>
      if src = [] then return true
      else do
        let r ← writeChunk fd ip (src.take maxWrite)
        if r < 0 then return false
        else if r ≠ (src.take maxWrite).length then panic .shortFilewrite
        else writeLoop fd ip fuel (src.drop maxWrite)

/-- `filewrite`. -/
def filewrite (fd : Nat) (f : File) (src : List UInt8) : Prog Int :=
  if f.writable = false then return -1
  else
    match f.kind with
    | .none => panic .filewrite
    | .inode => do
        if ← writeLoop fd f.ip src.length src then return src.length else return -1

/-- `sys_read`; `n` is `none` when the buffer is rejected. -/
def sysRead (fd : Nat) (n : Option Nat) : Prog Int := do
  match ← act (.fdfile fd), n with
  | some f, some n => fileread fd f n
  | _, _ => return -1

/-- `sys_write`; `src` is `none` when the buffer is rejected. -/
def sysWrite (fd : Nat) (src : Option (List UInt8)) : Prog Int := do
  match ← act (.fdfile fd), src with
  | some f, some src => filewrite fd f src
  | _, _ => return -1

/-- `sys_close`. -/
def sysClose (fd : Nat) : Prog Int := fileclose fd

/-! ## Links -/

/-- The end of `sys_link` when the new name cannot be made. -/
def linkBad (ip : Nat) : Prog Int := do
  act (.ilock ip)
  act (.bumpNlink ip (-1))
  iunlockput ip
  act .commitTrans
  return -1

/-- `sys_link`. -/
def sysLink (old new : Option (List UInt8)) : Prog Int :=
  match old, new with
  | some old, some new => do
      match ← namei old with
      | none => return -1
      | some ip => do
          act .beginTrans
          act (.ilock ip)
          let d ← act (.stat ip)
          if d.type = .dir then do
            iunlockput ip
            act .commitTrans
            return -1
          else do
            act (.bumpNlink ip 1)
            act (.iunlock ip)
            match ← nameiparent new with
            | none => linkBad ip
            | some (dp, name) => do
                act (.ilock dp)
                if ← dirlink dp name ip then do
                  iunlockput dp
                  iput ip
                  act .commitTrans
                  return 0
                else do
                  iunlockput dp
                  linkBad ip
  | _, _ => return -1

/-- The loop of `isdirempty`, with `n` entries left. -/
def isdiremptyLoop (dp : Nat) : Nat → Nat → Prog Bool
  | 0, _ => return true
  | n + 1, off => do
      let de ← readDirent dp off .isdiremptyReadi
      if direntInum de ≠ 0 then return false else isdiremptyLoop dp n (off + DIRENT)

/-- `isdirempty`: the first two entries are not looked at. -/
def isdirempty (dp : Nat) : Prog Bool := do
  let d ← act (.stat dp)
  isdiremptyLoop dp (entries d.size - 2) (2 * DIRENT)

/-- The end of `sys_unlink` when nothing can be removed. -/
def unlinkBad (dp : Nat) : Prog Int := do
  iunlockput dp
  act .commitTrans
  return -1

/-- A removed directory's ".." no longer counts for its parent. -/
def unlinkParent (dp : Nat) (type : InodeType) : Prog Unit :=
  if type = .dir then act (.bumpNlink dp (-1)) else pure ()

/-- The end of `sys_unlink`: both directory entry and link counts go. -/
def unlinkEntry (dp ip off : Nat) (type : InodeType) : Prog Int := do
  let r ← act (.writei dp direntZero off)
  if r ≠ DIRENT then panic .unlinkWritei
  else do
    unlinkParent dp type
    iunlockput dp
    act (.bumpNlink ip (-1))
    iunlockput ip
    act .commitTrans
    return 0

/-- `sys_unlink` from the point where the inode is known. -/
def unlinkInode (dp ip off : Nat) : Prog Int := do
  act (.ilock ip)
  let d ← act (.stat ip)
  if d.nlink < 1 then panic .unlinkNlink
  else if d.type = .dir then do
    if ← isdirempty ip then unlinkEntry dp ip off d.type
    else do
      iunlockput ip
      unlinkBad dp
  else unlinkEntry dp ip off d.type

/-- `sys_unlink`. -/
def sysUnlink (path : Option (List UInt8)) : Prog Int :=
  match path with
  | none => return -1
  | some path => do
      match ← nameiparent path with
      | none => return -1
      | some (dp, name) => do
          act .beginTrans
          act (.ilock dp)
          if namecmp name dot ∨ namecmp name dotdot then unlinkBad dp
          else do
            match ← dirlookup dp name with
            | none => unlinkBad dp
            | some (ip, off) => unlinkInode dp ip off

/-! ## Creating -/

/-- `create`'s answer when the name exists: only an existing file will do, and
only for a file. -/
def createExisting (ip : Nat) (type : InodeType) : Prog (Option Nat) := do
  act (.ilock ip)
  let d ← act (.stat ip)
  if type = .file ∧ d.type = .file then return some ip
  else do
    iunlockput ip
    return none

/-- `create`'s "." and ".." of a new directory. -/
def createDots (dp ip : Nat) : Prog Unit := do
  act (.bumpNlink dp 1)
  if ← dirlink ip dot ip then do
    if ← dirlink ip dotdot dp then pure () else panic .createDots
  else panic .createDots

/-- The end of `create`: enter the new inode, which is locked, into `dp`. -/
def createEntry (dp ip : Nat) (name : List UInt8) : Prog (Option Nat) := do
  if ← dirlink dp name ip then do
    iunlockput dp
    return some ip
  else panic .createDirlink

/-- `create`'s new inode. -/
def createNew (dp : Nat) (name : List UInt8) (type : InodeType) (major minor : Int) :
    Prog (Option Nat) := do
  let ip ← act (.ialloc type)
  act (.ilock ip)
  act (.initInode ip major minor)
  if type = .dir then do
    createDots dp ip
    createEntry dp ip name
  else createEntry dp ip name

/-- `create`: the inode, locked. -/
def create (path : List UInt8) (type : InodeType) (major minor : Int) :
    Prog (Option Nat) := do
  match ← nameiparent path with
  | none => return none
  | some (dp, name) => do
      act (.ilock dp)
      match ← dirlookup dp name with
      | some (ip, _) => do
          iunlockput dp
          createExisting ip type
      | none => createNew dp name type major minor

/-- `sys_open` once the inode is locked. -/
def openFile (ip omode : Nat) : Prog Int := do
  match ← act (.fileopen ip omode) with
  | none => do
      iunlockput ip
      return -1
  | some fd => do
      act (.iunlock ip)
      return fd

/-- `sys_open`. -/
def sysOpen (path : Option (List UInt8)) (omode : Nat) : Prog Int :=
  match path with
  | none => return -1
  | some path =>
      if oCreate omode then do
        act .beginTrans
        let ip ← create path .file 0 0
        act .commitTrans
        match ip with
        | none => return -1
        | some ip => openFile ip omode
      else do
        match ← namei path with
        | none => return -1
        | some ip => do
            act (.ilock ip)
            let d ← act (.stat ip)
            if d.type = .dir ∧ omode ≠ 0 then do
              iunlockput ip
              return -1
            else openFile ip omode

/-- `sys_mkdir` and `sys_mknod`: the transaction is open before the arguments
are looked at. -/
def mkInode (path : Option (List UInt8)) (type : InodeType) (major minor : Int) :
    Prog Int := do
  act .beginTrans
  match path with
  | none => do
      act .commitTrans
      return -1
  | some path => do
      match ← create path type major minor with
      | none => do
          act .commitTrans
          return -1
      | some ip => do
          iunlockput ip
          act .commitTrans
          return 0

/-- `sys_mkdir`. -/
def sysMkdir (path : Option (List UInt8)) : Prog Int := mkInode path .dir 0 0

/-- `sys_mknod`: `create` takes the numbers as `short`. -/
def sysMknod (path : Option (List UInt8)) (major minor : Int) : Prog Int :=
  mkInode path .dev (toShort major) (toShort minor)

/-! ## Processes -/

/-- `sys_chdir`. -/
def sysChdir (path : Option (List UInt8)) : Prog Int :=
  match path with
  | none => return -1
  | some path => do
      match ← namei path with
      | none => return -1
      | some ip => do
          act (.ilock ip)
          let d ← act (.stat ip)
          if d.type ≠ .dir then do
            iunlockput ip
            return -1
          else do
            act (.iunlock ip)
            let old ← act .cwd
            iput old
            act (.setCwd (some ip))
            return 0

/-- What `exec` does with the file system: look the program up, read parts of it
and let go of it.  Which parts depends on the program's headers and on memory,
so `reads` is arbitrary. -/
def exec (path : Option (List UInt8)) (reads : List (Nat × Nat)) : Prog Int :=
  match path with
  | none => return -1
  | some path => do
      match ← namei path with
      | none => return -1
      | some ip => do
          act (.ilock ip)
          Prog.forEach (fun (off, n) => do let _ ← act (.readi ip off n)) reads
          iunlockput ip
          return 0

/-- `fork`'s loop over the open files, from descriptor `fd` on. -/
def forkFds (c : Nat) : Nat → Nat → Prog Unit
  | 0, _ => pure ()
  | n + 1, fd => do
      act (.forkFd c fd)
      forkFds c n (fd + 1)

/-- `fork`; `memory` tells whether the parent's memory could be copied. -/
def fork (memory : Bool) : Prog Int := do
  match ← act .allocproc with
  | none => return -1
  | some c =>
      if memory then do
        forkFds c NOFILE 0
        act (.forkCwd c)
        act (.setState c .live)
        return c
      else do
        act (.setState c .unused)
        return -1

/-- `exit`. -/
def exit : Prog Int := do
  act .exitCheck
  Prog.forEach (fun fd => do let _ ← fileclose fd) (List.range NOFILE)
  let old ← act .cwd
  iput old
  act (.setCwd none)
  act .exitProc
  return 0

end Sys

/-! ## Calls -/

/-- A file-related system call with its arguments. -/
inductive Call where
  | open (path : Option (List UInt8)) (omode : Nat)
  | read (fd : Nat) (n : Option Nat)
  | write (fd : Nat) (src : Option (List UInt8))
  | close (fd : Nat)
  | link (old new : Option (List UInt8))
  | unlink (path : Option (List UInt8))
  | mkdir (path : Option (List UInt8))
  | mknod (path : Option (List UInt8)) (major minor : Int)
  | chdir (path : Option (List UInt8))
  | exec (path : Option (List UInt8)) (reads : List (Nat × Nat))
  | fork (memory : Bool)
  | exit

/-- The program of a call. -/
def Call.prog : Call → Prog Int
  | .open path omode => Sys.sysOpen path omode
  | .read fd n => Sys.sysRead fd n
  | .write fd src => Sys.sysWrite fd src
  | .close fd => Sys.sysClose fd
  | .link old new => Sys.sysLink old new
  | .unlink path => Sys.sysUnlink path
  | .mkdir path => Sys.sysMkdir path
  | .mknod path major minor => Sys.sysMknod path major minor
  | .chdir path => Sys.sysChdir path
  | .exec path reads => Sys.exec path reads
  | .fork memory => Sys.fork memory
  | .exit => Sys.exit

/-- A live process may make any call. -/
def Starts (k : State) (p : Nat) (q : Prog Unit) : Prop :=
  (k.ptable p).state = .live ∧ ∃ c : Call, q = c.prog >>= fun _ => pure ()

end Xv6.Kernel
