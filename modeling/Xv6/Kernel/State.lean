import Xv6.Kernel.Log
import Xv6.Verified.Exec

/-!
# Kernel state

What the file-system code of the kernel reads and writes: the disk as the buffer
cache shows it, the inode cache, the log, the file table and the process table.

* `struct dinode` and the bitmap are decoded; `data` holds every other block.
  `image` gives the bytes of any block, which is what `log_write` copies into
  the log.
* There is one disk, so `dev` is left out throughout.
* The inode cache is indexed by inode number.  `iget` gives an inode at most one
  entry, so an `inode *` is its number; `icopy` is the copy of the disk inode
  the entry holds, good only while `valid`.
* `busy` of an inode and of the log is the process that set the flag.
* The last three fields record what no kernel variable does: the blocks `balloc`
  has handed out, whether it was ever asked while the data region had no free
  block, and whether a process ever logged a block into a transaction that was
  another process's.
-/

namespace Xv6.Kernel

open Xv6.Verified

/-- An inode-cache entry, its copy of the disk inode apart. -/
structure CacheEntry where
  ref : Nat
  busy : Option Nat
  valid : Bool

/-- `FD_NONE` and `FD_INODE`; pipes are not part of this state. -/
inductive FileKind where
  | none
  | inode
  deriving DecidableEq, Repr

/-- `struct file`. -/
structure File where
  kind : FileKind
  ref : Nat
  readable : Bool
  writable : Bool
  ip : Nat
  off : Nat

/-- `UNUSED`, `EMBRYO` and `ZOMBIE`; the states of a process that runs, sleeps or
waits to run are one. -/
inductive ProcState where
  | unused
  | embryo
  | live
  | zombie
  deriving DecidableEq, Repr

/-- The file-system part of `struct proc`. -/
structure Proc where
  state : ProcState
  cwd : Option Nat
  ofile : Nat → Option Nat

/-- `ofile[fd] = f`. -/
def Proc.setFd (q : Proc) (fd : Nat) (f : Option Nat) : Proc :=
  { q with ofile := Function.update q.ofile fd f }

/-- One entry of `devsw`.  A device's answer may differ from call to call, so it
depends on how many device calls came before. -/
structure Dev where
  read : Option (Nat → Nat → Option (List UInt8))
  write : Option (Nat → Nat → Int)

/-- The state of the kernel's file system. -/
structure State where
  sb : Superblock
  dinode : Nat → Dinode
  bitmap : Nat → Bool
  data : Nat → Block
  icopy : Nat → Dinode
  icache : Nat → CacheEntry
  log : Log
  ftable : Nat → File
  ptable : Nat → Proc
  cur : Nat
  devsw : Nat → Dev
  devCalls : Nat
  allocs : List Nat
  starved : Bool
  foreign : Bool

/-- Kernel code. -/
abbrev K := Exec Stop State

/-- `panic`. -/
def panic {α : Type} (m : Panic) : K α := Exec.stop (.panic m)

namespace State

/-- The bytes of block `b`. -/
def image (k : State) (b : Nat) : Block :=
  if b = 1 then
    (((Block.zero.setWord 0 k.sb.size).setWord 1 k.sb.nblocks).setWord 2 k.sb.ninodes).setWord
      3 k.sb.nlog
  else if 2 ≤ b ∧ b < k.sb.ninodes / IPB + 3 then
    fun o => dinodeBytes (k.dinode ((b - 2) * IPB + o / 64)) (o % 64)
  else if k.sb.ninodes / IPB + 3 ≤ b ∧ b < k.sb.dataStart then
    fun o => bitmapByte k.bitmap ((b - (k.sb.ninodes / IPB + 3)) * BPB) o
  else k.data b

/-- The inode as the kernel sees it: the cached copy if there is a good one,
the disk's otherwise. -/
def ino (k : State) (i : Nat) : Dinode :=
  if (k.icache i).valid then k.icopy i else k.dinode i

/-- A block of the data region: after the bitmap and before the log. -/
def DataBlock (k : State) (b : Nat) : Prop := k.sb.dataStart ≤ b ∧ b < k.log.start

instance (k : State) (b : Nat) : Decidable (k.DataBlock b) := by
  unfold DataBlock
  infer_instance

/-! ## Updates -/

/-- Replace the contents of block `b`. -/
def setData (k : State) (b : Nat) (c : Block) : State :=
  { k with data := Function.update k.data b c }

/-- Replace the cached copy of inode `ip`. -/
def setCopy (k : State) (ip : Nat) (d : Dinode) : State :=
  { k with icopy := Function.update k.icopy ip d }

/-- Replace the cache entry of inode `ip`. -/
def setEntry (k : State) (ip : Nat) (e : CacheEntry) : State :=
  { k with icache := Function.update k.icache ip e }

/-- Replace entry `f` of the file table. -/
def setFile (k : State) (f : Nat) (file : File) : State :=
  { k with ftable := Function.update k.ftable f file }

/-- Replace entry `p` of the process table. -/
def setProc (k : State) (p : Nat) (proc : Proc) : State :=
  { k with ptable := Function.update k.ptable p proc }

/-- The running process. -/
def proc (k : State) : Proc := k.ptable k.cur

/-- The state after `log_write` of block `b`: its bytes are in its slot of the
log, its number is in the header. -/
def logged (k : State) (b : Nat) : State :=
  { k with
    data := Function.update k.data (k.log.start + k.log.slot b + 1) (k.image b)
    log := k.log.record b
    foreign := k.foreign || k.log.busy != some k.cur }

@[simp] theorem setData_log (k : State) (b : Nat) (c : Block) :
    (k.setData b c).log = k.log := rfl

@[simp] theorem setData_icopy (k : State) (b : Nat) (c : Block) :
    (k.setData b c).icopy = k.icopy := rfl

@[simp] theorem setData_self (k : State) (b : Nat) (c : Block) :
    (k.setData b c).data b = c := Function.update_self _ _ _

theorem setData_of_ne (k : State) {b b' : Nat} (c : Block) (h : b' ≠ b) :
    (k.setData b c).data b' = k.data b' := Function.update_of_ne h _ _

@[simp] theorem setCopy_data (k : State) (ip : Nat) (d : Dinode) :
    (k.setCopy ip d).data = k.data := rfl

@[simp] theorem setCopy_self (k : State) (ip : Nat) (d : Dinode) :
    (k.setCopy ip d).icopy ip = d := Function.update_self _ _ _

theorem setCopy_of_ne (k : State) {ip j : Nat} (d : Dinode) (h : j ≠ ip) :
    (k.setCopy ip d).icopy j = k.icopy j := Function.update_of_ne h _ _

@[simp] theorem setEntry_self (k : State) (ip : Nat) (e : CacheEntry) :
    (k.setEntry ip e).icache ip = e := Function.update_self _ _ _

theorem setEntry_of_ne (k : State) {ip j : Nat} (e : CacheEntry) (h : j ≠ ip) :
    (k.setEntry ip e).icache j = k.icache j := Function.update_of_ne h _ _

@[simp] theorem setEntry_dinode (k : State) (ip : Nat) (e : CacheEntry) :
    (k.setEntry ip e).dinode = k.dinode := rfl

@[simp] theorem setEntry_icopy (k : State) (ip : Nat) (e : CacheEntry) :
    (k.setEntry ip e).icopy = k.icopy := rfl

@[simp] theorem setEntry_bitmap (k : State) (ip : Nat) (e : CacheEntry) :
    (k.setEntry ip e).bitmap = k.bitmap := rfl

@[simp] theorem setEntry_data (k : State) (ip : Nat) (e : CacheEntry) :
    (k.setEntry ip e).data = k.data := rfl

@[simp] theorem logged_start (k : State) (b : Nat) :
    (k.logged b).log.start = k.log.start := Log.record_start _ _

@[simp] theorem logged_icopy (k : State) (b : Nat) : (k.logged b).icopy = k.icopy := rfl

end State

end Xv6.Kernel
