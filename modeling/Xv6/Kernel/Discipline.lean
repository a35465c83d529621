import Xv6.Kernel.Inode
import Xv6.Kernel.Sysfile
import Xv6.Verified.Counting

/-!
# Transactions, locks and references

What a process holds while it is inside a system call, as a type-state: whether
it has opened the transaction, which inodes it has locked, the references it has
taken.  `pre` is what each act requires, `next` how the act changes it.

`Invariant` ties the type-states of all processes to the kernel's state: the
log's and the inodes' busy flags are those of the processes that hold them, and
every reference count is the number of holders.
-/

namespace Xv6.Kernel

open Xv6.Verified
open Finset

/-- What a process holds in the middle of a system call. -/
structure TypeState where
  /-- It has called `begin_trans`. -/
  trans : Bool
  /-- The inodes it has locked. -/
  locks : List Nat
  /-- The inodes it has a reference of its own to. -/
  refs : List Nat
  /-- Inodes it may lock because it has them open. -/
  via : List Nat
  /-- It has given up the reference that `cwd` stands for. -/
  lent : Bool
  /-- The process it is making and how many of its slots are filled; the working
  directory counts as the last one. -/
  child : Option (Nat × Nat)

namespace TypeState

/-- Nothing held: the type-state between calls. -/
structure Idle (t : TypeState) : Prop where
  trans : t.trans = false
  locks : t.locks = []
  refs : t.refs = []
  lent : t.lent = false
  child : t.child = none

/-- What an act requires of the process that performs it.  Under `strict`, an
inode is freed only by the process that has the transaction. -/
def pre (strict : Bool) (t : TypeState) : Act → Prop
  | .commitTrans => t.trans = true
  | .idupCwd => t.lent = false
  | .ilock ip => ip ∈ t.refs ∨ ip ∈ t.via
  | .iunlock ip => ip ∈ t.locks
  | .stat ip => ip ∈ t.locks
  | .iputCheck ip => ip ∈ t.refs ∧ (ip ∈ t.locks → ip ∈ t.refs.erase ip ∨ ip ∈ t.via)
  | .iputFree ip => ip ∈ t.locks ∧ ip ∈ t.refs ∧ (strict = true → t.trans = true)
  | .readi ip _ _ => ip ∈ t.locks
  | .writei ip _ _ => ip ∈ t.locks ∧ t.trans = true
  | .bumpNlink ip _ => ip ∈ t.locks ∧ t.trans = true
  | .initInode ip _ _ => ip ∈ t.locks ∧ t.trans = true
  | .ialloc _ => t.trans = true
  | .panic m => m.ofLog = false
  | .fdfile _ => t.locks = []
  | .fdclose _ => t.locks = []
  | .fileopen ip _ => ip ∈ t.refs
  | .cwd => t.lent = false
  | .setCwd none => t.lent = true
  | .setCwd (some ip) => t.lent = true ∧ ip ∈ t.refs ∧ ip ∉ t.locks
  | .allocproc => t.child = none
  | .setState c s => (∃ n, t.child = some (c, n)) ∧
      (s = .unused ∧ t.child = some (c, 0) ∨ s = .live)
  | .forkFd c fd => t.child = some (c, fd) ∧ fd < NOFILE
  | .forkCwd c => t.child = some (c, NOFILE) ∧ t.lent = false
  | .exitProc => t.Idle
  | _ => True

/-- Which answers are possible: a process that holds a lock does not get it
again. -/
def fits (strict : Bool) (t : TypeState) : (a : Act) → a.Res → Prop
  | .ilock ip, _ => ip ∉ t.locks
  | .iputCheck ip, r => r = true → ip ∉ t.locks ∧ (strict = true → t.trans = true)
  | _, _ => True

/-- What the process holds after the act answered. -/
def next (t : TypeState) : (a : Act) → a.Res → TypeState
  | .beginTrans, _ => { t with trans := true }
  | .commitTrans, _ => { t with trans := false }
  | .iget inum, _ => { t with refs := inum :: t.refs }
  | .idupCwd, r => { t with refs := r :: t.refs }
  | .ilock ip, _ => { t with locks := ip :: t.locks }
  | .iunlock ip, _ => { t with locks := t.locks.erase ip }
  | .iputCheck ip, true => { t with locks := ip :: t.locks }
  | .iputCheck ip, false => { t with refs := t.refs.erase ip }
  | .iputFree ip, _ => { t with locks := t.locks.erase ip, refs := t.refs.erase ip }
  | .ialloc _, r => { t with refs := r :: t.refs }
  | .fdfile _, some f => { t with via := if f.kind = .inode then [f.ip] else [] }
  | .fdclose _, some (some ip) => { t with via := [], refs := ip :: t.refs }
  | .fdclose _, _ => { t with via := [] }
  | .fileopen ip _, some _ => { t with refs := t.refs.erase ip, via := ip :: t.via }
  | .cwd, r => { t with lent := true, refs := r :: t.refs }
  | .setCwd none, _ => { t with lent := false }
  | .setCwd (some ip), _ => { t with lent := false, refs := t.refs.erase ip }
  | .allocproc, some c => { t with child := some (c, 0) }
  | .setState _ _, _ => { t with child := none }
  | .forkFd c fd, _ => { t with child := some (c, fd + 1) }
  | .forkCwd c, _ => { t with child := some (c, NOFILE + 1) }
  | _, _ => t

end TypeState

/-- The discipline of kernel threads. -/
def discipline (strict : Bool) : Discipline Act Act.Res TypeState :=
  ⟨TypeState.pre strict, TypeState.fits strict, TypeState.next⟩

/-! ## The invariant -/

/-- How often process `q`, holding `t`, has inode `i`. -/
def procHolds (t : TypeState) (q : Proc) (i : Nat) : Nat :=
  t.refs.count i + if t.lent = false ∧ q.cwd = some i then 1 else 0

/-- Whether an open file has inode `i`. -/
def File.holds (f : File) (i : Nat) : Nat :=
  if 0 < f.ref ∧ f.kind = .inode ∧ f.ip = i then 1 else 0

/-- How many references to inode `i` there should be. -/
def holders (ts : Nat → TypeState) (k : State) (i : Nat) : Nat :=
  ∑ p ∈ range NPROC, procHolds (ts p) (k.ptable p) i
    + ∑ f ∈ range NFILE, (k.ftable f).holds i

/-- How often a process has file `f` open. -/
def Proc.opens (q : Proc) (f : Nat) : Nat :=
  ∑ fd ∈ range NOFILE, if q.ofile fd = some f then 1 else 0

/-- How many descriptors of all processes refer to file `f`. -/
def pointers (k : State) (f : Nat) : Nat := ∑ p ∈ range NPROC, (k.ptable p).opens f

/-- Busy flags belong to the processes that set them. -/
structure Locks (ts : Nat → TypeState) (k : State) : Prop where
  trans : ∀ p, k.log.busy = some p ↔ (ts p).trans = true
  locks : ∀ p i, (k.icache i).busy = some p ↔ i ∈ (ts p).locks
  nodup : ∀ p, (ts p).locks.Nodup
  valid : ∀ i, (k.icache i).busy ≠ none → (k.icache i).valid = true
  held : ∀ p i, i ∈ (ts p).locks → i ∈ (ts p).refs ∨ i ∈ (ts p).via

/-- Reference counts are numbers of holders. -/
structure Counts (ts : Nat → TypeState) (k : State) : Prop where
  refs : ∀ i, (k.icache i).ref = holders ts k i
  files : ∀ f, f < NFILE → (k.ftable f).ref = pointers k f
  fds : ∀ p fd f, (k.ptable p).ofile fd = some f → fd < NOFILE ∧ f < NFILE
  slots : ∀ p, (k.ptable p).state ≠ .unused → p < NPROC
  owner : ∀ p, (ts p).refs ≠ [] → p < NPROC
  blank : ∀ p, (k.ptable p).state = .unused →
    (k.ptable p).cwd = none ∧ ∀ fd, (k.ptable p).ofile fd = none
  via : ∀ p i, i ∈ (ts p).via → ∃ fd f, (k.ptable p).ofile fd = some f ∧
    (k.ftable f).kind = .inode ∧ (k.ftable f).ip = i
  lent : ∀ p, (ts p).lent = true → (k.ptable p).state = .live
  child : ∀ p c n, (ts p).child = some (c, n) → (k.ptable c).state = .embryo ∧
    (∀ fd, n ≤ fd → (k.ptable c).ofile fd = none) ∧ (n ≤ NOFILE → (k.ptable c).cwd = none)
  parent : ∀ p q c n m, (ts p).child = some (c, n) → (ts q).child = some (c, m) → p = q

/-- The invariant of the kernel's threads.  The disk is well formed as long as
`balloc` always found a free data block; the rest does not depend on that. -/
structure Invariant (ts : Nat → TypeState) (k : State) : Prop where
  wf : k.starved = false → Wf k
  locks : Locks ts k
  counts : Counts ts k

end Xv6.Kernel
