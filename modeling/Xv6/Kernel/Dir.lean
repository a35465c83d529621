import Xv6.Kernel.Act

/-!
# Directories and path names

The second half of `kernel/fs.c`.  A `char *` that ends at a NUL byte is the
list of bytes before it.
-/

namespace Xv6.Kernel

open Xv6.Verified

/-! ## Directory entries -/

/-- A name as `strncmp` with limit `DIRSIZ` sees it. -/
def cstr (s : List UInt8) : List UInt8 := (s.takeWhile (· != 0)).take DIRSIZ

/-- `namecmp`, true when the names are equal. -/
def namecmp (s t : List UInt8) : Bool := cstr s == cstr t

/-- `de.inum` of an encoded `struct dirent`. -/
def direntInum (de : List UInt8) : Nat := (de.getD 0 0).toNat + 256 * (de.getD 1 0).toNat

/-- `de.name` of an encoded `struct dirent`. -/
def direntName (de : List UInt8) : List UInt8 := de.drop 2

/-- An encoded `struct dirent`: the number is stored as a `ushort`, the name with
`strncpy`, which fills up with NUL bytes. -/
def dirent (inum : Nat) (name : List UInt8) : List UInt8 :=
  UInt8.ofNat inum :: UInt8.ofNat (inum / 256) ::
    (cstr name ++ List.replicate (DIRSIZ - (cstr name).length) 0)

/-- A zeroed `struct dirent`. -/
def direntZero : List UInt8 := List.replicate DIRENT 0

/-- The name ".". -/
def dot : List UInt8 := [46]

/-- The name "..". -/
def dotdot : List UInt8 := [46, 46]

namespace Sys

/-- `readi` of one directory entry, with the check that all of it came. -/
def readDirent (dp off : Nat) (m : Panic) : Prog (List UInt8) := do
  match ← act (.readi dp off DIRENT) with
  | none => panic m
  | some de => if de.length = DIRENT then return de else panic m

/-- The loop of `dirlookup`, with `n` entries left. -/
def dirlookupLoop (dp : Nat) (name : List UInt8) : Nat → Nat → Prog (Option (Nat × Nat))
  | 0, _ => return none
  | n + 1, off => do
      let de ← readDirent dp off .dirlinkRead
      if direntInum de ≠ 0 ∧ namecmp name (direntName de) then do
        act (.iget (direntInum de))
        return some (direntInum de, off)
      else dirlookupLoop dp name n (off + DIRENT)

/-- Entries of a directory of `size` bytes, rounded up. -/
def entries (size : Nat) : Nat := (size + (DIRENT - 1)) / DIRENT

/-- `dirlookup`: the inode, with a reference to it, and the entry's offset. -/
def dirlookup (dp : Nat) (name : List UInt8) : Prog (Option (Nat × Nat)) := do
  let d ← act (.stat dp)
  if d.type ≠ .dir then panic .dirlookupNotDir
  else dirlookupLoop dp name (entries d.size) 0

/-- `dirlink`'s search for an empty entry, with `n` entries left. -/
def emptyLoop (dp : Nat) : Nat → Nat → Prog Nat
  | 0, off => return off
  | n + 1, off => do
      let de ← readDirent dp off .dirlinkRead
      if direntInum de = 0 then return off else emptyLoop dp n (off + DIRENT)

/-- `dirlink`, false for the return value -1. -/
def dirlink (dp : Nat) (name : List UInt8) (inum : Nat) : Prog Bool := do
  match ← dirlookup dp name with
  | some (ip, _) => do
      iput ip
      return false
  | none => do
      let d ← act (.stat dp)
      let off ← emptyLoop dp (entries d.size) 0
      let r ← act (.writei dp (dirent inum name) off)
      if r ≠ DIRENT then panic .dirlink else return true

/-! ## Paths -/

/-- The byte of '/'. -/
def slash : UInt8 := 47

/-- `skipelem`: the next path element, cut to `DIRSIZ` bytes, and what follows
it. -/
def skipelem (path : List UInt8) : Option (List UInt8 × List UInt8) :=
  let path := path.dropWhile (· == slash)
  if path = [] then none
  else some ((path.takeWhile (· != slash)).take DIRSIZ,
    (path.dropWhile (· != slash)).dropWhile (· == slash))

/-- The loop of `namex`; every round uses up at least one byte of the path. -/
def namexLoop (parent : Bool) : Nat → Nat → List UInt8 → Prog (Option (Nat × List UInt8))
  | 0, ip, _ => do
      if parent then do
        iput ip
        return none
      else return some (ip, [])
  | fuel + 1, ip, path =>
      match skipelem path with
      | none => do
          if parent then do
            iput ip
            return none
          else return some (ip, [])
      | some (name, rest) => do
          act (.ilock ip)
          let d ← act (.stat ip)
          if d.type ≠ .dir then do
            iunlockput ip
            return none
          else if parent ∧ rest = [] then do
            act (.iunlock ip)
            return some (ip, name)
          else do
            match ← dirlookup ip name with
            | none => do
                iunlockput ip
                return none
            | some (next, _) => do
                iunlockput ip
                namexLoop parent fuel next rest

/-- Where `namex` starts: the root for an absolute path, else the working
directory. -/
def namexStart (path : List UInt8) : Prog Nat :=
  if path.head? = some slash then do
    act (.iget ROOTINO)
    return ROOTINO
  else act .idupCwd

/-- `namex`. -/
def namex (path : List UInt8) (parent : Bool) : Prog (Option (Nat × List UInt8)) := do
  let ip ← namexStart path
  namexLoop parent (path.length + 1) ip path

/-- `namei`. -/
def namei (path : List UInt8) : Prog (Option Nat) := do
  match ← namex path false with
  | none => return none
  | some (ip, _) => return some ip

/-- `nameiparent`. -/
def nameiparent (path : List UInt8) : Prog (Option (Nat × List UInt8)) := namex path true

end Sys

end Xv6.Kernel
