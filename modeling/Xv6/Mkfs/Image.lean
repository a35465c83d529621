import Xv6.Kernel.Dir
import Xv6.Kernel.Mount

/-!
# The image builder

`tools/mkfs.c` over the sectors of the image file.  The host is little-endian, as
the image is, so `xshort` and `xint` are left out.  Every sector that is read or
written has been written by the first loop of `main`, so the file keeps its
length; reading past it makes `mkfs` exit.
-/

namespace Xv6.Mkfs

open Xv6.Verified
open Xv6.Kernel
open Exec

/-- Why `mkfs` exits before the image is complete. -/
inductive Abort where
  | assertion
  | read
  deriving DecidableEq, Repr

/-- The image file and the global variables that change. -/
structure Image where
  sector : Nat → Block
  freeblock : Nat
  usedblocks : Nat
  freeinode : Nat

/-- A computation of `mkfs`. -/
abbrev M := Exec Abort Image

/-! ## Geometry -/

/-- `nblocks`. -/
abbrev nblocks : Nat := 4000

/-- `nlog`. -/
abbrev nlog : Nat := LOGSIZE

/-- `ninodes`. -/
abbrev ninodes : Nat := 200

/-- `size`. -/
abbrev size : Nat := 4026

/-- `bitblocks`. -/
abbrev bitblocks : Nat := size / (BSIZE * 8) + 1

/-- `usedblocks` before anything is added. -/
abbrev metablocks : Nat := ninodes / IPB + 3 + bitblocks

/-- `sb`. -/
def superblock : Superblock := ⟨size, nblocks, ninodes, nlog⟩

/-! ## Sectors and inodes -/

/-- `assert`. -/
def assert (c : Prop) [Decidable c] : M Unit := if c then pure () else stop .assertion

/-- `wsect`. -/
def wsect (sec : Nat) (buf : Block) : M Unit :=
  modify fun g => { g with sector := Function.update g.sector sec buf }

/-- `rsect`. -/
def rsect (sec : Nat) : M Block := do
  let g ← get
  if sec < size then return g.sector sec else stop .read

/-- `i2b`. -/
def i2b (inum : Nat) : Nat := inum / IPB + 2

/-- `winode`. -/
def winode (inum : Nat) (ip : Dinode) : M Unit := do
  let buf ← rsect (i2b inum)
  wsect (i2b inum) (setDinode buf (inum % IPB) ip)

/-- `rinode`. -/
def rinode (inum : Nat) : M Dinode := do
  let buf ← rsect (i2b inum)
  return dinodeAt buf (inum % IPB)

/-- `ialloc`. -/
def ialloc (type : InodeType) : M Nat := do
  let g ← get
  modify fun g => { g with freeinode := g.freeinode + 1 }
  winode g.freeinode { Dinode.zero with type := type, nlink := 1 }
  return g.freeinode

/-! ## Appending to a file -/

/-- `freeblock++; usedblocks++`. -/
def takeBlock : M Nat := do
  let g ← get
  modify fun g => { g with freeblock := g.freeblock + 1, usedblocks := g.usedblocks + 1 }
  return g.freeblock

/-- Fill slot `s` of `din.addrs` if it is empty. -/
def fillAddr (din : Dinode) (s : Nat) : M Dinode := do
  if din.addrs s = 0 then do
    let x ← takeBlock
    return { din with addrs := Function.update din.addrs s x }
  else return din

/-- The inode and the number `x` of its block `fbn`, allocated if it is not
there. -/
def blockFor (din : Dinode) (fbn : Nat) : M (Dinode × Nat) := do
  if fbn < NDIRECT then do
    let din ← fillAddr din fbn
    return (din, din.addrs fbn)
  else do
    let din ← fillAddr din NDIRECT
    let indirect ← rsect (din.addrs NDIRECT)
    if indirect.word (fbn - NDIRECT) = 0 then do
      let x ← takeBlock
      wsect (din.addrs NDIRECT) (indirect.setWord (fbn - NDIRECT) x)
      return (din, x)
    else return (din, indirect.word (fbn - NDIRECT))

/-- The loop of `iappend`, with `n` bytes left; what remains is the inode and
`off`. -/
def appendLoop : Nat → Dinode → (Nat → UInt8) → Nat → Nat → M (Dinode × Nat)
  | 0, din, _, off, _ => return (din, off)
  | fuel + 1, din, p, off, n =>
      if n = 0 then return (din, off)
      else do
        assert (off / BSIZE < MAXFILE)
        let (din, x) ← blockFor din (off / BSIZE)
        let n1 := min n ((off / BSIZE + 1) * 1024 - off)
        let buf ← rsect x
        wsect x (buf.copyIn (off - off / BSIZE * 1024) n1 p)
        appendLoop fuel din (fun o => p (o + n1)) (off + n1) (n - n1)

/-- `iappend`. -/
def iappend (inum : Nat) (xp : List UInt8) : M Unit := do
  let din ← rinode inum
  let (din, off) ← appendLoop xp.length din (fun o => xp.getD o 0) din.size xp.length
  winode inum { din with size := off }

/-! ## Directories and files -/

/-- `adddir`: the number of the new directory. -/
def adddir (name : List UInt8) (parino : Nat) : M Nat := do
  let inum ← ialloc .dir
  iappend parino (dirent inum name)
  iappend inum (dirent inum dot)
  iappend inum (dirent parino dotdot)
  return inum

/-- The root directory and the directories every image has: "bin", "usr", "etc",
"usr/bin", "dev", "usr/share" and "usr/share/icons".  What remains is `binino`,
`etcino` and `usr_share_icons_ino`. -/
def makeDirs : M (Nat × Nat × Nat) := do
  let rootino ← ialloc .dir
  assert (rootino = ROOTINO)
  iappend rootino (dirent rootino dot)
  iappend rootino (dirent rootino dotdot)
  let binino ← adddir [98, 105, 110] rootino
  let usrino ← adddir [117, 115, 114] rootino
  let etcino ← adddir [101, 116, 99] rootino
  let _ ← adddir [98, 105, 110] usrino
  let _ ← adddir [100, 101, 118] rootino
  let shareino ← adddir [115, 104, 97, 114, 101] usrino
  let iconsino ← adddir [105, 99, 111, 110, 115] shareino
  return (binino, etcino, iconsino)

/-- An argument of `mkfs`: the path and the bytes of the file there. -/
structure Input where
  path : List UInt8
  bytes : List UInt8

/-- `if (!strncmp(name, pre, n)) name += n`, with whether it was so. -/
def strip (pre name : List UInt8) : List UInt8 × Bool :=
  if pre.isPrefixOf name then (name.drop pre.length, true) else (name, false)

/-- The name a file gets and the directory it goes to.  The prefixes are "etc/",
"gui/", "fs/" and "shells/". -/
def place (path : List UInt8) (dirs : Nat × Nat × Nat) : List UInt8 × Nat :=
  let (name, isetc) := strip [101, 116, 99, 47] path
  let (name, isbin) := strip [103, 117, 105, 47] name
  let (name, _) := strip [102, 115, 47] name
  let (name, _) := strip [115, 104, 101, 108, 108, 115, 47] name
  (name, if isbin then dirs.2.2 else if isetc then dirs.2.1 else dirs.1)

/-- `while((cc = read(fd, buf, sizeof(buf))) > 0) iappend(inum, buf, cc)`. -/
def copyFile (inum : Nat) : Nat → List UInt8 → M Unit
  | 0, _ => return ()
  | fuel + 1, bytes =>
      if bytes = [] then return ()
      else do
        iappend inum (bytes.take BSIZE)
        copyFile inum fuel (bytes.drop BSIZE)

/-- The body of `main`'s loop over its arguments. -/
def addFile (dirs : Nat × Nat × Nat) (f : Input) : M Unit := do
  let (name, dir) := place f.path dirs
  assert (Sys.slash ∉ name)
  let inum ← ialloc .file
  iappend dir (dirent inum name)
  copyFile inum f.bytes.length f.bytes

/-- The loop of `main` over its arguments. -/
def addFiles (dirs : Nat × Nat × Nat) : List Input → M Unit
  | [] => return ()
  | f :: fs => do
      addFile dirs f
      addFiles dirs fs

/-- `off = ((off/BSIZE) + 1) * BSIZE` for the root directory. -/
def roundRoot : M Unit := do
  let din ← rinode ROOTINO
  winode ROOTINO { din with size := (din.size / BSIZE + 1) * BSIZE }

/-- The bitmap `balloc` writes: the first `used` bits are set. -/
def bits : Nat → Block
  | 0 => Block.zero
  | i + 1 => setBit (bits i) i

/-- `balloc`. -/
def balloc (used : Nat) : M Unit := do
  assert (used < 1024 * 8)
  wsect (ninodes / IPB + 3) (bits used)

/-- The image `main` starts from: zeroes and the superblock. -/
def blank : Image where
  sector b :=
    if b = 1 then
      (((Block.zero.setWord 0 size).setWord 1 nblocks).setWord 2 ninodes).setWord 3 nlog
    else Block.zero
  freeblock := metablocks
  usedblocks := metablocks
  freeinode := 1

/-- `main`, once the image is blank. -/
def main (files : List Input) : M Unit := do
  let dirs ← makeDirs
  addFiles dirs files
  roundRoot
  let g ← get
  balloc g.usedblocks

/-- `mkfs` on `files` writes image `g`. -/
def Writes (files : List Input) (g : Image) : Prop := (main files).run blank = .ok () g

end Xv6.Mkfs
