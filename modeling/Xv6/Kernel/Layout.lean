import Mathlib.Logic.Function.Basic
import Mathlib.Tactic.Ring

/-!
# On-disk format and limits of the file system

The constants of `include/fs.h` and `include/param.h`, the block as an array of
bytes, the superblock and the disk inode.  `struct dinode` and the bitmap are
kept decoded in the kernel state; `dinodeBytes` and `bitmapByte` give the bytes
they occupy in their blocks, in the byte order `mkfs` writes.

Block numbers and sizes are `uint` in the source and `Nat` here; the short
fields of an inode are `Int`, and `toShort` is the conversion to `short`.
-/

namespace Xv6.Kernel

/-! ## Constants -/

/-- `BSIZE`, bytes in a block. -/
abbrev BSIZE : Nat := 1024

/-- `NDIRECT`, block addresses held in the inode itself. -/
abbrev NDIRECT : Nat := 12

/-- `NINDIRECT`, block addresses held in the indirect block. -/
abbrev NINDIRECT : Nat := 256

/-- `MAXFILE`, blocks in the largest file. -/
abbrev MAXFILE : Nat := 268

/-- `IPB`, inodes in a block. -/
abbrev IPB : Nat := 16

/-- `BPB`, bitmap bits in a block. -/
abbrev BPB : Nat := 8192

/-- `DIRSIZ`, bytes in a directory entry's name. -/
abbrev DIRSIZ : Nat := 14

/-- `sizeof(struct dirent)`. -/
abbrev DIRENT : Nat := 16

/-- `LOGSIZE`, the data sectors a transaction may log. -/
abbrev LOGSIZE : Nat := 10

/-- `ROOTINO`, the root directory's inode number. -/
abbrev ROOTINO : Nat := 1

/-- `NINODE`, entries of the inode cache. -/
abbrev NINODE : Nat := 50

/-- `NOFILE`, open files of a process. -/
abbrev NOFILE : Nat := 16

/-- `NFILE`, open files of the system. -/
abbrev NFILE : Nat := 100

/-- `NPROC`, processes of the system. -/
abbrev NPROC : Nat := 64

/-- `NDEV`, device numbers. -/
abbrev NDEV : Nat := 10

/-! ## Machine arithmetic -/

/-- Values of a C `uint`. -/
abbrev UINT : Nat := 4294967296

/-- Conversion of an `int` to `short`, as the compiler does it: modulo `2^16`. -/
def toShort (x : Int) : Int := (x + 32768) % 65536 - 32768

/-! ## Blocks -/

/-- Contents of a block: the byte at each offset below `BSIZE`. -/
abbrev Block := Nat → UInt8

namespace Block

/-- A block of zeroes. -/
def zero : Block := fun _ => 0

/-- The `uint` at index `j` of the block seen as an array of `uint`. -/
def word (b : Block) (j : Nat) : Nat :=
  (b (4 * j)).toNat + 256 * (b (4 * j + 1)).toNat
    + 65536 * (b (4 * j + 2)).toNat + 16777216 * (b (4 * j + 3)).toNat

/-- Store `v` at index `j` of the block seen as an array of `uint`. -/
def setWord (b : Block) (j v : Nat) : Block := fun i =>
  if i = 4 * j then UInt8.ofNat v
  else if i = 4 * j + 1 then UInt8.ofNat (v / 256)
  else if i = 4 * j + 2 then UInt8.ofNat (v / 65536)
  else if i = 4 * j + 3 then UInt8.ofNat (v / 16777216)
  else b i

@[simp] theorem word_zero (j : Nat) : word zero j = 0 := rfl

theorem word_setWord_self (b : Block) (j v : Nat) :
    (b.setWord j v).word j = v % UINT := by
  have h1 : 4 * j + 1 ≠ 4 * j := by omega
  have h2 : 4 * j + 2 ≠ 4 * j := by omega
  have h2' : 4 * j + 2 ≠ 4 * j + 1 := by omega
  have h3 : 4 * j + 3 ≠ 4 * j := by omega
  have h3' : 4 * j + 3 ≠ 4 * j + 1 := by omega
  have h3'' : 4 * j + 3 ≠ 4 * j + 2 := by omega
  simp only [word, setWord, if_true, if_neg h1, if_neg h2, if_neg h2', if_neg h3,
    if_neg h3', if_neg h3'', UInt8.toNat_ofNat', UINT]
  omega

theorem word_setWord_of_ne (b : Block) {j j' : Nat} (v : Nat) (h : j' ≠ j) :
    (b.setWord j v).word j' = b.word j' := by
  have hbyte : ∀ r, r < 4 → (b.setWord j v) (4 * j' + r) = b (4 * j' + r) := by
    intro r hr
    have h0 : 4 * j' + r ≠ 4 * j := by omega
    have h1 : 4 * j' + r ≠ 4 * j + 1 := by omega
    have h2 : 4 * j' + r ≠ 4 * j + 2 := by omega
    have h3 : 4 * j' + r ≠ 4 * j + 3 := by omega
    simp only [setWord, if_neg h0, if_neg h1, if_neg h2, if_neg h3]
  have h0 := hbyte 0 (by omega)
  rw [Nat.add_zero] at h0
  simp only [word, h0, hbyte 1 (by omega), hbyte 2 (by omega), hbyte 3 (by omega)]

/-- `memmove(b + off, src, m)`. -/
def copyIn (b : Block) (off m : Nat) (src : Nat → UInt8) : Block := fun i =>
  if off ≤ i ∧ i < off + m then src (i - off) else b i

end Block

/-! ## Superblock and disk inodes -/

/-- `struct superblock`. -/
structure Superblock where
  size : Nat
  nblocks : Nat
  ninodes : Nat
  nlog : Nat

/-- The block holding inode `i`, `IBLOCK(i)`. -/
def iblock (i : Nat) : Nat := i / IPB + 2

namespace Superblock

/-- The block holding the bitmap bit of block `b`, `BBLOCK(b, ninodes)`. -/
def bblock (sb : Superblock) (b : Nat) : Nat := b / BPB + sb.ninodes / IPB + 3

/-- The first block after the bitmap. -/
def dataStart (sb : Superblock) : Nat := sb.ninodes / IPB + 3 + (sb.size / BPB + 1)

/-- The first block of the log, as `initlog` computes it. -/
def logStart (sb : Superblock) : Nat := sb.size - sb.nlog

end Superblock

/-- `T_DIR`, `T_FILE`, `T_DEV`, and 0 for an inode that is not allocated. -/
inductive InodeType where
  | free
  | dir
  | file
  | dev
  deriving DecidableEq, Repr

/-- The value of the `type` field. -/
def InodeType.code : InodeType → Nat
  | .free => 0
  | .dir => 1
  | .file => 2
  | .dev => 3

/-- `struct dinode`, and the copy of it in an in-memory inode.  Slot `NDIRECT`
of `addrs` is the indirect block. -/
@[ext] structure Dinode where
  type : InodeType
  major : Int
  minor : Int
  nlink : Int
  size : Nat
  addrs : Nat → Nat

/-- A zeroed `struct dinode`. -/
def Dinode.zero : Dinode := ⟨.free, 0, 0, 0, 0, fun _ => 0⟩

/-- The byte at offset `o` of an encoded `struct dinode`. -/
def dinodeBytes (d : Dinode) (o : Nat) : UInt8 :=
  let short (x : Int) (r : Nat) : UInt8 := UInt8.ofNat ((x % 65536).toNat / 256 ^ r)
  if o < 2 then short d.type.code o
  else if o < 4 then short d.major (o - 2)
  else if o < 6 then short d.minor (o - 4)
  else if o < 8 then short d.nlink (o - 6)
  else if o < 12 then UInt8.ofNat (d.size / 256 ^ (o - 8))
  else UInt8.ofNat (d.addrs ((o - 12) / 4) / 256 ^ ((o - 12) % 4))

/-- Byte `o` of the bitmap block whose first bit is that of block `b`. -/
def bitmapByte (bitmap : Nat → Bool) (b o : Nat) : UInt8 :=
  UInt8.ofNat ((List.range 8).foldl
    (fun acc r => if bitmap (b + 8 * o + r) then acc + 2 ^ r else acc) 0)

/-! ## Panics -/

/-- The `panic` calls of `log.c`, `fs.c`, `file.c` and `sysfile.c`. -/
inductive Panic where
  | tooBigTransaction
  | writeOutsideTrans
  | ballocOutOfBlocks
  | freeingFreeBlock
  | iallocNoInodes
  | igetNoInodes
  | ilock
  | ilockNoType
  | iunlock
  | iputBusy
  | bmapOutOfRange
  | dirlookupNotDir
  | dirlinkRead
  | dirlink
  | isdiremptyReadi
  | unlinkNlink
  | unlinkWritei
  | createDots
  | createDirlink
  | filedup
  | fileclose
  | fileread
  | filewrite
  | shortFilewrite
  | initExiting
  deriving DecidableEq, Repr

/-- The text of each panic. -/
def Panic.message : Panic → String
  | .tooBigTransaction => "too big a transaction"
  | .writeOutsideTrans => "write outside of trans"
  | .ballocOutOfBlocks => "balloc: out of blocks"
  | .freeingFreeBlock => "freeing free block"
  | .iallocNoInodes => "ialloc: no inodes"
  | .igetNoInodes => "iget: no inodes"
  | .ilock => "ilock"
  | .ilockNoType => "ilock: no type"
  | .iunlock => "iunlock"
  | .iputBusy => "iput busy"
  | .bmapOutOfRange => "bmap: out of range"
  | .dirlookupNotDir => "dirlookup not DIR"
  | .dirlinkRead => "dirlink read"
  | .dirlink => "dirlink"
  | .isdiremptyReadi => "isdirempty: readi"
  | .unlinkNlink => "unlink: nlink < 1"
  | .unlinkWritei => "unlink: writei"
  | .createDots => "create dots"
  | .createDirlink => "create: dirlink"
  | .filedup => "filedup"
  | .fileclose => "fileclose"
  | .fileread => "fileread"
  | .filewrite => "filewrite"
  | .shortFilewrite => "short filewrite"
  | .initExiting => "init exiting"

/-- The panics of `log_write`. -/
def Panic.ofLog : Panic → Bool
  | .tooBigTransaction => true
  | .writeOutsideTrans => true
  | _ => false

/-- Why the kernel did not return: it halted, it sleeps on a lock, or it followed
a null pointer. -/
inductive Stop where
  | panic (m : Panic)
  | blocked
  | fault
  deriving DecidableEq, Repr

end Xv6.Kernel
