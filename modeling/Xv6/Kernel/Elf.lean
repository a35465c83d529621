import Xv6.Kernel.Vm
import Xv6.Verified.Bytes

/-!
# `exec`

`kernel/exec.c`, with `loaduvm`, `uva2ka` and `copyout` of `kernel/vm.c`.  A file is the list of
its bytes; an argument is the list of the bytes in front of its terminating zero.

* The fields of the ELF headers have 64 bits.  What becomes of them on the way through `int`,
  `uint` and `uintp` variables is spelled out at each use.
* `uva2ka` does not look whether `walkpgdir` has found an entry: a null pointer is read, which is
  the first word of the process that runs.
-/

namespace Xv6.Kernel.Vm

open Xv6.Verified
open Xv6.Verified.Bytes
open Exec

/-! ## The file -/

/-- A number as a `uintp`. -/
def uintp (x : Int) : Nat := (x % 18446744073709551616).toNat

/-- An `int`, given by its bits, as a `uintp`. -/
def signExtend (x : Nat) : Nat := if x < 2147483648 then x else x + 18446744069414584320

/-- The little-endian field of `n` bytes at `off`. -/
def field (bs : List UInt8) (off n : Nat) : Nat :=
  ((bs.drop off).take n).foldr (fun b x => b.toNat + 256 * x) 0

/-- A regular file.  `writei` lets none grow beyond `MAXFILE` blocks of `BSIZE` bytes. -/
structure File where
  bytes : List UInt8
  small : bytes.length ≤ 268 * 1024

/-- `readi`, from a regular file: the bytes it stores, or `-1`. -/
def readi (file : File) (off n : Nat) : Option (List UInt8) :=
  if file.bytes.length < off ∨ (off + n) % 4294967296 < off then none
  else some ((file.bytes.drop off).take n)

/-- `struct elfhdr`. -/
structure Elfhdr where
  magic : Nat
  entry : Nat
  phoff : Nat
  phnum : Nat

/-- `struct proghdr`. -/
structure Proghdr where
  type : Nat
  off : Nat
  vaddr : Nat
  filesz : Nat
  memsz : Nat

/-- `sizeof(struct elfhdr)`. -/
abbrev ELFHDR : Nat := 64

/-- `sizeof(struct proghdr)`. -/
abbrev PROGHDR : Nat := 56

/-- `ELF_MAGIC`. -/
abbrev ELF_MAGIC : Nat := 0x464C457F

/-- `ELF_PROG_LOAD`. -/
abbrev ELF_PROG_LOAD : Nat := 1

/-- The fields of an ELF header. -/
def elfhdr (bs : List UInt8) : Elfhdr :=
  ⟨field bs 0 4, field bs 24 8, field bs 32 8, field bs 56 2⟩

/-- The fields of a program header. -/
def proghdr (bs : List UInt8) : Proghdr :=
  ⟨field bs 0 4, field bs 8 8, field bs 16 8, field bs 32 8, field bs 40 8⟩

/-! ## Copying into a new address space -/

/-- Copy bytes into page `p`. -/
def memmove (p off : Nat) (bs : List UInt8) : M Unit := do
  if LINEAR ≤ p then stop .fault
  else modify fun s => { s with mem := Function.update s.mem p (write (s.mem p) off bs) }

/-- The loop of `loaduvm`, for `n` more pages; `i` is the page.  A file is shorter than 4 GB, so
`readi` fails before `i` can wrap around. -/
def loadLoop (pgdir addr : Nat) (file : File) (offset sz : Nat) : Nat → Nat → M Bool
  | 0, _ => return true
  | n + 1, i => do
      match ← walkpgdir pgdir (addr / PGSIZE + i) false with
      | none => stop .loaduvmAddress
      | some (t, k) => do
          let pa := pteAddr (← load t k) % 1048576
          let m := min (sz - i * PGSIZE) PGSIZE
          match readi file (uint (offset + i * PGSIZE)) m with
          | none => return false
          | some bs => do
              memmove pa 0 bs
              if bs.length = m then loadLoop pgdir addr file offset sz n (i + 1)
              else return false

/-- `loaduvm`. -/
def loaduvm (pgdir addr : Nat) (file : File) (offset sz : Nat) : M Bool := do
  if addr % PGSIZE ≠ 0 then stop .loaduvmAligned
  else loadLoop pgdir addr file offset sz (pgup sz) 0

/-- The entry that `uva2ka` looks at. -/
def uvaPte (pgdir v : Nat) : M Nat := do
  match ← walkpgdir pgdir v false with
  | some (t, k) => load t k
  | none => do
      let page ← target none
      load page 0

/-- `uva2ka`, for virtual page `v`. -/
def uva2ka (pgdir v : Nat) : M (Option Nat) := do
  let pte ← uvaPte pgdir v
  if ¬Present pte then return none
  else if ¬User pte then return none
  else return some (pteAddr pte)

/-- The loop of `copyout`; there is at least one byte in each turn. -/
def copyoutLoop (pgdir : Nat) : Nat → Nat → List UInt8 → M Bool
  | 0, _, _ => return true
  | fuel + 1, va, bs => do
      if bs = [] then return true
      else
        match ← uva2ka pgdir (va / PGSIZE) with
        | none => return false
        | some p => do
            let n := min (PGSIZE - va % PGSIZE) bs.length
            memmove p (va % PGSIZE) (bs.take n)
            copyoutLoop pgdir fuel (uint (va / PGSIZE * PGSIZE + PGSIZE)) (bs.drop n)

/-- `copyout`. -/
def copyout (pgdir va : Nat) (bs : List UInt8) : M Bool :=
  copyoutLoop pgdir bs.length (uint va) bs

/-! ## `exec` -/

/-- An argument: a string without zeros. -/
structure Arg where
  bytes : List UInt8
  nonzero : ∀ b ∈ bytes, b ≠ 0

/-- `MAXARG`. -/
abbrev MAXARG : Nat := 32

/-- What a successful `exec` gives the process. -/
structure Image where
  pgdir : Nat
  sz : Nat
  eip : Nat
  esp : Nat
  rdi : Nat
  rsi : Nat

/-- The loop of `exec` over the program headers, for `n` more of them: the size of the image. -/
def segments (pgdir : Nat) (file : File) : Nat → Nat → Nat → M (Option Nat)
  | 0, _, sz => return some sz
  | n + 1, off, sz =>
      match readi file off PROGHDR with
      | none => return none
      | some bs =>
          if bs.length ≠ PROGHDR then return none
          else
            let ph := proghdr bs
            if ph.type ≠ ELF_PROG_LOAD then segments pgdir file n (uint (off + PROGHDR)) sz
            else if ph.memsz < ph.filesz then return none
            else do
              let r ← allocuvm pgdir (uint sz) (uint (ph.vaddr + ph.memsz))
              if r = 0 then return none
              else if ← loaduvm pgdir ph.vaddr file (uint ph.off) (uint ph.filesz) then
                segments pgdir file n (uint (off + PROGHDR)) (signExtend r)
              else return none

/-- The loop of `exec` over the arguments: the stack pointer and the pointers to them. -/
def pushArgs (pgdir : Nat) : List Arg → Nat → Nat → M (Option (Nat × List Nat))
  | [], _, sp => return some (sp, [])
  | a :: args, argc, sp => do
      if MAXARG ≤ argc then return none
      else
        let sp := uintp ((sp : Int) - (a.bytes.length + 1)) / 8 * 8
        if ← copyout pgdir sp (a.bytes ++ [0]) then
          match ← pushArgs pgdir args (argc + 1) sp with
          | none => return none
          | some (sp', ptrs) => return some (sp', sp :: ptrs)
        else return none

/-- The stack pointer below the arguments, if they fit below address `sp`. -/
def room : List Arg → Nat → Option Nat
  | [], sp => some sp
  | a :: args, sp =>
      if a.bytes.length + 1 ≤ sp then room args ((sp - (a.bytes.length + 1)) / 8 * 8) else none

/-- The arguments, and the pointers to them, fit into the pages from address `lo` on in front of
address `sz`. -/
def Fit (argv : List Arg) (lo sz : Nat) : Prop :=
  argv.length < MAXARG ∧ ∃ sp, room argv sz = some sp ∧ lo + (3 + argv.length + 1) * 8 ≤ sp

/-- The bytes of a word. -/
def wordBytes (w : Nat) : List UInt8 :=
  (List.range 8).map fun j => UInt8.ofNat (w / 256 ^ j % 256)

/-- `exec` when the stack is there: the guard page and the arguments. -/
def arguments (pgdir sz : Nat) (elf : Elfhdr) (argv : List Arg) : M (Option Image) := do
  clearpteu pgdir (uintp (sz - 2 * PGSIZE) / PGSIZE)
  match ← pushArgs pgdir argv 0 sz with
  | none => return none
  | some (sp, ptrs) => do
      let argc := argv.length
      let rsi := uintp (sp - (argc + 1) * 8)
      let ustack := [0xffffffff, argc, rsi] ++ ptrs ++ [0]
      let esp := uintp (sp - (3 + argc + 1) * 8)
      if ← copyout pgdir esp (ustack.flatMap wordBytes) then
        return some ⟨pgdir, sz, elf.entry, esp, argc, rsi⟩
      else return none

/-- `exec` from the allocation of the stack on. -/
def stack (pgdir sz : Nat) (elf : Elfhdr) (argv : List Arg) : M (Option Image) := do
  let sz := uintp (pgup sz * PGSIZE)
  let r ← allocuvm pgdir (uint sz) (uint (sz + 2 * PGSIZE))
  if r = 0 then return none
  else arguments pgdir (signExtend r) elf argv

/-- `exec` from the allocation of the address space on. -/
def build (file : File) (elf : Elfhdr) (argv : List Arg) (pgdir : Nat) :
    M (Option Image) := do
  match ← segments pgdir file elf.phnum (uint elf.phoff) 0 with
  | none => return none
  | some sz => stack pgdir sz elf argv

/-- The end of `exec`: the process gets the new image, or the new address space is freed. -/
def commit (oldpgdir pgdir : Nat) (image : Option Image) : M (Option Image) :=
  match image with
  | none => do
      freevm pgdir
      return none
  | some image => do
      modify fun s => { s with cr3 := pgdir }
      freevm oldpgdir
      return some image

/-- `exec` behind the ELF header. -/
def launch (oldpgdir : Nat) (file : File) (elf : Elfhdr) (argv : List Arg) : M (Option Image) := do
  match ← setupkvm with
  | none => return none
  | some pgdir => do
      let image ← build file elf argv pgdir
      commit oldpgdir pgdir image

/-- `exec`, called by the process with directory `oldpgdir`; `ip` is the file that `namei`
finds. -/
def exec (oldpgdir : Nat) (ip : Option File) (argv : List Arg) : M (Option Image) :=
  match ip with
  | none => return none
  | some file =>
      match readi file 0 ELFHDR with
      -- at offset 0 there is no error
      | none => return none
      | some bs =>
          if bs.length < ELFHDR then return none
          else if (elfhdr bs).magic ≠ ELF_MAGIC then return none
          else launch oldpgdir file (elfhdr bs) argv

end Xv6.Kernel.Vm
