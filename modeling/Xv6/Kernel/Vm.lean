import Mathlib.Logic.Function.Basic
import Xv6.Verified.Exec

/-!
# Physical pages and address spaces

`kernel/kalloc.c`, `kernel/vm.c` and `setupkvm` of `kernel/vm64.c`.  The physical memory is an
array of pages of 512 words of 64 bits; a page directory, a page table and a page of user data
are all the same to it.  Pages are named by their number, the physical address divided by
`PGSIZE`; a null pointer is `none`.

* The kernel sees the first 2 GB of the physical memory.  The back pointers that `setupkvm`
  puts in the last two entries of a page directory are virtual addresses; taken for the
  address of a page table they lead to memory that is not mapped (`fault`).
* A store through a null pointer goes to the first page of the process that runs, whose
  directory is `cr3`.
* `kalloc` may come away empty-handed although the free list is not empty, because another
  processor had the pages: `denials` says when.
* `lost` lists pages that the code has dropped every pointer to; `missed` says whether
  `allocuvm` went on without a page table, and `refused` whether `kalloc` ever failed.
-/

namespace Xv6.Kernel.Vm

open Xv6.Verified
open Exec

/-! ## Constants -/

/-- `PGSIZE`. -/
abbrev PGSIZE : Nat := 4096

/-- `NPTENTRIES`, and `NPDENTRIES`. -/
abbrev NPTENTRIES : Nat := 512

/-- `PHYSTOP`, in pages. -/
abbrev NPAGES : Nat := 0xE000

/-- The number of pages the kernel maps. -/
abbrev LINEAR : Nat := 0x80000

/-- `KERNBASE`, in pages. -/
abbrev KERNPAGE : Nat := 0xFFFFFFFF80000

/-- `PTE_P`, `PTE_W` and `PTE_U`. -/
abbrev PTE_P : Nat := 1
@[inherit_doc PTE_P] abbrev PTE_W : Nat := 2
@[inherit_doc PTE_P] abbrev PTE_U : Nat := 4

/-- A number as a `uint`. -/
def uint (x : Int) : Nat := (x % 4294967296).toNat

/-- `PGROUNDUP`, in pages. -/
def pgup (a : Nat) : Nat := (a + 4095) / PGSIZE

/-- `PTE_ADDR`, in pages. -/
def pteAddr (w : Nat) : Nat := w / PGSIZE

/-- `PTE_FLAGS`. -/
def pteFlags (w : Nat) : Nat := w % PGSIZE

/-- Is `PTE_P` set? -/
abbrev Present (w : Nat) : Prop := w % 2 = 1

/-- Is `PTE_U` set? -/
abbrev User (w : Nat) : Prop := w / PTE_U % 2 = 1

/-- `pa | perm | PTE_P`, for page `p`. -/
def mkPte (p perm : Nat) : Nat := p * PGSIZE + (perm ||| PTE_P)

/-! ## The machine -/

/-- Where the kernel stops: its panics, and an access to memory that is not mapped. -/
inductive Stop where
  | remap
  | loaduvmAligned
  | loaduvmAddress
  | clearpteu
  | copyuvmPte
  | copyuvmPage
  | kfree
  | freevm
  | fault
  deriving DecidableEq, Repr

/-- The memory, the allocator and the directory in use. -/
structure State where
  mem : Nat → Nat → Nat
  free : List Nat
  denials : List Bool
  cr3 : Nat
  /-- The first page behind the kernel. -/
  kend : Nat
  /-- The page of `kpdpt`. -/
  kpdpt : Nat
  lost : List Nat
  missed : Bool
  refused : Bool

/-- Kernel code. -/
abbrev M := Exec Stop State

/-- Page `p` with word `k` replaced. -/
def storeWord (m : Nat → Nat → Nat) (p k w : Nat) : Nat → Nat → Nat :=
  fun q j => if q = p ∧ j = k then w else m q j

/-- Read word `k` of page `p`. -/
def load (p k : Nat) : M Nat := do
  if LINEAR ≤ p then stop .fault
  else return (← get).mem p k

/-- Write word `k` of page `p`. -/
def store (p k w : Nat) : M Unit := do
  if LINEAR ≤ p then stop .fault
  else modify fun s => { s with mem := storeWord s.mem p k w }

/-- Replace page `p`. -/
def fill (p : Nat) (c : Nat → Nat) : M Unit :=
  modify fun s => { s with mem := Function.update s.mem p c }

/-- Drop the last pointer to page `p`. -/
def lose (p : Nat) : M Unit := modify fun s => { s with lost := p :: s.lost }

/-! ## `kalloc.c` -/

/-- `kalloc`. -/
def kalloc : M (Option Nat) := do
  let s ← get
  match s.denials, s.free with
  | true :: ds, _ => do
      modify fun s => { s with denials := ds, refused := true }
      return none
  | ds, [] => do
      modify fun s => { s with denials := ds.tail, refused := true }
      return none
  | ds, p :: ps => do
      modify fun s => { s with denials := ds.tail, free := ps }
      return some p

/-- A page that the allocator manages. -/
def State.Managed (s : State) (p : Nat) : Prop := s.kend ≤ p ∧ p < NPAGES

instance (s : State) (p : Nat) : Decidable (s.Managed p) := inferInstanceAs (Decidable (_ ∧ _))

/-- `kfree`. -/
def kfree (p : Nat) : M Unit := do
  let s ← get
  if s.Managed p then do
    fill p fun _ => 0x0101010101010101
    modify fun s => { s with free := p :: s.free }
  else stop .kfree

/-! ## Page tables -/

/-- The page that a pointer from `kalloc` points to: a null pointer is address 0 of the
process that runs. -/
def target (p : Option Nat) : M Nat :=
  match p with
  | some p => return p
  | none => do
      let s ← get
      let pde := s.mem s.cr3 0
      if Present pde then do
        let pte ← load (pteAddr pde) 0
        if Present pte then return pteAddr pte else stop .fault
      else stop .fault

/-- A back pointer: the virtual address of a page from `kalloc`, with `PTE_P`. -/
def back (p : Option Nat) : Nat :=
  match p with
  | some p => (KERNPAGE + p) * PGSIZE + PTE_P
  | none => PTE_P

/-- The physical address that `v2p` gives for a pointer from `kalloc`, in pages. -/
def v2p (p : Option Nat) : Nat := p.getD LINEAR

/-- `setupkvm`, once it has its pages. -/
def setupTables (pml4 pdpt pgdir : Option Nat) : M Unit := do
  let top ← target pml4
  let mid ← target pdpt
  let dir ← target pgdir
  fill top fun _ => 0
  fill mid fun _ => 0
  fill dir fun _ => 0
  store top 511 (mkPte (← get).kpdpt (PTE_W ||| PTE_U))
  store top 0 (mkPte (v2p pdpt) (PTE_W ||| PTE_U))
  store mid 0 (mkPte (v2p pgdir) (PTE_W ||| PTE_U))
  store dir 511 (back pml4)
  store dir 510 (back pdpt)

/-- `setupkvm`.  If there is no page for the directory, the pointers to the other two are
gone with the function's frame. -/
def setupkvm : M (Option Nat) := do
  let pml4 ← kalloc
  let pdpt ← kalloc
  let pgdir ← kalloc
  setupTables pml4 pdpt pgdir
  if pgdir.isNone then do
    modify fun s => { s with lost := pml4.toList ++ pdpt.toList ++ s.lost }
  return pgdir

/-- `PDX`, of a page number. -/
def pdx (v : Nat) : Nat := v / NPTENTRIES % NPTENTRIES

/-- `PTX`, of a page number. -/
def ptx (v : Nat) : Nat := v % NPTENTRIES

/-- `walkpgdir`, for virtual page `v`: the page and the word of the entry. -/
def walkpgdir (pgdir v : Nat) (alloc : Bool) : M (Option (Nat × Nat)) := do
  let pde ← load pgdir (pdx v)
  if Present pde then return some (pteAddr pde, ptx v)
  else if alloc then do
    match ← kalloc with
    | none => return none
    | some pgtab => do
        fill pgtab fun _ => 0
        store pgdir (pdx v) (mkPte pgtab (PTE_W ||| PTE_U))
        return some (pgtab, ptx v)
  else return none

/-- The loop of `mappages`, for `n` more pages; whether it gets through. -/
def mappagesLoop (pgdir perm : Nat) : Nat → Nat → Nat → M Bool
  | 0, _, _ => return true
  | n + 1, v, p => do
      match ← walkpgdir pgdir v true with
      | none => return false
      | some (t, k) => do
          if Present (← load t k) then stop .remap
          else do
            store t k (mkPte p perm)
            mappagesLoop pgdir perm n (v + 1) (p + 1)

/-- `mappages`, from address `va`, for `size` bytes, to physical page `p`. -/
def mappages (pgdir va size p perm : Nat) : M Bool :=
  mappagesLoop pgdir perm ((va + size - 1) / PGSIZE - va / PGSIZE + 1) (va / PGSIZE) p

/-- The loop of `deallocuvm`, from page `v` on; `stop` is the old size in pages.  Where there
is no page table it goes on 512 pages further. -/
def deallocLoop (pgdir : Nat) : Nat → Nat → Nat → M Unit
  | 0, _, _ => return ()
  | fuel + 1, v, limit => do
      if limit ≤ v then return ()
      else
        match ← walkpgdir pgdir v false with
        | none => deallocLoop pgdir fuel (v + NPTENTRIES) limit
        | some (t, k) => do
            let pte ← load t k
            if Present pte then do
              if pteAddr pte = 0 then stop .kfree
              else do
                kfree (pteAddr pte)
                store t k 0
                deallocLoop pgdir fuel (v + 1) limit
            else deallocLoop pgdir fuel (v + 1) limit

/-- `deallocuvm`. -/
def deallocuvm (pgdir oldsz newsz : Nat) : M Nat := do
  if oldsz ≤ newsz then return oldsz
  else do
    deallocLoop pgdir (pgup oldsz) (pgup newsz) (pgup oldsz)
    return newsz

/-- The loop of `allocuvm`, from page `v` on: whether it gets `n` more pages.  What `mappages`
returns is not looked at. -/
def allocLoop (pgdir : Nat) : Nat → Nat → M Bool
  | 0, _ => return true
  | n + 1, v => do
      match ← kalloc with
      | none => return false
      | some p => do
          fill p fun _ => 0
          if ← mappages pgdir (v * PGSIZE) PGSIZE p (PTE_W ||| PTE_U) then
            allocLoop pgdir n (v + 1)
          else do
            lose p
            modify fun s => { s with missed := true }
            allocLoop pgdir n (v + 1)

/-- `allocuvm`; the sizes are `uint`s, below `KERNBASE`. -/
def allocuvm (pgdir oldsz newsz : Nat) : M Nat := do
  if newsz < oldsz then return oldsz
  else do
    if ← allocLoop pgdir (pgup newsz - pgup oldsz) (pgup oldsz) then return newsz
    else do
      let _ ← deallocuvm pgdir newsz oldsz
      return 0

/-- The limit of `freevm`, `0x3fa00000`, in pages: that of 509 page tables. -/
abbrev UVMPAGES : Nat := 0x3fa00

/-- `freevm`.  The pages of the two upper levels are not freed. -/
def freevm (pgdir : Nat) : M Unit := do
  let _ ← deallocuvm pgdir (UVMPAGES * PGSIZE) 0
  loopTo (fun i => do
    let pde ← load pgdir i
    if Present pde then kfree (pteAddr pde) else return ()) 510
  let s ← get
  let upper := [pteAddr (s.mem pgdir 511) - KERNPAGE, pteAddr (s.mem pgdir 510) - KERNPAGE]
  modify fun t => { t with lost := upper.filter (· ≠ 0) ++ t.lost }
  kfree pgdir

/-- `clearpteu`. -/
def clearpteu (pgdir v : Nat) : M Unit := do
  match ← walkpgdir pgdir v false with
  | none => stop .clearpteu
  | some (t, k) => do
      let pte ← load t k
      store t k (if User pte then pte - PTE_U else pte)

/-- The loop of `copyuvm`, from page `v` on: whether it copies `n` more pages. -/
def copyLoop (pgdir d : Nat) : Nat → Nat → M Bool
  | 0, _ => return true
  | n + 1, v => do
      match ← walkpgdir pgdir v false with
      | none => stop .copyuvmPte
      | some (t, k) => do
          let pte ← load t k
          if Present pte then do
            match ← kalloc with
            | none => return false
            | some p => do
                let page := (← get).mem (pteAddr pte)
                fill p page
                if ← mappages d (v * PGSIZE) PGSIZE p (pteFlags pte) then
                  copyLoop pgdir d n (v + 1)
                else do
                  lose p
                  return false
          else stop .copyuvmPage

/-- `copyuvm`. -/
def copyuvm (pgdir sz : Nat) : M (Option Nat) := do
  match ← setupkvm with
  | none => return none
  | some d => do
      if ← copyLoop pgdir d (pgup sz) 0 then return some d
      else do
        freevm d
        return none

end Xv6.Kernel.Vm
