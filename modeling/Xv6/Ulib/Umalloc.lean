import Xv6.Verified.Chains
import Xv6.Verified.Memory
import Xv6.Verified.Transitions
import Mathlib.Data.List.Chain

/-!
# The heap of a user program

`ulib/libc/stdlib/umalloc.c`: the memory got from `sbrk` is cut into blocks, each with a header in
front of it.  The free blocks form a ring through their headers, in the order of their addresses,
which `base` closes; `freep` is where the next search starts.

The headers stand in the memory of bytes, where the program may write inside its blocks.  `sbrk`
answers as it likes, but a process has less than 2^32 bytes.

* `link_spec`: `free` behind the right block, whichever neighbours the block is joined with.
* `search_spec`: the search of `malloc` finds a block, or has seen that there is none.
* `heap_of_run`: the heap is in order after any number of calls, and every call returns.
-/

namespace Xv6.Ulib.Umalloc

open Xv6.Verified

/-! ## The functions -/

abbrev Mem := Nat → UInt8

/-- `p->s.ptr`. -/
def ptr (m : Mem) (p : Nat) : Nat := load m p 8

/-- `p->s.size`, in units of a header, 16 bytes. -/
def size (m : Mem) (p : Nat) : Nat := load m (p + 8) 4

def setPtr (m : Mem) (p q : Nat) : Mem := store m p q 8

def setSize (m : Mem) (p n : Nat) : Mem := store m (p + 8) n 4

/-- Where `base` is and where the heap starts. -/
structure Layout where
  base : Nat
  start : Nat
  base_pos : 0 < base
  base_below : base + 16 ≤ start
  start_lt : start < 2 ^ 32

/-- What the functions use.  `sbrks` are the answers of `sbrk`, the last one first; `live` has the
blocks that were returned and not freed, with the size asked for. -/
structure State where
  mem : Mem
  freep : Nat
  brk : Nat
  sbrks : List Bool
  live : Nat → Option Nat
  ret : Nat

/-- The loop of `free`.  There are less than 2^32 headers, so that much fuel is enough. -/
def freeLoop : Nat → Mem → Nat → Nat → Option Nat
  | 0, _, _, _ => none
  | fuel + 1, m, bp, p =>
      if bp > p ∧ bp < ptr m p then some p
      else if p ≥ ptr m p ∧ (bp > p ∨ bp < ptr m p) then some p
      else freeLoop fuel m bp (ptr m p)

/-- Join `bp` with the block behind it, or only link it there. -/
def joinNext (m : Mem) (bp p : Nat) : Mem :=
  if bp + 16 * size m bp = ptr m p then
    let m := setSize m bp (size m bp + size m (ptr m p))
    setPtr m bp (ptr m (ptr m p))
  else setPtr m bp (ptr m p)

/-- Join `bp` with the block before it, or only link it there. -/
def joinPrev (m : Mem) (bp p : Nat) : Mem :=
  if p + 16 * size m p = bp then
    let m := setSize m p (size m p + size m bp)
    setPtr m p (ptr m bp)
  else setPtr m p bp

/-- `free`. -/
def free (s : State) (ap : Nat) : Option State := do
  let bp := ap - 16
  let p ← freeLoop (2 ^ 32) s.mem bp s.freep
  return { s with mem := joinPrev (joinNext s.mem bp p) bp p, freep := p }

/-- `sbrk`, which fails or moves the end of the memory.  `none` is its -1. -/
def sbrk (grants : Nat → Bool) (s : State) (n : Int) : Option Nat × State :=
  if grants s.sbrks.length = true ∧ 0 ≤ s.brk + n ∧ s.brk + n < 2 ^ 32 then
    (some s.brk, { s with brk := (s.brk + n).toNat, sbrks := true :: s.sbrks })
  else (none, { s with sbrks := false :: s.sbrks })

/-- `morecore`.  The number of bytes is passed as an `int`. -/
def morecore (grants : Nat → Bool) (s : State) (nu : Nat) : Option (Nat × State) :=
  let nu := if nu < 4096 then 4096 else nu
  match sbrk grants s (Int.bmod (nu * 16) (2 ^ 32)) with
  | (none, s) => some (0, s)
  | (some hp, s) => do
      let s ← free { s with mem := setSize s.mem hp nu } (hp + 16)
      return (s.freep, s)

/-- Take `nunits` units out of the block at `p`, which is behind `prevp`. -/
def take (s : State) (nunits prevp p : Nat) : Nat × State :=
  if size s.mem p = nunits then
    (p + 16, { s with mem := setPtr s.mem prevp (ptr s.mem p), freep := prevp })
  else
    let m := setSize s.mem p (size s.mem p - nunits)
    let q := p + 16 * size m p
    (q + 16, { s with mem := setSize m q nunits, freep := prevp })

/-- The loop of `malloc`. -/
def mallocLoop (grants : Nat → Bool) (nunits : Nat) :
    Nat → State → Nat → Nat → Option (Nat × State)
  | 0, _, _, _ => none
  | fuel + 1, s, prevp, p =>
      if size s.mem p ≥ nunits then some (take s nunits prevp p)
      else if p = s.freep then
        match morecore grants s nunits with
        | none => none
        | some (p, s) =>
            if p = 0 then some (0, s) else mallocLoop grants nunits fuel s p (ptr s.mem p)
      else mallocLoop grants nunits fuel s p (ptr s.mem p)

/-- `malloc`. -/
def malloc (L : Layout) (grants : Nat → Bool) (s : State) (nbytes : Nat) : Option (Nat × State) :=
  let nunits := ((nbytes + 16 - 1) / 16 + 1) % 2 ^ 32
  let s := if s.freep = 0 then
      { s with mem := setSize (setPtr s.mem L.base L.base) L.base 0, freep := L.base }
    else s
  mallocLoop grants nunits (2 ^ 32) s s.freep (ptr s.mem s.freep)

/-! ## Runs -/

/-- What a program does with its heap.  `write` stores into a block. -/
inductive Call
  | malloc (nbytes : Nat)
  | free (ap : Nat)
  | write (ap i : Nat) (v : UInt8)

/-- One call. -/
def exec (L : Layout) (grants : Nat → Bool) (s : State) : Call → Option State
  | .malloc nbytes => (malloc L grants s nbytes).map fun r =>
      { r.2 with
        ret := r.1
        live := if r.1 = 0 then r.2.live else Function.update r.2.live r.1 (some nbytes) }
  | .free ap => (free s ap).map fun s => { s with live := Function.update s.live ap none }
  | .write ap i v => some { s with mem := Function.update s.mem (ap + i) v }

/-- Only blocks that are there are freed and written. -/
def Legal (s : State) : Call → Prop
  | .malloc nbytes => nbytes < 2 ^ 31 - 2 ^ 17
  | .free ap => s.live ap ≠ none
  | .write ap i _ => ∃ n, s.live ap = some n ∧ i < n

/-- The program starts, with whatever its memory holds. -/
def start (L : Layout) (m : Mem) : State :=
  { mem := m, freep := 0, brk := L.start, sbrks := [], live := fun _ => none, ret := 0 }

/-! ## Headers -/

variable {m m' m'' : Mem} {p q x v n : Nat}

/-- Only the header at `p` differs. -/
def OnlyAt (p : Nat) (m m' : Mem) : Prop := ∀ a, a < p ∨ p + 16 ≤ a → m' a = m a

theorem OnlyAt.ptr (h : OnlyAt p m m') (hx : x + 16 ≤ p ∨ p + 16 ≤ x) : ptr m' x = ptr m x :=
  load_congr fun b hb hb' => h b (by omega)

theorem OnlyAt.size (h : OnlyAt p m m') (hx : x + 16 ≤ p ∨ p + 16 ≤ x) : size m' x = size m x :=
  load_congr fun b hb hb' => h b (by omega)

theorem OnlyAt.trans (h : OnlyAt p m m') (h' : OnlyAt p m' m'') : OnlyAt p m m'' :=
  fun a ha => (h' a ha).trans (h a ha)

theorem onlyAt_setPtr : OnlyAt p m (setPtr m p v) := fun _ ha => store_outside (by omega)

theorem onlyAt_setSize : OnlyAt p m (setSize m p v) := fun _ ha => store_outside (by omega)

theorem ptr_setPtr (hv : v < 2 ^ 64) : ptr (setPtr m p v) p = v := by
  rw [ptr, setPtr, load_store]
  exact Nat.mod_eq_of_lt hv

theorem size_setSize (hv : v < 2 ^ 32) : size (setSize m p v) p = v := by
  rw [size, setSize, load_store]
  exact Nat.mod_eq_of_lt hv

@[simp] theorem size_setPtr : size (setPtr m p v) p = size m p :=
  load_congr fun b hb _ => store_outside (by omega)

theorem size_setPtr_of (hx : x = p ∨ x + 16 ≤ p ∨ p + 16 ≤ x) :
    size (setPtr m p v) x = size m x := by
  rcases hx with rfl | hx
  · exact size_setPtr
  · exact onlyAt_setPtr.size hx

@[simp] theorem ptr_setSize : ptr (setSize m p v) p = ptr m p :=
  load_congr fun b _ hb => store_outside (by omega)

theorem ptr_lt : ptr m p < 2 ^ 64 := load_lt

/-! ## Blocks -/

/-- A block of `size` units from `addr` on.  `owner` is the size asked for, or `none` for a free
block. -/
structure Block where
  addr : Nat
  size : Nat
  owner : Option Nat

/-- The blocks cover the memory from `a` to `c` exactly. -/
def Covers : Nat → List Block → Nat → Prop
  | a, [], c => a = c
  | a, b :: bs, c => b.addr = a ∧ 0 < b.size ∧ Covers (a + 16 * b.size) bs c

/-- The addresses of the free blocks. -/
def frees (bs : List Block) : List Nat := (bs.filter fun b => b.owner.isNone).map Block.addr

/-- No two free blocks touch. -/
def Coalesced (bs : List Block) : Prop := bs.IsChain fun b c => b.owner = none → c.owner ≠ none

variable {a c : Nat} {b t u : Block} {bs bs₁ bs₂ : List Block}

theorem covers_append : Covers a (bs₁ ++ bs₂) c ↔ ∃ e, Covers a bs₁ e ∧ Covers e bs₂ c := by
  induction bs₁ generalizing a with
  | nil => simp [Covers]
  | cons b bs₁ ih =>
      simp only [List.cons_append, Covers, ih]
      grind

theorem Covers.le (h : Covers a bs c) : a ≤ c := by
  induction bs generalizing a with
  | nil => exact h.le
  | cons b bs ih =>
      have := ih h.2.2
      omega

theorem Covers.inside (h : Covers a bs c) (hb : b ∈ bs) :
    a ≤ b.addr ∧ 0 < b.size ∧ b.addr + 16 * b.size ≤ c := by
  induction bs generalizing a with
  | nil => simp at hb
  | cons d bs ih =>
      obtain ⟨haddr, hsize, hrest⟩ := h
      have hle := hrest.le
      rcases List.mem_cons.1 hb with rfl | hb
      · omega
      · have := ih hrest hb
        omega

theorem Covers.length (h : Covers a bs c) : a + 16 * bs.length ≤ c := by
  induction bs generalizing a with
  | nil => exact h.le
  | cons b bs ih =>
      obtain ⟨-, hsize, hrest⟩ := h
      have := ih hrest
      rw [List.length_cons]
      omega

@[simp] theorem frees_append : frees (bs₁ ++ bs₂) = frees bs₁ ++ frees bs₂ := by simp [frees]

@[simp] theorem frees_nil : frees [] = [] := rfl

theorem frees_cons_free (hb : b.owner = none) : frees (b :: bs) = b.addr :: frees bs := by
  simp [frees, hb]

theorem frees_cons_owned (hb : b.owner ≠ none) : frees (b :: bs) = frees bs := by
  simp [frees, Option.isNone_iff_eq_none, hb]

theorem mem_frees : x ∈ frees bs ↔ ∃ b ∈ bs, b.owner = none ∧ b.addr = x := by
  simp [frees, and_assoc]

theorem Covers.free_inside (h : Covers a bs c) (hx : x ∈ frees bs) : a ≤ x ∧ x + 16 ≤ c := by
  obtain ⟨b, hb, -, rfl⟩ := mem_frees.1 hx
  have := h.inside hb
  omega

theorem frees_length : (frees bs).length ≤ bs.length := by
  rw [frees, List.length_map]
  exact List.length_filter_le _ _

theorem Covers.pairwise (h : Covers a bs c) :
    bs.Pairwise fun b d => b.addr + 16 * b.size ≤ d.addr := by
  induction bs generalizing a with
  | nil => exact .nil
  | cons b bs ih =>
      obtain ⟨rfl, -, hrest⟩ := h
      exact .cons (fun d hd => (hrest.inside hd).1) (ih hrest)

/-- The free blocks stand in the order of their addresses, with room for a header each. -/
theorem Covers.frees_pairwise (h : Covers a bs c) :
    (frees bs).Pairwise fun x y => x + 16 ≤ y := by
  rw [frees, List.pairwise_map]
  refine List.Pairwise.sublist List.filter_sublist (h.pairwise.imp_of_mem ?_)
  intro b d hb _ hle
  have := h.inside hb
  omega

theorem coalesced_cons (h : Coalesced (u :: bs)) (hu : u.owner = none) (b : Block) :
    Coalesced (b :: bs) := by
  cases bs with
  | nil => exact .singleton _
  | cons d bs =>
      rw [Coalesced, List.isChain_cons_cons] at h ⊢
      exact ⟨fun _ => h.1 hu, h.2⟩

theorem coalesced_concat (h : Coalesced (bs ++ [u])) (hu : u.owner = none) (b : Block) :
    Coalesced (bs ++ [b]) := by
  cases bs using List.reverseRecOn with
  | nil => exact .singleton _
  | append_singleton bs d =>
      rw [Coalesced, List.append_assoc, List.singleton_append, List.isChain_split,
        List.isChain_cons_cons] at h ⊢
      exact ⟨h.1, fun hd => absurd hu (h.2.1 hd), .singleton _⟩

/-! ## A block is freed -/

/-- The blocks `bs` are those of memory `m`, and the free ones are in the ring. -/
structure Shape (L : Layout) (brk : Nat) (bs : List Block) (m : Mem) : Prop where
  covers : Covers L.start bs brk
  brk_lt : brk < 2 ^ 32
  coalesced : Coalesced bs
  sizes : ∀ b ∈ bs, size m b.addr = b.size
  base_size : size m L.base = 0
  ring : Leads (ptr m) L.base (frees bs) L.base

/-- Between the blocks `bs₁` and `bs₂` there is a block of `d` units at `a`, which leads on to
`bs₂`, while `bs₁` leads somewhere else. -/
structure Cut (L : Layout) (brk a d q : Nat) (bs₁ bs₂ : List Block) (m : Mem) : Prop where
  before : Covers L.start bs₁ a
  behind : Covers (a + 16 * d) bs₂ brk
  pos : 0 < d
  brk_lt : brk < 2 ^ 32
  coalesced_before : Coalesced bs₁
  coalesced_behind : ∀ b, Coalesced (b :: bs₂)
  sizes : ∀ b ∈ bs₁ ++ bs₂, size m b.addr = b.size
  size : size m a = d
  base_size : Umalloc.size m L.base = 0
  ring_before : Leads (ptr m) L.base (frees bs₁) q
  ring_behind : Leads (ptr m) a (frees bs₂) L.base

variable {L : Layout} {brk d : Nat}

theorem Covers.base_free (h : Covers L.start bs c) (hx : x ∈ L.base :: frees bs) :
    x + 16 ≤ c ∧ L.base ≤ x := by
  have hbelow := L.base_below
  have hle := h.le
  rcases List.mem_cons.1 hx with rfl | hx
  · omega
  · have := h.free_inside hx
    omega

/-- Blocks do not overlap. -/
theorem Covers.eq_or_apart (h : Covers a bs c) (hb : b ∈ bs) (ht : t ∈ bs) :
    b = t ∨ b.addr + 16 * b.size ≤ t.addr ∨ t.addr + 16 * t.size ≤ b.addr := by
  induction bs generalizing a with
  | nil => cases hb
  | cons d bs ih =>
      obtain ⟨rfl, -, hrest⟩ := h
      rcases List.mem_cons.1 hb with rfl | hb' <;> rcases List.mem_cons.1 ht with ht' | ht'
      · exact .inl ht'.symm
      · exact .inr (.inl (hrest.inside ht').1)
      · rw [ht']
        exact .inr (.inr (hrest.inside hb').1)
      · exact ih hrest hb' ht'

/-- The header of a block, and one of the ring. -/
theorem Covers.header_apart (h : Covers L.start bs c) (hx : x ∈ L.base :: frees bs) (hb : b ∈ bs) :
    b.addr = x ∨ b.addr + 16 ≤ x ∨ x + 16 ≤ b.addr := by
  have hin := h.inside hb
  have hbase := L.base_below
  rcases List.mem_cons.1 hx with rfl | hx
  · omega
  · obtain ⟨t, ht, -, rfl⟩ := mem_frees.1 hx
    have hin' := h.inside ht
    rcases h.eq_or_apart hb ht with rfl | hlt | hlt
    · exact .inl rfl
    · omega
    · omega

/-- Two headers of the ring. -/
theorem Covers.ring_apart (h : Covers L.start bs c) (hx : x ∈ L.base :: frees bs)
    (hy : v ∈ L.base :: frees bs) : v = x ∨ v + 16 ≤ x ∨ x + 16 ≤ v := by
  rcases List.mem_cons.1 hy with rfl | hy
  · rcases List.mem_cons.1 hx with rfl | hx
    · exact .inl rfl
    · have := h.free_inside hx
      have := L.base_below
      omega
  · obtain ⟨t, ht, -, rfl⟩ := mem_frees.1 hy
    exact h.header_apart hx ht

/-- The bytes of a block that is not free are in no header of the ring. -/
theorem Covers.owned_outside (h : Covers L.start bs c) (hp : p ∈ L.base :: frees bs) (hb : b ∈ bs)
    (howner : b.owner ≠ none) (hx : b.addr ≤ x) (hx' : x < b.addr + 16 * b.size) :
    x < p ∨ p + 16 ≤ x := by
  have hin := h.inside hb
  have hbase := L.base_below
  rcases List.mem_cons.1 hp with rfl | hp
  · omega
  · obtain ⟨t, ht, hfree, rfl⟩ := mem_frees.1 hp
    have hin' := h.inside ht
    rcases h.eq_or_apart hb ht with rfl | hlt | hlt
    · exact absurd hfree howner
    · omega
    · omega

/-- The ring, from `base` on, is in the order of the addresses. -/
theorem Covers.ring_sorted (h : Covers L.start bs c) :
    (L.base :: frees bs).Pairwise (· < ·) := by
  refine .cons (fun x hx => ?_) (h.frees_pairwise.imp fun hle => by omega)
  have := h.free_inside hx
  have := L.base_below
  omega

theorem Covers.ring_nodup (h : Covers L.start bs c) : (L.base :: frees bs).Nodup :=
  h.ring_sorted.imp fun hlt => Nat.ne_of_lt hlt

theorem joinNext_spec (h : Shape L brk (bs₁ ++ t :: bs₂) m) (ht : t.owner ≠ none) :
    ∃ d bs, t.size ≤ d ∧ (∀ b : Block, b.owner ≠ none → (b ∈ bs ↔ b ∈ bs₂)) ∧
      Cut L brk t.addr d (ptr m ((frees bs₁).getLastD L.base)) bs₁ bs
        (joinNext m t.addr ((frees bs₁).getLastD L.base)) := by
  obtain ⟨e, hbefore, rfl, hpos, hbehind⟩ := covers_append.1 h.covers
  have hring := h.ring
  rw [frees_append, frees_cons_owned ht] at hring
  have hleft := hring.left
  have hright := hring.right
  set p := (frees bs₁).getLastD L.base with hp
  have hmem : p ∈ L.base :: frees bs₁ := getLastD_mem _ _
  have hsize : size m t.addr = t.size := h.sizes t (by simp)
  have hco := List.isChain_split.1 h.coalesced
  have hend := hbehind.le
  have hbrk := h.brk_lt
  have hstart := L.base_below
  have hle := hbefore.le
  -- whatever is stored, it is in the header of the block
  have hcut : ∀ {m'} d bs, OnlyAt t.addr m m' → t.size ≤ d → (∀ b ∈ bs, b ∈ bs₂) →
      Covers (t.addr + 16 * d) bs brk → (∀ b, Coalesced (b :: bs)) → size m' t.addr = d →
      Leads (ptr m') t.addr (frees bs) L.base → Cut L brk t.addr d (ptr m p) bs₁ bs m' := by
    intro m' d bs honly hd hsub hcovers hcoal hsize' hleads
    refine ⟨hbefore, hcovers, by omega, hbrk, hco.1.left_of_append, hcoal, ?_, hsize',
      ?_, ?_, hleads⟩
    · intro b hb
      rcases List.mem_append.1 hb with hb | hb
      · have := hbefore.inside hb
        rw [honly.size (by omega)]
        exact h.sizes b (by simp [hb])
      · have := hbehind.inside (hsub b hb)
        rw [honly.size (by omega)]
        exact h.sizes b (by simp [hsub b hb])
    · rw [honly.size (by omega)]
      exact h.base_size
    · exact hleft.congr fun x hx => honly.ptr (by have := hbefore.base_free hx; omega)
  by_cases hfree : ∃ u bs, bs₂ = u :: bs ∧ u.owner = none
  · obtain ⟨u, bs, rfl, hu⟩ := hfree
    obtain ⟨huaddr, hupos, hrest⟩ := hbehind
    rw [frees_cons_free hu] at hright
    have husize : size m u.addr = u.size := h.sizes u (by simp)
    have hrestle := hrest.le
    have honly : OnlyAt t.addr m (setSize m t.addr (size m t.addr + size m (ptr m p))) :=
      onlyAt_setSize
    have hpp : ptr (setSize m t.addr (size m t.addr + size m (ptr m p))) p = ptr m p :=
      honly.ptr (by have := hbefore.base_free hmem; omega)
    have hpu : ptr (setSize m t.addr (size m t.addr + size m (ptr m p))) u.addr = ptr m u.addr :=
      honly.ptr (by omega)
    have heq : joinNext m t.addr p =
        setPtr (setSize m t.addr (t.size + u.size)) t.addr (ptr m u.addr) := by
      rw [joinNext, if_pos (by rw [hsize, hright.1, huaddr])]
      dsimp only
      rw [hpp, hright.1, ← hright.1, hright.1, hsize, husize] at *
      rw [hpu]
    rw [heq]
    have honly' : OnlyAt t.addr m (setPtr (setSize m t.addr (t.size + u.size)) t.addr
        (ptr m u.addr)) := onlyAt_setSize.trans onlyAt_setPtr
    refine ⟨t.size + u.size, bs, by omega, fun b hb => ?_, ?_⟩
    · rw [List.mem_cons, or_iff_right]
      rintro rfl
      exact hb hu
    · refine hcut _ bs honly' (by omega) (fun b hb => List.mem_cons_of_mem _ hb) ?_ ?_ ?_ ?_
      · rw [show t.addr + 16 * (t.size + u.size) = t.addr + 16 * t.size + 16 * u.size by omega]
        exact hrest
      · exact coalesced_cons hco.2.of_cons hu
      · rw [size_setPtr, size_setSize (by omega)]
      · refine hright.2.start (ptr_setPtr ptr_lt) fun x hx => honly'.ptr ?_
        have := hrest.free_inside hx
        omega
  · have hne : t.addr + 16 * size m t.addr ≠ ptr m p := by
      rw [hsize]
      cases bs₂ with
      | nil =>
          rw [show ptr m p = L.base from hright]
          omega
      | cons u bs =>
          have hu : u.owner ≠ none := fun hu => hfree ⟨u, bs, rfl, hu⟩
          rw [frees_cons_owned hu] at hright
          obtain ⟨-, hupos, hrest⟩ := hbehind
          cases hfrees : frees bs with
          | nil =>
              rw [hfrees] at hright
              rw [show ptr m p = L.base from hright]
              omega
          | cons x l =>
              rw [hfrees] at hright
              have := hrest.free_inside (hfrees ▸ List.mem_cons_self)
              rw [hright.1]
              omega
    rw [joinNext, if_neg hne]
    refine ⟨t.size, bs₂, le_refl _, fun b _ => Iff.rfl, ?_⟩
    refine hcut _ _ onlyAt_setPtr (le_refl _) (fun b hb => hb) hbehind ?_ ?_ ?_
    · cases bs₂ with
      | nil => exact fun b => .singleton _
      | cons u bs =>
          refine fun b => List.isChain_cons_cons.2 ⟨fun _ hu => hfree ⟨u, bs, rfl, hu⟩, ?_⟩
          exact hco.2.of_cons
    · rw [size_setPtr, hsize]
    · refine hright.start (ptr_setPtr ptr_lt) fun x hx => onlyAt_setPtr.ptr ?_
      have := hbehind.free_inside hx
      omega

/-- The block gets its place in the ring. -/
structure Freed (L : Layout) (brk d p : Nat) (bs₁ bs₂ bs : List Block) (m : Mem) : Prop where
  shape : Shape L brk bs m
  freep : p ∈ L.base :: frees bs
  room : ∃ b ∈ bs, b.owner = none ∧ d ≤ b.size
  owned : ∀ b : Block, b.owner ≠ none → (b ∈ bs ↔ b ∈ bs₁ ++ bs₂)

/-- With nothing to join, the block is put behind `p`. -/
theorem Cut.link (h : Cut L brk a d q bs₁ bs₂ m) (hco : ∀ b, Coalesced (bs₁ ++ [b])) :
    Freed L brk d ((frees bs₁).getLastD L.base) bs₁ bs₂ (bs₁ ++ ⟨a, d, none⟩ :: bs₂)
      (setPtr m ((frees bs₁).getLastD L.base) a) := by
  have hmem : (frees bs₁).getLastD L.base ∈ L.base :: frees bs₁ := getLastD_mem _ _
  generalize hp : (frees bs₁).getLastD L.base = p at hmem ⊢
  have hin := h.before.base_free hmem
  have hbrk := h.brk_lt
  have hend := h.behind.le
  have hpos := h.pos
  have hbase := L.base_below
  have honly : OnlyAt p m (setPtr m p a) := onlyAt_setPtr
  have hfrees : frees (bs₁ ++ ⟨a, d, none⟩ :: bs₂) = frees bs₁ ++ a :: frees bs₂ := by
    rw [frees_append, frees_cons_free rfl]
  refine ⟨⟨covers_append.2 ⟨a, h.before, rfl, hpos, h.behind⟩, hbrk,
    List.isChain_split.2 ⟨hco _, h.coalesced_behind _⟩, ?_, ?_, ?_⟩, ?_, ?_, ?_⟩
  · intro b hb
    rw [List.mem_append, List.mem_cons] at hb
    rcases hb with hb | rfl | hb
    · rw [size_setPtr_of (h.before.header_apart hmem hb)]
      exact h.sizes b (List.mem_append_left _ hb)
    · exact (honly.size (.inr hin.1)).trans h.size
    · have := h.behind.inside hb
      rw [honly.size (by omega)]
      exact h.sizes b (List.mem_append_right _ hb)
  · rw [size_setPtr_of (h.before.ring_apart hmem List.mem_cons_self)]
    exact h.base_size
  · rw [hfrees]
    refine Leads.append_iff.2 ⟨h.ring_before.setLast h.before.ring_nodup ?_ ?_, ?_⟩
    · rw [hp]
      exact ptr_setPtr (by omega)
    · intro x hx hne
      rw [hp] at hne
      exact honly.ptr ((h.before.ring_apart hmem hx).resolve_left hne)
    · refine h.ring_behind.congr fun x hx => honly.ptr (.inr ?_)
      rcases List.mem_cons.1 hx with rfl | hx
      · exact hin.1
      · have := h.behind.free_inside hx
        omega
  · rw [hfrees, ← List.cons_append]
    exact List.mem_append_left _ hmem
  · exact ⟨⟨a, d, none⟩, by simp, rfl, Nat.le_refl d⟩
  · intro b hb
    have hne : b ≠ ⟨a, d, none⟩ := by
      rintro rfl
      exact hb rfl
    simp [hne]

/-- The block is joined with the free one before it. -/
theorem Cut.join (h : Cut L brk a d q (bs₁ ++ [u]) bs₂ m) (hu : u.owner = none) :
    Freed L brk d u.addr (bs₁ ++ [u]) bs₂ (bs₁ ++ ⟨u.addr, u.size + d, none⟩ :: bs₂)
      (setPtr (setSize m u.addr (u.size + d)) u.addr (ptr m a)) := by
  obtain ⟨e, hbefore, rfl, hupos, hend⟩ := covers_append.1 h.before
  change u.addr + 16 * u.size = a at hend
  have hbrk := h.brk_lt
  have hbehind := h.behind.le
  have honly : OnlyAt u.addr m (setPtr (setSize m u.addr (u.size + d)) u.addr (ptr m a)) :=
    onlyAt_setSize.trans onlyAt_setPtr
  have hfrees : frees (bs₁ ++ ⟨u.addr, u.size + d, none⟩ :: bs₂) =
      frees bs₁ ++ u.addr :: frees bs₂ := by
    rw [frees_append, frees_cons_free rfl]
  have hring := h.ring_before
  rw [frees_append, frees_cons_free hu, Leads.append_iff] at hring
  refine ⟨⟨covers_append.2 ⟨_, hbefore, rfl, Nat.add_pos_left hupos d, ?_⟩, hbrk,
    List.isChain_split.2 ⟨coalesced_concat h.coalesced_before hu _, h.coalesced_behind _⟩,
    ?_, ?_, ?_⟩, ?_, ?_, ?_⟩
  · rw [show u.addr + 16 * (u.size + d) = a + 16 * d by omega]
    exact h.behind
  · intro b hb
    rw [List.mem_append, List.mem_cons] at hb
    rcases hb with hb | rfl | hb
    · have := hbefore.inside hb
      rw [honly.size (by omega)]
      exact h.sizes b (by simp [hb])
    · rw [size_setPtr, size_setSize (by omega)]
    · have := h.behind.inside hb
      rw [honly.size (by omega)]
      exact h.sizes b (by simp [hb])
  · have := hbefore.base_free List.mem_cons_self
    rw [honly.size (by omega)]
    exact h.base_size
  · rw [hfrees]
    refine Leads.append_iff.2 ⟨hring.1.congr fun x hx => honly.ptr ?_,
      h.ring_behind.start (ptr_setPtr ptr_lt) fun x hx => honly.ptr ?_⟩
    · have := hbefore.base_free hx
      omega
    · have := h.behind.free_inside hx
      omega
  · rw [hfrees]
    simp
  · exact ⟨⟨u.addr, u.size + d, none⟩, by simp, rfl, Nat.le_add_left d u.size⟩
  · intro b hb
    have hne : b ≠ ⟨u.addr, u.size + d, none⟩ := by
      rintro rfl
      exact hb rfl
    have hne' : b ≠ u := by
      rintro rfl
      exact hb hu
    simp [hne, hne']

theorem joinPrev_spec (h : Cut L brk a d q bs₁ bs₂ m) :
    ∃ bs, Freed L brk d ((frees bs₁).getLastD L.base) bs₁ bs₂ bs
      (joinPrev m a ((frees bs₁).getLastD L.base)) := by
  have hbase := L.base_below
  have hle := h.before.le
  have hmem : (frees bs₁).getLastD L.base ∈ L.base :: frees bs₁ := getLastD_mem _ _
  cases bs₁ using List.reverseRecOn with
  | nil =>
      have hne : (frees []).getLastD L.base + 16 * size m ((frees []).getLastD L.base) ≠ a := by
        change L.base + 16 * size m L.base ≠ a
        rw [h.base_size]
        omega
      rw [joinPrev, if_neg hne]
      exact ⟨_, h.link fun b => .singleton _⟩
  | append_singleton bs u =>
      obtain ⟨e, hbefore, rfl, hupos, hend⟩ := covers_append.1 h.before
      change u.addr + 16 * u.size = a at hend
      have husize : size m u.addr = u.size := h.sizes u (by simp)
      by_cases hu : u.owner = none
      · have hlast : (frees (bs ++ [u])).getLastD L.base = u.addr := by
          rw [frees_append, frees_cons_free hu, frees_nil, List.getLastD_concat]
        have hptr : ptr (setSize m u.addr (u.size + d)) a = ptr m a :=
          onlyAt_setSize.ptr (by omega)
        have heq : joinPrev m a u.addr =
            setPtr (setSize m u.addr (u.size + d)) u.addr (ptr m a) := by
          rw [joinPrev, if_pos (by rw [husize, hend])]
          dsimp only
          rw [husize, h.size, hptr]
        rw [hlast, heq]
        exact ⟨_, h.join hu⟩
      · -- the last free block ends before `u`
        have hne : (frees (bs ++ [u])).getLastD L.base +
            16 * size m ((frees (bs ++ [u])).getLastD L.base) ≠ a := by
          rcases List.mem_cons.1 hmem with hp | hp
          · rw [hp, h.base_size]
            omega
          · obtain ⟨b, hb, hfree, haddr⟩ := mem_frees.1 hp
            rw [← haddr, h.sizes b (List.mem_append_left _ hb)]
            rcases List.mem_append.1 hb with hb | hb
            · have := hbefore.inside hb
              omega
            · rw [List.mem_singleton.1 hb] at hfree
              exact absurd hfree hu
        rw [joinPrev, if_neg hne]
        refine ⟨_, h.link fun b => ?_⟩
        rw [List.append_assoc]
        refine List.isChain_split.2 ⟨h.coalesced_before, ?_⟩
        exact List.isChain_cons_cons.2 ⟨fun hu' => absurd hu' hu, .singleton _⟩

theorem onlyAt_joinNext : OnlyAt a m (joinNext m a p) := by
  rw [joinNext]
  split
  · exact onlyAt_setSize.trans onlyAt_setPtr
  · exact onlyAt_setPtr

theorem onlyAt_joinPrev : OnlyAt p m (joinPrev m a p) := by
  rw [joinPrev]
  split
  · exact onlyAt_setSize.trans onlyAt_setPtr
  · exact onlyAt_setPtr

/-- Where the loop of `free` stops. -/
def Stops (m : Mem) (bp p : Nat) : Prop :=
  (bp > p ∧ bp < ptr m p) ∨ (p ≥ ptr m p ∧ (bp > p ∨ bp < ptr m p))

theorem freeLoop_spec {l : List Nat} {fuel bp : Nat} (h : Leads (ptr m) x l c)
    (hfuel : l.length < fuel) (hp : p ∈ x :: l) (hstop : ∀ y ∈ x :: l, Stops m bp y ↔ y = p) :
    freeLoop fuel m bp x = some p := by
  induction l generalizing x fuel with
  | nil =>
      obtain ⟨fuel, rfl⟩ := Nat.exists_eq_succ_of_ne_zero (Nat.ne_of_gt hfuel)
      obtain rfl := List.mem_singleton.1 hp
      have := (hstop p hp).2 rfl
      grind [freeLoop, Stops]
  | cons y l ih =>
      obtain ⟨fuel, rfl⟩ := Nat.exists_eq_succ_of_ne_zero (Nat.ne_of_gt (Nat.zero_lt_of_lt hfuel))
      have hx := hstop x List.mem_cons_self
      by_cases hxp : x = p
      · have := hx.2 hxp
        grind [freeLoop, Stops]
      · have hrest := ih h.2 (Nat.lt_of_succ_lt_succ hfuel) ((List.mem_cons.1 hp).resolve_left
          (Ne.symm hxp)) fun z hz => hstop z (List.mem_cons_of_mem _ hz)
        have hnot : ¬Stops m bp x := fun h => hxp (hx.1 h)
        rw [Stops, not_or] at hnot
        rw [freeLoop, if_neg hnot.1, if_neg hnot.2, h.1, hrest]

/-- The loop stops at the last free block before the one to be freed. -/
theorem Shape.stops_iff (h : Shape L brk (bs₁ ++ t :: bs₂) m) (ht : t.owner ≠ none)
    (hx : x ∈ L.base :: frees (bs₁ ++ t :: bs₂)) :
    Stops m t.addr x ↔ x = (frees bs₁).getLastD L.base := by
  obtain ⟨e, hbefore, rfl, hpos, hbehind⟩ := covers_append.1 h.covers
  have hring := h.ring
  have hsorted := h.covers.ring_sorted
  rw [frees_append, frees_cons_owned ht] at hring hx hsorted
  have hleft := hring.left
  have hright := hring.right
  have hlast : (frees bs₁).getLastD L.base ∈ L.base :: frees bs₁ := getLastD_mem _ _
  have hlow := hbefore.base_free hlast
  have hbase := hbefore.base_free List.mem_cons_self
  constructor
  · intro hstop
    rw [← List.cons_append, List.mem_append] at hx
    rcases hx with hx | hx
    · have hin := hbefore.base_free hx
      rcases hleft.next_cases (hsorted.sublist (by simp)) hx with ⟨rfl, -⟩ | ⟨hmem, hlt⟩
      · rfl
      · have := hbefore.free_inside hmem
        rw [Stops] at hstop
        omega
    · have hin := hbehind.free_inside hx
      have hsub : ((frees bs₁).getLastD L.base :: frees bs₂).Pairwise (· < ·) := by
        refine .cons (fun y hy => ?_) (hsorted.sublist (by simp))
        have := hbehind.free_inside hy
        omega
      rcases hright.next_cases hsub (List.mem_cons_of_mem _ hx) with ⟨-, hnext⟩ | ⟨-, hlt⟩
      · rw [Stops, hnext] at hstop
        omega
      · rw [Stops] at hstop
        omega
  · rintro rfl
    rw [Stops]
    cases hfrees : frees bs₂ with
    | nil =>
        rw [hfrees] at hright
        rw [show ptr m ((frees bs₁).getLastD L.base) = L.base from hright]
        omega
    | cons y l =>
        have hin := hbehind.free_inside (hfrees ▸ List.mem_cons_self)
        rw [hfrees] at hright
        rw [hright.1]
        omega

/-- The blocks that are not free keep what they hold. -/
def Kept (bs : List Block) (m m' : Mem) : Prop :=
  ∀ b ∈ bs, b.owner ≠ none → ∀ x, b.addr ≤ x → x < b.addr + 16 * b.size → m' x = m x

theorem free_spec {s : State} (h : Shape L s.brk (bs₁ ++ t :: bs₂) s.mem) (ht : t.owner ≠ none)
    (hfreep : s.freep ∈ L.base :: frees (bs₁ ++ t :: bs₂)) :
    ∃ m' p bs, free s (t.addr + 16) = some { s with mem := m', freep := p } ∧
      Shape L s.brk bs m' ∧ p ∈ L.base :: frees bs ∧
      (∃ b ∈ bs, b.owner = none ∧ t.size ≤ b.size) ∧
      (∀ b : Block, b.owner ≠ none → (b ∈ bs ↔ b ∈ bs₁ ++ bs₂)) ∧
      Kept (bs₁ ++ bs₂) s.mem m' := by
  obtain ⟨l, hl, hperm⟩ := h.ring.rotate hfreep
  have hlen := hperm.length_eq
  have hcount := h.covers.length
  have hbrk := h.brk_lt
  have hle := @frees_length (bs₁ ++ t :: bs₂)
  rw [List.length_cons, List.length_cons] at hlen
  have hp : (frees bs₁).getLastD L.base ∈ L.base :: frees bs₁ := getLastD_mem _ _
  have hp' : (frees bs₁).getLastD L.base ∈ L.base :: frees (bs₁ ++ t :: bs₂) := by
    rw [frees_append, ← List.cons_append]
    exact List.mem_append_left _ hp
  have hloop : freeLoop (2 ^ 32) s.mem t.addr s.freep =
      some ((frees bs₁).getLastD L.base) :=
    freeLoop_spec hl (by omega) (hperm.mem_iff.2 hp') fun y hy =>
      h.stops_iff ht (hperm.mem_iff.1 hy)
  obtain ⟨d, bs₃, hd, howned, hcut⟩ := joinNext_spec h ht
  obtain ⟨bs, hfreed⟩ := joinPrev_spec hcut
  refine ⟨_, _, bs, ?_, hfreed.shape, hfreed.freep, ?_, ?_, ?_⟩
  · rw [free, Nat.add_sub_cancel, hloop]
    rfl
  · obtain ⟨b, hb, hfree, hsize⟩ := hfreed.room
    exact ⟨b, hb, hfree, by omega⟩
  · intro b hb
    rw [hfreed.owned b hb, List.mem_append, List.mem_append, howned b hb]
  · intro b hb hb' x hx hx'
    have hmem : b ∈ bs₁ ++ t :: bs₂ := by
      rw [List.mem_append, List.mem_cons]
      exact (List.mem_append.1 hb).imp_right .inr
    obtain ⟨e, hbefore, rfl, hpos, hbehind⟩ := covers_append.1 h.covers
    rw [onlyAt_joinPrev x (h.covers.owned_outside hp' hmem hb' hx hx')]
    refine onlyAt_joinNext x ?_
    rcases List.mem_append.1 hb with hb | hb
    · have := hbefore.inside hb
      omega
    · have := hbehind.inside hb
      omega

/-! ## A block is taken -/

theorem coalesced_owned (h : Coalesced (bs₁ ++ t :: bs₂)) (hu : u.owner ≠ none) :
    Coalesced (bs₁ ++ u :: bs₂) := by
  obtain ⟨hbefore, hbehind⟩ := List.isChain_split.1 h
  refine List.isChain_split.2 ⟨?_, ?_⟩
  · cases bs₁ using List.reverseRecOn with
    | nil => exact .singleton _
    | append_singleton bs b =>
        rw [List.append_assoc, List.singleton_append, List.isChain_split] at hbefore ⊢
        exact ⟨hbefore.1, List.isChain_cons_cons.2 ⟨fun _ => hu, .singleton _⟩⟩
  · cases bs₂ with
    | nil => exact .singleton _
    | cons b bs => exact List.isChain_cons_cons.2 ⟨fun h => absurd h hu, hbehind.of_cons⟩

/-- What `take` returns, and the blocks then. -/
structure Taken (L : Layout) (s : State) (nunits n : Nat) (bs bs' : List Block) (t : Block)
    (r : Nat × State) : Prop where
  ret : r.1 = t.addr + 16
  size : t.size = nunits
  owner : t.owner = some n
  shape : Shape L s.brk bs' r.2.mem
  freep : r.2.freep ∈ L.base :: frees bs'
  owned : ∀ b : Block, b.owner ≠ none → (b ∈ bs' ↔ b = t ∨ b ∈ bs)
  fresh : ∀ b ∈ bs, b.owner ≠ none → b.addr ≠ t.addr
  kept : Kept bs s.mem r.2.mem
  brk : r.2.brk = s.brk
  sbrks : r.2.sbrks = s.sbrks
  live : r.2.live = s.live

theorem take_exact {s : State} (h : Shape L s.brk (bs₁ ++ t :: bs₂) s.mem) (ht : t.owner = none) :
    Taken L s t.size n (bs₁ ++ t :: bs₂) (bs₁ ++ { t with owner := some n } :: bs₂)
      { t with owner := some n } (take s t.size ((frees bs₁).getLastD L.base) t.addr) := by
  have hmem : (frees bs₁).getLastD L.base ∈ L.base :: frees bs₁ := getLastD_mem _ _
  generalize hp : (frees bs₁).getLastD L.base = p at hmem ⊢
  have hmem' : p ∈ L.base :: frees (bs₁ ++ t :: bs₂) := by
    rw [frees_append, ← List.cons_append]
    exact List.mem_append_left _ hmem
  have htmem : t ∈ bs₁ ++ t :: bs₂ := by simp
  have hsize : size s.mem t.addr = t.size := h.sizes t htmem
  obtain ⟨e, hbefore, rfl, hpos, hbehind⟩ := covers_append.1 h.covers
  have hin := hbefore.base_free hmem
  have honly : OnlyAt p s.mem (setPtr s.mem p (ptr s.mem t.addr)) := onlyAt_setPtr
  have hring := h.ring
  rw [frees_append, frees_cons_free ht, Leads.append_iff] at hring
  have hfrees : frees (bs₁ ++ { t with owner := some n } :: bs₂) = frees bs₁ ++ frees bs₂ := by
    rw [frees_append, frees_cons_owned (by simp)]
  rw [take, if_pos hsize]
  refine ⟨rfl, rfl, rfl, ⟨?_, h.brk_lt, coalesced_owned h.coalesced (by simp), ?_, ?_, ?_⟩, ?_, ?_,
    ?_, ?_, rfl, rfl, rfl⟩
  · exact covers_append.2 ⟨_, hbefore, rfl, hpos, hbehind⟩
  · intro b hb
    rw [List.mem_append, List.mem_cons] at hb
    have hsame : ∀ b ∈ bs₁ ++ t :: bs₂, size (setPtr s.mem p (ptr s.mem t.addr)) b.addr =
        b.size := by
      intro b hb
      rw [size_setPtr_of (h.covers.header_apart hmem' hb)]
      exact h.sizes b hb
    rcases hb with hb | rfl | hb
    · exact hsame b (by simp [hb])
    · exact hsame t (by simp)
    · exact hsame b (by simp [hb])
  · rw [size_setPtr_of (h.covers.ring_apart hmem' List.mem_cons_self)]
    exact h.base_size
  · rw [hfrees]
    refine hring.1.remove hring.2 hbefore.ring_nodup ?_ ?_ ?_
    · rw [hp]
      exact ptr_setPtr ptr_lt
    · intro x hx hne
      rw [hp] at hne
      exact honly.ptr ((hbefore.ring_apart hmem hx).resolve_left hne)
    · intro x hx
      have := hbehind.free_inside hx
      exact honly.ptr (by omega)
  · rw [hfrees, ← List.cons_append]
    exact List.mem_append_left _ hmem
  · intro b hb
    have hne : b ≠ t := by
      rintro rfl
      exact hb ht
    simp only [List.mem_append, List.mem_cons, hne, false_or]
    exact or_left_comm
  · intro b hb hb' haddr
    have hin' := h.covers.inside hb
    rcases h.covers.eq_or_apart hb htmem with rfl | hlt | hlt
    · exact hb' ht
    · dsimp only at haddr
      omega
    · dsimp only at haddr
      omega
  · exact fun b hb hb' x hx hx' => honly x (h.covers.owned_outside hmem' hb hb' hx hx')

theorem take_split {s : State} {nunits : Nat} (h : Shape L s.brk (bs₁ ++ t :: bs₂) s.mem)
    (ht : t.owner = none) (hp : p ∈ L.base :: frees (bs₁ ++ t :: bs₂)) (hunits : 0 < nunits)
    (hlt : nunits < t.size) :
    Taken L s nunits n (bs₁ ++ t :: bs₂)
      (bs₁ ++ { t with size := t.size - nunits } ::
        ⟨t.addr + 16 * (t.size - nunits), nunits, some n⟩ :: bs₂)
      ⟨t.addr + 16 * (t.size - nunits), nunits, some n⟩ (take s nunits p t.addr) := by
  have htmem : t ∈ bs₁ ++ t :: bs₂ := by simp
  have hsize : size s.mem t.addr = t.size := h.sizes t htmem
  obtain ⟨e, hbefore, rfl, hpos, hbehind⟩ := covers_append.1 h.covers
  have hend := hbehind.le
  have hbrk := h.brk_lt
  have hsize' : size (setSize s.mem t.addr (t.size - nunits)) t.addr = t.size - nunits :=
    size_setSize (by omega)
  rw [take, if_neg (by omega)]
  dsimp only
  rw [hsize, hsize']
  generalize hq : t.addr + 16 * (t.size - nunits) = q
  generalize hm : setSize (setSize s.mem t.addr (t.size - nunits)) q nunits = m'
  have honly : OnlyAt q (setSize s.mem t.addr (t.size - nunits)) m' := hm ▸ onlyAt_setSize
  have honly' : OnlyAt t.addr s.mem (setSize s.mem t.addr (t.size - nunits)) := onlyAt_setSize
  -- both headers are inside the block
  have hsame : ∀ x, x < t.addr ∨ t.addr + 16 * t.size ≤ x → m' x = s.mem x := fun x hx =>
    (honly x (by omega)).trans (honly' x (by omega))
  have houter : ∀ b ∈ bs₁ ++ bs₂, size m' b.addr = b.size := by
    intro b hb
    have hout : b.addr + 16 ≤ t.addr ∨ t.addr + 16 * t.size ≤ b.addr := by
      rcases List.mem_append.1 hb with hb | hb
      · have := hbefore.inside hb
        omega
      · have := hbehind.inside hb
        omega
    rw [honly.size (by omega), honly'.size (by omega)]
    exact h.sizes b (by simp at hb ⊢; tauto)
  have hfrees : frees (bs₁ ++ { t with size := t.size - nunits } :: ⟨q, nunits, some n⟩ :: bs₂) =
      frees (bs₁ ++ t :: bs₂) := by
    rw [frees_append, frees_append, @frees_cons_free { t with size := t.size - nunits } _ ht,
      frees_cons_owned (by simp), @frees_cons_free t _ ht]
  have hco := List.isChain_split.1 h.coalesced
  refine ⟨rfl, rfl, rfl, ⟨?_, h.brk_lt, ?_, ?_, ?_, ?_⟩, hfrees ▸ hp, ?_, ?_, ?_, rfl, rfl, rfl⟩
  · refine covers_append.2 ⟨_, hbefore, rfl, Nat.sub_pos_of_lt hlt, hq.symm, hunits, ?_⟩
    dsimp only
    rw [show t.addr + 16 * (t.size - nunits) + 16 * nunits = t.addr + 16 * t.size by omega]
    exact hbehind
  · refine List.isChain_split.2 ⟨coalesced_concat hco.1 ht _, ?_⟩
    refine List.isChain_cons_cons.2 ⟨fun _ => by simp, ?_⟩
    cases bs₂ with
    | nil => exact .singleton _
    | cons b bs => exact List.isChain_cons_cons.2 ⟨nofun, hco.2.of_cons⟩
  · intro b hb
    simp only [List.mem_append, List.mem_cons] at hb
    rcases hb with hb | rfl | rfl | hb
    · exact houter b (by simp [hb])
    · exact (honly.size (by dsimp only; omega)).trans hsize'
    · rw [← hm]
      exact size_setSize (by omega)
    · exact houter b (by simp [hb])
  · have := hbefore.base_free List.mem_cons_self
    rw [honly.size (by omega), honly'.size (by omega)]
    exact h.base_size
  · rw [hfrees]
    refine h.ring.congr fun x hx => ?_
    have hout := h.covers.header_apart hx htmem
    have hin : x = t.addr ∨ x + 16 ≤ t.addr ∨ t.addr + 16 * t.size ≤ x := by
      rw [frees_append, frees_cons_free ht, ← List.cons_append, List.mem_append,
        List.mem_cons (l := frees bs₂)] at hx
      rcases hx with hx | rfl | hx
      · exact .inr (.inl (hbefore.base_free hx).1)
      · exact .inl rfl
      · exact .inr (.inr (hbehind.free_inside hx).1)
    rw [honly.ptr (by omega)]
    rcases hin with rfl | hin
    · exact ptr_setSize
    · exact honly'.ptr (by omega)
  · intro b hb
    have hne : b ≠ t := by
      rintro rfl
      exact hb ht
    have hne' : b ≠ { t with size := t.size - nunits } := by
      rintro rfl
      exact hb ht
    simp only [List.mem_append, List.mem_cons, hne, hne', false_or]
    exact or_left_comm
  · intro b hb hb' haddr
    have hin' := h.covers.inside hb
    rcases h.covers.eq_or_apart hb htmem with rfl | hlt | hlt
    · exact hb' ht
    · dsimp only at haddr
      omega
    · dsimp only at haddr
      omega
  · intro b hb hb' x hx hx'
    have hin' := h.covers.inside hb
    rcases h.covers.eq_or_apart hb htmem with rfl | hlt | hlt
    · exact absurd ht hb'
    · exact hsame x (by omega)
    · exact hsame x (by omega)

theorem take_spec {s : State} {nunits prevp : Nat} (h : Shape L s.brk bs s.mem)
    (hprevp : prevp ∈ L.base :: frees bs) (hp : p ∈ L.base :: frees bs)
    (hnext : ptr s.mem prevp = p) (hunits : 0 < nunits) (hsize : nunits ≤ size s.mem p) (n : Nat) :
    ∃ bs' t, Taken L s nunits n bs bs' t (take s nunits prevp p) := by
  rcases List.mem_cons.1 hp with rfl | hp
  · rw [h.base_size] at hsize
    omega
  · obtain ⟨t, ht, hfree, rfl⟩ := mem_frees.1 hp
    have htsize := h.sizes t ht
    obtain ⟨bs₁, bs₂, rfl⟩ := List.append_of_mem ht
    rcases Nat.eq_or_lt_of_le hsize with heq | hlt
    · -- only the last free block before `t` leads to `t`
      have hring := h.ring
      have hlast : prevp = (frees bs₁).getLastD L.base := by
        refine hring.inj ?_ hprevp ?_ ?_
        · exact List.perm_append_singleton _ _ |>.nodup_iff.2 h.covers.ring_nodup
        · rw [frees_append, ← List.cons_append]
          exact List.mem_append_left _ (getLastD_mem _ _)
        · rw [frees_append, frees_cons_free hfree, Leads.append_iff] at hring
          rw [hnext, hring.1.next_last]
      rw [hlast, heq, htsize]
      exact ⟨_, _, take_exact h hfree⟩
    · exact ⟨_, _, take_split h hfree hprevp hunits (by omega)⟩

/-! ## The search -/

theorem search_spec (grants : Nat → Bool) (nunits : Nat) {fuel : Nat} {s : State} {l : List Nat}
    (h : Leads (ptr s.mem) x l s.freep) (hnot : s.freep ∉ l) (hfuel : l.length < fuel) :
    (∃ prevp ∈ x :: l, ∃ p ∈ l ++ [s.freep], ptr s.mem prevp = p ∧ nunits ≤ size s.mem p ∧
      mallocLoop grants nunits fuel s x (ptr s.mem x) = some (take s nunits prevp p)) ∨
    ((∀ p ∈ l ++ [s.freep], size s.mem p < nunits) ∧ ∃ fuel', l.length + fuel' + 1 = fuel ∧
      mallocLoop grants nunits fuel s x (ptr s.mem x) =
        match morecore grants s nunits with
        | none => none
        | some (p, s) =>
            if p = 0 then some (0, s) else mallocLoop grants nunits fuel' s p (ptr s.mem p)) := by
  obtain ⟨fuel, rfl⟩ := Nat.exists_eq_succ_of_ne_zero (Nat.ne_of_gt (Nat.zero_lt_of_lt hfuel))
  induction l generalizing x fuel with
  | nil =>
      rw [mallocLoop, show ptr s.mem x = s.freep from h]
      by_cases hsize : nunits ≤ size s.mem s.freep
      · exact .inl ⟨x, by simp, s.freep, by simp, h, hsize, if_pos hsize⟩
      · refine .inr ⟨fun p hp => ?_, fuel, by simp, ?_⟩
        · rw [List.mem_singleton.1 hp]
          omega
        · rw [if_neg hsize, if_pos rfl]
  | cons y l ih =>
      rw [List.mem_cons, not_or] at hnot
      rw [mallocLoop, h.1]
      by_cases hsize : nunits ≤ size s.mem y
      · exact .inl ⟨x, by simp, y, by simp, h.1, hsize, if_pos hsize⟩
      · rw [if_neg hsize, if_neg (Ne.symm hnot.1)]
        rw [List.length_cons] at hfuel
        obtain ⟨fuel, rfl⟩ := Nat.exists_eq_succ_of_ne_zero (Nat.ne_of_gt (show 0 < fuel by omega))
        rcases ih h.2 hnot.2 fuel (by omega) with ⟨prevp, hprevp, p, hp, hfound⟩ |
          ⟨hsmall, fuel', hf, heq⟩
        · exact .inl ⟨prevp, List.mem_cons_of_mem _ hprevp, p, List.mem_cons_of_mem _ hp, hfound⟩
        · refine .inr ⟨fun p hp => ?_, fuel', by rw [List.length_cons]; omega, heq⟩
          rcases List.mem_cons.1 hp with rfl | hp
          · omega
          · exact hsmall p hp

/-- More memory, with a block that is not in the ring yet. -/
theorem Shape.extend (h : Shape L brk bs m) (hd : 0 < d) (hbrk : brk + 16 * d < 2 ^ 32) :
    Shape L (brk + 16 * d) (bs ++ [⟨brk, d, some 0⟩]) (setSize m brk d) := by
  have honly : OnlyAt brk m (setSize m brk d) := onlyAt_setSize
  have hfrees : frees (bs ++ [⟨brk, d, some 0⟩]) = frees bs := by
    rw [frees_append, frees_cons_owned (by simp), frees_nil, List.append_nil]
  refine ⟨covers_append.2 ⟨brk, h.covers, rfl, hd, rfl⟩, hbrk, ?_, ?_, ?_, ?_⟩
  · cases bs using List.reverseRecOn with
    | nil => exact .singleton _
    | append_singleton bs b =>
        rw [Coalesced, List.append_assoc, List.singleton_append, List.isChain_split]
        exact ⟨h.coalesced, List.isChain_cons_cons.2 ⟨fun _ => by simp, .singleton _⟩⟩
  · intro b hb
    rcases List.mem_append.1 hb with hb | hb
    · have := h.covers.inside hb
      rw [honly.size (by omega)]
      exact h.sizes b hb
    · rw [List.mem_singleton.1 hb]
      exact size_setSize (by omega)
  · rw [honly.size (.inl (h.covers.base_free List.mem_cons_self).1)]
    exact h.base_size
  · rw [hfrees]
    exact h.ring.congr fun x hx => honly.ptr (.inl (h.covers.base_free hx).1)

/-- `morecore` fails, or there is a free block that is large enough. -/
theorem morecore_spec (grants : Nat → Bool) {s : State} {nunits : Nat}
    (h : Shape L s.brk bs s.mem) (hfreep : s.freep ∈ L.base :: frees bs)
    (hunits : nunits * 16 < 2 ^ 31) :
    morecore grants s nunits = some (0, { s with sbrks := false :: s.sbrks }) ∨
    ∃ s' bs', morecore grants s nunits = some (s'.freep, s') ∧ Shape L s'.brk bs' s'.mem ∧
      s'.freep ∈ L.base :: frees bs' ∧ s'.live = s.live ∧
      (∃ b ∈ bs', b.owner = none ∧ nunits ≤ b.size) ∧
      (∀ b : Block, b.owner ≠ none → (b ∈ bs' ↔ b ∈ bs)) ∧ Kept bs s.mem s'.mem := by
  rw [morecore]
  generalize hnu : (if nunits < 4096 then 4096 else nunits) = nu
  have hle : nunits ≤ nu ∧ 0 < nu ∧ nu * 16 < 2 ^ 31 := by
    split at hnu <;> omega
  have hmod : Int.bmod (nu * 16) (2 ^ 32) = nu * 16 := by
    rw [Int.bmod_def]
    split <;> omega
  rw [hmod, sbrk]
  by_cases hcond : grants s.sbrks.length = true ∧ 0 ≤ (s.brk : Int) + nu * 16 ∧
      (s.brk : Int) + nu * 16 < 2 ^ 32
  · rw [if_pos hcond]
    have hbrk : ((s.brk : Int) + nu * 16).toNat = s.brk + 16 * nu := by omega
    have hlt : s.brk + 16 * nu < 2 ^ 32 := by omega
    have hmem : s.freep ∈ L.base :: frees (bs ++ [⟨s.brk, nu, some 0⟩]) := by
      rw [frees_append, ← List.cons_append]
      exact List.mem_append_left _ hfreep
    obtain ⟨m', p, bs', hfree, hshape', hp, hroom, howned, hkept⟩ :=
      free_spec (s := { s with
        mem := setSize s.mem s.brk nu
        brk := s.brk + 16 * nu
        sbrks := true :: s.sbrks }) (h.extend hle.2.1 hlt) (by simp) hmem
    refine .inr ⟨{ s with
      mem := m'
      freep := p
      brk := s.brk + 16 * nu
      sbrks := true :: s.sbrks }, bs', ?_, hshape', hp, rfl, ?_, ?_, ?_⟩
    · dsimp only at hfree ⊢
      rw [hbrk, hfree]
      rfl
    · obtain ⟨b, hb, hb', hsize⟩ := hroom
      exact ⟨b, hb, hb', hle.1.trans hsize⟩
    · intro b hb
      rw [howned b hb, List.append_nil]
    · intro b hb hb' x hx hx'
      have := h.covers.inside hb
      refine (hkept b (by simp [hb]) hb' x hx hx').trans (onlyAt_setSize x ?_)
      omega
  · rw [if_neg hcond]
    exact .inl rfl

/-- The loop of `malloc` returns 0 after `sbrk` failed, or a new block. -/
theorem mallocLoop_spec (grants : Nat → Bool) {s : State} {nunits : Nat}
    (h : Shape L s.brk bs s.mem) (hfreep : s.freep ∈ L.base :: frees bs) (hpos : 0 < nunits)
    (hunits : nunits * 16 < 2 ^ 31) (n : Nat) :
    mallocLoop grants nunits (2 ^ 32) s s.freep (ptr s.mem s.freep) =
        some (0, { s with sbrks := false :: s.sbrks }) ∨
      ∃ r bs' t, mallocLoop grants nunits (2 ^ 32) s s.freep (ptr s.mem s.freep) = some r ∧
        r.1 = t.addr + 16 ∧ t.size = nunits ∧ t.owner = some n ∧ Shape L r.2.brk bs' r.2.mem ∧
        r.2.freep ∈ L.base :: frees bs' ∧ r.2.live = s.live ∧
        (∀ b : Block, b.owner ≠ none → (b ∈ bs' ↔ b = t ∨ b ∈ bs)) ∧
        (∀ b ∈ bs, b.owner ≠ none → b.addr ≠ t.addr) ∧ Kept bs s.mem r.2.mem := by
  -- the ring, read from `freep` on, is short
  have hrotate : ∀ {s : State} {bs : List Block}, Shape L s.brk bs s.mem →
      s.freep ∈ L.base :: frees bs → ∃ l, Leads (ptr s.mem) s.freep l s.freep ∧
        (∀ x, x ∈ s.freep :: l ↔ x ∈ L.base :: frees bs) ∧ s.freep ∉ l ∧ l.length < 2 ^ 28 := by
    intro s bs h hfreep
    obtain ⟨l, hl, hperm⟩ := h.ring.rotate hfreep
    have hlen := hperm.length_eq
    have hcount := h.covers.length
    have hbrk := h.brk_lt
    have hle := @frees_length bs
    rw [List.length_cons, List.length_cons] at hlen
    exact ⟨l, hl, fun x => hperm.mem_iff, (List.nodup_cons.1 (hperm.nodup_iff.2
      h.covers.ring_nodup)).1, by omega⟩
  have hmem : ∀ {l : List Nat} {f : Nat} {x}, x ∈ l ++ [f] → x ∈ f :: l := by
    intro l f x hx
    rw [List.mem_append, List.mem_singleton] at hx
    exact List.mem_cons.2 hx.symm
  obtain ⟨l, hl, hring, hnot, hlen⟩ := hrotate h hfreep
  rcases search_spec grants nunits hl hnot (show l.length < 2 ^ 32 by omega) with
    ⟨prevp, hprevp, p, hp, hnext, hsize, heq⟩ | ⟨-, fuel, hfuel, heq⟩
  · obtain ⟨bs', t, ht⟩ := take_spec h ((hring _).1 hprevp) ((hring _).1 (hmem hp))
      hnext hpos hsize n
    exact .inr ⟨_, bs', t, heq, ht.ret, ht.size, ht.owner, ht.brk ▸ ht.shape, ht.freep, ht.live,
      ht.owned, ht.fresh, ht.kept⟩
  · rcases morecore_spec grants h hfreep hunits with
      hmore | ⟨s', bs', hmore, h', hfreep', hlive, ⟨b, hb, hfree, hroom⟩, howned, hkept⟩
    · rw [heq, hmore]
      exact .inl rfl
    · have hne : s'.freep ≠ 0 := by
        have := L.base_pos
        have := (h'.covers.base_free hfreep').2
        omega
      obtain ⟨l', hl', hring', hnot', hlen'⟩ := hrotate h' hfreep'
      rcases search_spec grants nunits hl' hnot' (show l'.length < fuel by omega)
        with ⟨prevp, hprevp, p, hp, hnext, hsize, heq'⟩ | ⟨hsmall, -⟩
      · obtain ⟨bs'', t, ht⟩ :=
          take_spec h' ((hring' _).1 hprevp) ((hring' _).1 (hmem hp)) hnext hpos hsize n
        refine .inr ⟨_, bs'', t, ?_, ht.ret, ht.size, ht.owner, ht.brk ▸ ht.shape, ht.freep,
          ht.live.trans hlive, fun b hb => ?_, fun b hb hb' => ?_, fun b hb hb' x hx hx' => ?_⟩
        · rw [heq, hmore]
          simp only [hne, if_false, heq']
        · rw [ht.owned b hb, howned b hb]
        · exact ht.fresh b ((howned b hb').2 hb) hb'
        · exact (ht.kept b ((howned b hb').2 hb) hb' x hx hx').trans (hkept b hb hb' x hx hx')
      · -- the search would have seen the new block
        have hin : b.addr ∈ s'.freep :: l' :=
          (hring' _).2 (List.mem_cons_of_mem _ (mem_frees.2 ⟨b, hb, hfree, rfl⟩))
        have := hsmall b.addr (by
          rw [List.mem_append, List.mem_singleton]
          exact (List.mem_cons.1 hin).symm)
        rw [h'.sizes b hb] at this
        omega

/-! ## All calls -/

/-- The heap between two calls. -/
structure Heap (L : Layout) (s : State) (bs : List Block) : Prop where
  shape : Shape L s.brk bs s.mem
  freep : s.freep ∈ L.base :: frees bs
  live : ∀ ap n, s.live ap = some n ↔ ∃ b ∈ bs, b.owner = some n ∧ ap = b.addr + 16
  room : ∀ b ∈ bs, ∀ n, b.owner = some n → n ≤ 16 * (b.size - 1)

/-- Nothing was called yet. -/
structure Unused (L : Layout) (s : State) : Prop where
  freep : s.freep = 0
  brk : s.brk = L.start
  live : ∀ ap, s.live ap = none

/-- The blocks that are there before and after a call hold what they held, but for a byte that the
call writes. -/
def Untouched (s : State) (call : Call) (s' : State) : Prop :=
  ∀ ap n, s.live ap = some n → call ≠ .free ap → s'.live ap = some n ∧
    ∀ i < n, (∀ v, call ≠ .write ap i v) → s'.mem (ap + i) = s.mem (ap + i)

/-- What a call of `malloc` returns. -/
def Returned (s : State) (nbytes : Nat) (s' : State) : Prop :=
  if s'.ret = 0 then s'.sbrks = false :: s.sbrks
  else s.live s'.ret = none ∧ s'.live s'.ret = some nbytes

variable {s s' : State}

theorem Heap.kept (h : Heap L s bs) (hk : Kept bs s.mem m) {ap i : Nat} (hap : s.live ap = some n)
    (hi : i < n) : m (ap + i) = s.mem (ap + i) := by
  obtain ⟨b, hb, howner, rfl⟩ := (h.live ap n).1 hap
  have := h.room b hb n howner
  exact hk b hb (by simp [howner]) _ (by omega) (by omega)

theorem Heap.malloc (grants : Nat → Bool) (h : Heap L s bs) {nbytes : Nat}
    (hn : nbytes < 2 ^ 31 - 2 ^ 17) :
    ∃ s' bs', exec L grants s (.malloc nbytes) = some s' ∧ Heap L s' bs' ∧
      Untouched s (.malloc nbytes) s' ∧ Returned s nbytes s' := by
  have hne : s.freep ≠ 0 := by
    have := L.base_pos
    have := (h.shape.covers.base_free h.freep).2
    omega
  have hunits : ((nbytes + 16 - 1) / 16 + 1) % 2 ^ 32 = (nbytes + 16 - 1) / 16 + 1 :=
    Nat.mod_eq_of_lt (by omega)
  rcases mallocLoop_spec grants h.shape h.freep
    (show 0 < (nbytes + 16 - 1) / 16 + 1 by omega) (by omega) nbytes with
    hnull | ⟨r, bs', t, hr, hret, hsize, howner, hshape, hfreep, hlive, howned, hfresh, hkept⟩
  · refine ⟨{ s with sbrks := false :: s.sbrks, ret := 0 }, bs, ?_, ⟨h.shape, h.freep, h.live,
      h.room⟩, fun ap n hap _ => ⟨hap, fun i _ _ => rfl⟩, rfl⟩
    rw [exec, Umalloc.malloc, if_neg hne, hunits, hnull]
    rfl
  · have hne' : r.1 ≠ 0 := by omega
    -- a block that was there has another address
    have hnew : ∀ ap n, s.live ap = some n → ap ≠ r.1 := by
      intro ap n hap heq
      obtain ⟨b, hb, hb', haddr⟩ := (h.live ap n).1 hap
      exact hfresh b hb (by simp [hb']) (by omega)
    refine ⟨{ r.2 with ret := r.1, live := Function.update r.2.live r.1 (some nbytes) }, bs', ?_,
      ⟨hshape, hfreep, fun ap n => ?_, fun b hb n hb' => ?_⟩, fun ap n hap _ => ⟨?_, ?_⟩, ?_⟩
    · rw [exec, Umalloc.malloc, if_neg hne, hunits, hr, Option.map_some, if_neg hne']
    · have ht : t ∈ bs' := (howned t (by simp [howner])).2 (.inl rfl)
      change Function.update r.2.live r.1 (some nbytes) ap = some n ↔ _
      by_cases hap : ap = r.1
      · rw [hap, Function.update_self]
        constructor
        · intro heq
          exact ⟨t, ht, howner.trans heq, hret⟩
        · rintro ⟨b, hb, hb', haddr⟩
          rcases (howned b (by simp [hb'])).1 hb with rfl | hb
          · exact howner.symm.trans hb'
          · exact absurd (by omega) (hfresh b hb (by simp [hb']))
      · rw [Function.update_of_ne hap, hlive, h.live]
        constructor
        · rintro ⟨b, hb, hb', haddr⟩
          exact ⟨b, (howned b (by simp [hb'])).2 (.inr hb), hb', haddr⟩
        · rintro ⟨b, hb, hb', haddr⟩
          rcases (howned b (by simp [hb'])).1 hb with rfl | hb
          · exact absurd (haddr.trans hret.symm) hap
          · exact ⟨b, hb, hb', haddr⟩
    · rcases (howned b (by simp [hb'])).1 hb with rfl | hb
      · rw [howner, Option.some.injEq] at hb'
        rw [hsize]
        omega
      · exact h.room b hb n hb'
    · dsimp only
      rw [Function.update_of_ne (hnew ap n hap), hlive, hap]
    · exact fun i hi _ => h.kept hkept hap hi
    · rw [Returned, if_neg hne']
      refine ⟨?_, Function.update_self ..⟩
      cases hl : s.live r.1 with
      | none => rfl
      | some n => exact absurd rfl (hnew r.1 n hl)

theorem Heap.free (grants : Nat → Bool) (h : Heap L s bs) {ap : Nat} (hap : s.live ap ≠ none) :
    ∃ s' bs', exec L grants s (.free ap) = some s' ∧ Heap L s' bs' ∧
      Untouched s (.free ap) s' := by
  obtain ⟨n, hn⟩ := Option.ne_none_iff_exists'.1 hap
  obtain ⟨t, ht, howner, rfl⟩ := (h.live ap n).1 hn
  obtain ⟨bs₁, bs₂, rfl⟩ := List.append_of_mem ht
  have ht' : t.owner ≠ none := by simp [howner]
  obtain ⟨m', p, bs', hfree, hshape, hp, -, howned, hkept⟩ := free_spec h.shape ht' h.freep
  obtain ⟨e, hbefore, rfl, hpos, hbehind⟩ := covers_append.1 h.shape.covers
  have hne : ∀ b ∈ bs₁ ++ bs₂, b.addr ≠ t.addr := by
    intro b hb
    rcases List.mem_append.1 hb with hb | hb
    · have := hbefore.inside hb
      omega
    · have := hbehind.inside hb
      omega
  have hsub : ∀ b ∈ bs₁ ++ bs₂, b ∈ bs₁ ++ t :: bs₂ := by
    intro b hb
    rw [List.mem_append, List.mem_cons]
    exact (List.mem_append.1 hb).imp_right .inr
  -- the other blocks
  have hmem : ∀ b : Block, b.addr ≠ t.addr → b ∈ bs₁ ++ t :: bs₂ → b ∈ bs₁ ++ bs₂ := by
    intro b haddr hb
    rw [List.mem_append, List.mem_cons] at hb
    rw [List.mem_append]
    rcases hb with hb | rfl | hb
    · exact .inl hb
    · exact absurd rfl haddr
    · exact .inr hb
  refine ⟨{ s with mem := m', freep := p, live := Function.update s.live (t.addr + 16) none }, bs',
    ?_, ⟨hshape, hp, fun ap n => ?_, fun b hb n hb' => ?_⟩, fun ap n hap' hne' => ?_⟩
  · rw [exec, hfree]
    rfl
  · change Function.update s.live (t.addr + 16) none ap = some n ↔ _
    by_cases hap' : ap = t.addr + 16
    · rw [hap', Function.update_self]
      refine iff_of_false nofun ?_
      rintro ⟨b, hb, hb', haddr⟩
      exact hne b ((howned b (by simp [hb'])).1 hb) (by omega)
    · rw [Function.update_of_ne hap', h.live]
      constructor
      · rintro ⟨b, hb, hb', haddr⟩
        exact ⟨b, (howned b (by simp [hb'])).2 (hmem b (by omega) hb), hb', haddr⟩
      · rintro ⟨b, hb, hb', haddr⟩
        exact ⟨b, hsub b ((howned b (by simp [hb'])).1 hb), hb', haddr⟩
  · exact h.room b (hsub b ((howned b (by simp [hb'])).1 hb)) n hb'
  · have hap'' : ap ≠ t.addr + 16 := fun heq => hne' (heq ▸ rfl)
    refine ⟨(Function.update_of_ne hap'' _ _).trans hap', fun i hi _ => ?_⟩
    obtain ⟨b, hb, hb', haddr⟩ := (h.live ap n).1 hap'
    have := h.room b hb n hb'
    exact hkept b (hmem b (by omega) hb) (by simp [hb']) _ (by omega) (by omega)

/-- A byte inside a block may be written. -/
theorem Shape.write (h : Shape L brk bs m) (hb : b ∈ bs) (hx : b.addr + 16 ≤ x)
    (hx' : x < b.addr + 16 * b.size) (v : UInt8) : Shape L brk bs (Function.update m x v) := by
  have hbase := L.base_below
  have hin := h.covers.inside hb
  have hheader : ∀ {y}, y = L.base ∨ (∃ t ∈ bs, t.addr = y) → x < y ∨ y + 16 ≤ x := by
    rintro y (rfl | ⟨t, ht, rfl⟩)
    · omega
    · have := h.covers.inside ht
      rcases h.covers.eq_or_apart hb ht with rfl | hlt | hlt
      · exact .inr hx
      · omega
      · omega
  have hsize : ∀ {y}, y = L.base ∨ (∃ t ∈ bs, t.addr = y) →
      size (Function.update m x v) y = size m y := fun hy => load_congr fun a ha ha' =>
    Function.update_of_ne (by have := hheader hy; omega) _ _
  refine ⟨h.covers, h.brk_lt, h.coalesced, fun t ht => ?_, ?_, ?_⟩
  · rw [hsize (.inr ⟨t, ht, rfl⟩)]
    exact h.sizes t ht
  · rw [hsize (.inl rfl)]
    exact h.base_size
  · refine h.ring.congr fun y hy => load_congr fun a ha ha' => Function.update_of_ne ?_ _ _
    have hy' : y = L.base ∨ ∃ t ∈ bs, t.addr = y := by
      rcases List.mem_cons.1 hy with rfl | hy
      · exact .inl rfl
      · obtain ⟨t, ht, -, haddr⟩ := mem_frees.1 hy
        exact .inr ⟨t, ht, haddr⟩
    have := hheader hy'
    omega

theorem Heap.write (grants : Nat → Bool) (h : Heap L s bs) {ap i : Nat}
    (hap : s.live ap = some n) (hi : i < n) (v : UInt8) :
    ∃ s' bs', exec L grants s (.write ap i v) = some s' ∧ Heap L s' bs' ∧
      Untouched s (.write ap i v) s' := by
  obtain ⟨b, hb, howner, rfl⟩ := (h.live ap n).1 hap
  have hroom := h.room b hb n howner
  refine ⟨_, bs, rfl, ⟨h.shape.write hb (by omega) (by omega) v, h.freep, h.live, h.room⟩, ?_⟩
  intro ap' n' hap' _
  refine ⟨hap', fun j hj hne => Function.update_of_ne ?_ _ _⟩
  obtain ⟨c, hc, howner', rfl⟩ := (h.live ap' n').1 hap'
  have hroom' := h.room c hc n' howner'
  rcases h.shape.covers.eq_or_apart hb hc with rfl | hlt | hlt
  · have hij : i ≠ j := fun heq => hne v (heq ▸ rfl)
    omega
  · omega
  · omega

/-- The first call: `base` is the whole ring. -/
theorem Unused.malloc (grants : Nat → Bool) (h : Unused L s) {nbytes : Nat}
    (hn : nbytes < 2 ^ 31 - 2 ^ 17) :
    ∃ s' bs', exec L grants s (.malloc nbytes) = some s' ∧ Heap L s' bs' ∧
      Untouched s (.malloc nbytes) s' ∧ Returned s nbytes s' := by
  have hbase := L.base_pos
  have hbelow := L.base_below
  have hstart := L.start_lt
  have hheap : Heap L { s with
      mem := setSize (setPtr s.mem L.base L.base) L.base 0
      freep := L.base } [] := by
    refine ⟨⟨h.brk.symm, h.brk ▸ hstart, .nil, nofun, size_setSize (by omega), ?_⟩, by simp,
      fun ap n => ?_, nofun⟩
    · change ptr _ L.base = L.base
      rw [ptr_setSize, ptr_setPtr (by omega)]
    · rw [h.live ap]
      simp
  obtain ⟨s', bs', hexec, hheap', -, hret⟩ := hheap.malloc grants hn
  refine ⟨s', bs', ?_, hheap', fun ap n hap => ?_, hret⟩
  · rw [← hexec, exec, exec, Umalloc.malloc, Umalloc.malloc, if_pos h.freep, if_neg hbase.ne']
  · rw [h.live ap] at hap
    cases hap

/-- Every call from a state in order returns, and leaves one. -/
theorem Heap.call (grants : Nat → Bool) (h : Unused L s ∨ ∃ bs, Heap L s bs) {call : Call}
    (hlegal : Legal s call) :
    ∃ s', exec L grants s call = some s' ∧ (Unused L s' ∨ ∃ bs, Heap L s' bs) ∧
      Untouched s call s' ∧ ∀ nbytes, call = .malloc nbytes → Returned s nbytes s' := by
  cases call with
  | malloc nbytes =>
      have hmalloc : ∃ s' bs', exec L grants s (.malloc nbytes) = some s' ∧ Heap L s' bs' ∧
          Untouched s (.malloc nbytes) s' ∧ Returned s nbytes s' := by
        rcases h with h | ⟨bs, h⟩
        · exact h.malloc grants hlegal
        · exact h.malloc grants hlegal
      obtain ⟨s', bs', hexec, hheap, huntouched, hret⟩ := hmalloc
      refine ⟨s', hexec, .inr ⟨bs', hheap⟩, huntouched, ?_⟩
      rintro _ ⟨⟩
      exact hret
  | free ap =>
      rcases h with h | ⟨bs, h⟩
      · exact absurd (h.live ap) hlegal
      · obtain ⟨s', bs', hexec, hheap, huntouched⟩ := h.free grants hlegal
        exact ⟨s', hexec, .inr ⟨bs', hheap⟩, huntouched, nofun⟩
  | write ap i v =>
      obtain ⟨n, hn, hi⟩ := hlegal
      rcases h with h | ⟨bs, h⟩
      · rw [h.live ap] at hn
        cases hn
      · obtain ⟨s', bs', hexec, hheap, huntouched⟩ := h.write grants hn hi v
        exact ⟨s', hexec, .inr ⟨bs', hheap⟩, huntouched, nofun⟩

/-- After any calls, the heap is in order, and whatever is called next returns. -/
theorem heap_of_run (L : Layout) (m : Mem) (grants : Nat → Bool) {s : State}
    (h : Reaches (exec L grants) Legal (start L m) s) :
    (Unused L s ∨ ∃ bs, Heap L s bs ∧ (L.base :: frees bs).Pairwise (· < ·) ∧
      bs.Pairwise fun b c => b.addr + 16 * b.size ≤ c.addr) ∧
    ∀ call, Legal s call → ∃ s', exec L grants s call = some s' ∧ Untouched s call s' ∧
      ∀ nbytes, call = .malloc nbytes → Returned s nbytes s' := by
  have hinv : Unused L s ∨ ∃ bs, Heap L s bs := by
    have hstart : Unused L (start L m) := ⟨rfl, rfl, fun _ => rfl⟩
    refine Reaches.inv (I := fun s => Unused L s ∨ ∃ bs, Heap L s bs) h ?_ (.inl hstart)
    intro t call t' ht hlegal hexec
    obtain ⟨s', hexec', hs', -⟩ := Heap.call grants ht hlegal
    rw [hexec] at hexec'
    cases hexec'
    exact hs'
  refine ⟨hinv.imp_right ?_, fun call hlegal => ?_⟩
  · rintro ⟨bs, hheap⟩
    exact ⟨bs, hheap, hheap.shape.covers.ring_sorted, hheap.shape.covers.pairwise⟩
  · obtain ⟨s', hexec, -, huntouched, hret⟩ := Heap.call grants hinv hlegal
    exact ⟨s', hexec, huntouched, hret⟩

/-- A program that starts at 8192. -/
def atTwoPages : Layout := ⟨4096, 8192, by decide, by decide, by decide⟩

/-- It calls `malloc` twice. -/
theorem heap_two_mallocs :
    ∃ s s', exec atTwoPages (fun _ => true) (start atTwoPages fun _ => 0) (.malloc 100) = some s ∧
      exec atTwoPages (fun _ => true) s (.malloc 5000) = some s' ∧ Returned s 5000 s' ∧
      Untouched s (.malloc 5000) s' := by
  have hfirst : Legal (start atTwoPages fun _ => 0) (.malloc 100) :=
    show 100 < 2 ^ 31 - 2 ^ 17 by decide
  obtain ⟨s, hs, -⟩ :=
    (heap_of_run atTwoPages (fun _ => 0) (fun _ => true) .refl).2 (.malloc 100) hfirst
  have hreach : Reaches (exec atTwoPages fun _ => true) Legal (start atTwoPages fun _ => 0) s :=
    .step (.malloc 100) .refl hfirst hs
  obtain ⟨s', hs', huntouched, hret⟩ :=
    (heap_of_run atTwoPages (fun _ => 0) (fun _ => true) hreach).2 (.malloc 5000)
      (show 5000 < 2 ^ 31 - 2 ^ 17 by decide)
  exact ⟨s, s', hs, hs', hret 5000 rfl, huntouched⟩

end Xv6.Ulib.Umalloc
