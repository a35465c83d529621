import Xv6.Kernel.Vm
import Xv6.Verified.Ownership

/-!
# Address spaces

An address space as a mathematical object: which page tables and which data pages it has.
`Maps` says that the memory holds it; `Owns` that moreover its pages are its own, apart from
the free pages, the lost ones and those of the rest of the system.

## Main results

One specification for each function of `vm.c`: what it does to the space, with the rest of
the memory left alone and no page lost but where the code loses it.
-/

namespace Xv6.Kernel.Vm

open Xv6.Verified
open Xv6.Verified.Ownership
open Exec

/-- An address space.  The number 0 stands for no page. -/
structure Space where
  dir : Nat
  pml4 : Nat
  pdpt : Nat
  /-- The page tables. -/
  table : Nat → Nat
  /-- The data page at a virtual page. -/
  leaf : Nat → Nat
  /-- Its permissions. -/
  flags : Nat → Nat

/-- What a page can be to an address space. -/
inductive Role where
  | dir
  | pml4
  | pdpt
  | table (i : Nat)
  | leaf (v : Nat)
  deriving DecidableEq

namespace Space

/-- The page in a role. -/
def page (A : Space) : Role → Nat
  | .dir => A.dir
  | .pml4 => A.pml4
  | .pdpt => A.pdpt
  | .table i => A.table i
  | .leaf v => A.leaf v

/-- Page `x` belongs to the space. -/
def Has (A : Space) (x : Nat) : Prop := ∃ r, A.page r = x

/-- A new page table. -/
def setTable (A : Space) (i t : Nat) : Space := { A with table := Function.update A.table i t }

/-- Another page, or none, at virtual page `v`. -/
def setLeaf (A : Space) (v p f : Nat) : Space :=
  { A with leaf := Function.update A.leaf v p, flags := Function.update A.flags v f }

theorem page_setTable (A : Space) (i t : Nat) :
    (A.setTable i t).page = Function.update A.page (.table i) t := by
  funext r
  cases r with
  | table j =>
      by_cases hj : j = i
      · subst hj
        simp [page, setTable]
      · have hne : Role.table j ≠ .table i := fun h => hj (Role.table.inj h)
        simp [page, setTable, Function.update_of_ne hj, Function.update_of_ne hne]
  | _ => rfl

theorem page_setLeaf (A : Space) (v p f : Nat) :
    (A.setLeaf v p f).page = Function.update A.page (.leaf v) p := by
  funext r
  cases r with
  | leaf u =>
      by_cases hu : u = v
      · subst hu
        simp [page, setLeaf]
      · have hne : Role.leaf u ≠ .leaf v := fun h => hu (Role.leaf.inj h)
        simp [page, setLeaf, Function.update_of_ne hu, Function.update_of_ne hne]
  | _ => rfl

end Space

/-- The memory holds the address space. -/
structure Maps (m : Nat → Nat → Nat) (A : Space) : Prop where
  noTable : ∀ i < 510, A.table i = 0 → ¬Present (m A.dir i)
  table : ∀ i, A.table i ≠ 0 → i < 510 ∧ m A.dir i = A.table i * PGSIZE + 7
  noLeaf : ∀ v, A.table (v / 512) ≠ 0 → A.leaf v = 0 → m (A.table (v / 512)) (v % 512) = 0
  leaf : ∀ v, A.leaf v ≠ 0 → A.table (v / 512) ≠ 0 ∧
    m (A.table (v / 512)) (v % 512) = A.leaf v * PGSIZE + A.flags v
  flags : ∀ v, A.leaf v ≠ 0 → A.flags v % 2 = 1 ∧ A.flags v < PGSIZE
  pml4 : m A.dir 511 = back (if A.pml4 = 0 then none else some A.pml4)
  pdpt : m A.dir 510 = back (if A.pdpt = 0 then none else some A.pdpt)

/-- Only the directory and the page tables matter. -/
theorem Maps.congr {m m' : Nat → Nat → Nat} {A : Space} (h : Maps m A)
    (hdir : m' A.dir = m A.dir) (htable : ∀ i, A.table i ≠ 0 → m' (A.table i) = m (A.table i)) :
    Maps m' A := by
  obtain ⟨h1, h2, h3, h4, h5, h6, h7⟩ := h
  refine ⟨?_, ?_, ?_, ?_, h5, by rw [hdir, h6], by rw [hdir, h7]⟩
  · intro i hi ht
    rw [hdir]
    exact h1 i hi ht
  · intro i ht
    rw [hdir]
    exact h2 i ht
  · intro v ht hv
    rw [htable _ ht]
    exact h3 v ht hv
  · intro v hv
    rw [htable _ (h4 v hv).1]
    exact h4 v hv

/-- The page and the permissions at virtual page `v`, as the directory in page `pgdir` has
them. -/
def lookup (m : Nat → Nat → Nat) (pgdir v : Nat) : Option (Nat × Nat) :=
  if v / 512 < 510 ∧ Present (m pgdir (v / 512)) then
    let pte := m (pteAddr (m pgdir (v / 512))) (v % 512)
    if Present pte then some (pteAddr pte, pteFlags pte) else none
  else none

/-- Page `x` is in use by nobody else. -/
def State.Taken (s : State) (rest : Nat → Prop) (x : Nat) : Prop :=
  x ∉ s.free ∧ x ∉ s.lost ∧ ¬rest x ∧ s.Managed x

/-- The free pages are free. -/
structure State.Pool (s : State) (rest : Nat → Prop) : Prop where
  kend : 0 < s.kend
  nodup : s.free.Nodup
  free : ∀ x ∈ s.free, x ∉ s.lost ∧ ¬rest x ∧ s.Managed x
  lost : ∀ x ∈ s.lost, ¬rest x

/-- The memory holds the address space, and its pages are its own. -/
structure Owns (s : State) (A : Space) (rest : Nat → Prop) : Prop where
  maps : Maps s.mem A
  excl : Exclusive 0 (s.Taken rest) A.page
  dir : A.dir ≠ 0
  pool : s.Pool rest

/-- The rest of the system and one more page, which the code has in its hands. -/
def withPage (rest : Nat → Prop) (p : Nat) : Nat → Prop := fun x => rest x ∨ x = p

section Owns

variable {s s' : State} {A : Space} {rest : Nat → Prop} {p v : Nat}

theorem Owns.congr (h : Owns s A rest) (hmem : s'.mem = s.mem) (hfree : s'.free = s.free)
    (hlost : s'.lost = s.lost) (hkend : s'.kend = s.kend) : Owns s' A rest := by
  obtain ⟨maps, ⟨hinj, hheld⟩, dir, ⟨hk, hnodup, hpool, hout⟩⟩ := h
  refine ⟨hmem ▸ maps, ⟨hinj, ?_⟩, dir, ⟨hkend ▸ hk, hfree ▸ hnodup, ?_, hlost ▸ hout⟩⟩
  · simpa only [State.Taken, State.Managed, hfree, hlost, hkend] using hheld
  · simpa only [State.Managed, hfree, hlost, hkend] using hpool

theorem Owns.managed (h : Owns s A rest) (r : Role) (hr : A.page r ≠ 0) : s.Managed (A.page r) :=
  (h.excl.held r hr).2.2.2

theorem Owns.linear (h : Owns s A rest) (r : Role) : A.page r < LINEAR := by
  by_cases hr : A.page r = 0
  · rw [hr]
    decide
  · have := (h.managed r hr).2
    simp only [NPAGES, LINEAR] at this ⊢
    omega

theorem Owns.page_ne (h : Owns s A rest) (r r' : Role) (hne : r ≠ r') (hr : A.page r ≠ 0) :
    A.page r ≠ A.page r' := fun heq => hne (h.excl.inj r r' hr heq)

/-- A page that is not the space's own may change. -/
theorem Owns.fill (h : Owns s A rest) (hp : ∀ r, A.page r ≠ 0 → A.page r ≠ p) (c : Nat → Nat) :
    Owns { s with mem := Function.update s.mem p c } A rest := by
  refine ⟨h.maps.congr ?_ ?_, h.excl, h.dir, h.pool.kend, h.pool.nodup, h.pool.free,
    h.pool.lost⟩
  · exact Function.update_of_ne (hp .dir h.dir) _ _
  · intro i hi
    exact Function.update_of_ne (hp (.table i) hi) _ _

/-- The allocator hands out a page. -/
theorem Owns.take (h : Owns s A rest) {ps : List Nat} (hfree : s.free = p :: ps) (ds : List Bool) :
    Owns { s with free := ps, denials := ds } A (withPage rest p) ∧ p ≠ 0 ∧ s.Managed p ∧
      ¬rest p ∧ p ∉ ps ∧ p ∉ s.lost ∧ ∀ r, A.page r ≠ p := by
  obtain ⟨maps, excl, dir, hk, hnodup, hpool, hout⟩ := h
  rw [hfree] at hnodup
  obtain ⟨hlost, hrest, hmanaged⟩ := hpool p (by rw [hfree]; exact List.mem_cons_self)
  have hp : p ≠ 0 := by
    rintro rfl
    have := hmanaged.1
    omega
  have hpage : ∀ r, A.page r ≠ p :=
    excl.ne_of_not_used (fun ht => ht.1 (by rw [hfree]; exact List.mem_cons_self)) hp
  have hps := (List.nodup_cons.1 hnodup).1
  refine ⟨⟨maps, ⟨excl.inj, ?_⟩, dir, hk, (List.nodup_cons.1 hnodup).2, ?_, ?_⟩, hp, hmanaged,
    hrest, hps, hlost, hpage⟩
  · intro r hr
    obtain ⟨h1, h2, h3, h4⟩ := excl.held r hr
    rw [hfree] at h1
    exact ⟨fun hm => h1 (List.mem_cons_of_mem _ hm), h2,
      fun hrest' => hrest'.elim h3 (hpage r), h4⟩
  · intro x hx
    obtain ⟨h1, h2, h3⟩ := hpool x (by rw [hfree]; exact List.mem_cons_of_mem _ hx)
    exact ⟨h1, fun hrest' => hrest'.elim h2 fun heq => hps (heq ▸ hx), h3⟩
  · exact fun x hx hrest' => hrest'.elim (hout x hx) fun heq => hlost (heq ▸ hx)

/-- Filling an empty place of the space. -/
theorem has_update {r : Role} (hr : A.page r = 0) {x : Nat} (hx : x ≠ 0) {A' : Space}
    (hpage : A'.page = Function.update A.page r p) : A'.Has x ↔ A.Has x ∨ x = p := by
  unfold Space.Has
  rw [hpage]
  constructor
  · rintro ⟨r', hr'⟩
    by_cases heq : r' = r
    · rw [heq, Function.update_self] at hr'
      exact .inr hr'.symm
    · rw [Function.update_of_ne heq] at hr'
      exact .inl ⟨r', hr'⟩
  · rintro (⟨r', hr'⟩ | rfl)
    · refine ⟨r', ?_⟩
      rw [Function.update_of_ne, hr']
      rintro rfl
      exact hx (hr'.symm.trans hr)
    · exact ⟨r, Function.update_self _ _ _⟩

/-- Giving the page in hand up: it is the rest's, or lost. -/
theorem Owns.lose (h : Owns s A (withPage rest p)) (hp : s.Taken rest p) :
    Owns { s with lost := p :: s.lost } A rest := by
  obtain ⟨maps, ⟨hinj, hheld⟩, dir, hk, hnodup, hpool, hout⟩ := h
  refine ⟨maps, ⟨hinj, ?_⟩, dir, hk, hnodup, ?_, ?_⟩
  · intro r hr
    obtain ⟨h1, h2, h3, h4⟩ := hheld r hr
    refine ⟨h1, fun hm => ?_, fun hrest => h3 (.inl hrest), h4⟩
    rcases List.mem_cons.1 hm with heq | hm
    · exact h3 (.inr heq)
    · exact h2 hm
  · intro x hx
    obtain ⟨h1, h2, h3⟩ := hpool x hx
    refine ⟨fun hm => ?_, fun hrest => h2 (.inl hrest), h3⟩
    rcases List.mem_cons.1 hm with heq | hm
    · exact hp.1 (heq ▸ hx)
    · exact h1 hm
  · intro x hx hrest
    rcases List.mem_cons.1 hx with rfl | hx
    · exact hp.2.2.1 hrest
    · exact hout x hx (.inl hrest)

theorem State.Pool.ne_zero (h : s.Pool rest) (hp : s.Managed p) : p ≠ 0 := by
  rintro rfl
  have := hp.1
  have := h.kend
  omega

/-- The page in hand is none of the space's. -/
theorem Owns.ne_inHand (h : Owns s A (withPage rest p)) (hp : p ≠ 0) (r : Role) : A.page r ≠ p :=
  fun heq => (h.excl.held r (heq ▸ hp)).2.2.1 (.inr heq)

theorem taken_of_inHand : ∀ x, s.Taken (withPage rest p) x → s.Taken rest x :=
  fun _ hc => ⟨hc.1, hc.2.1, fun hrest => hc.2.2.1 (.inl hrest), hc.2.2.2⟩

theorem Owns.pool_of_inHand (h : Owns s A (withPage rest p)) : s.Pool rest where
  kend := h.pool.kend
  nodup := h.pool.nodup
  free x hx :=
    have ⟨h1, h2, h3⟩ := h.pool.free x hx
    ⟨h1, fun hrest => h2 (.inl hrest), h3⟩
  lost x hx hrest := h.pool.lost x hx (.inl hrest)

/-- The page in hand is still in hand. -/
theorem Owns.inHand (h : Owns s A (withPage rest p)) (hrest : ¬rest p) (hp : s.Managed p) :
    s.Taken rest p :=
  ⟨fun hm => (h.pool.free p hm).2.1 (.inr rfl), fun hm => h.pool.lost p hm (.inr rfl), hrest, hp⟩

theorem Owns.fillInHand (h : Owns s A (withPage rest p)) (hp : p ≠ 0) (c : Nat → Nat) :
    Owns { s with mem := Function.update s.mem p c } A (withPage rest p) :=
  h.fill (fun r _ => h.ne_inHand hp r) c

/-- The page in hand goes back to the free list. -/
theorem Owns.giveBack (h : Owns s A (withPage rest p)) (hrest : ¬rest p) (hp : s.Managed p)
    (c : Nat → Nat) :
    Owns { s with mem := Function.update s.mem p c, free := p :: s.free } A rest := by
  have hp0 : p ≠ 0 := h.pool.ne_zero hp
  have htaken := h.inHand hrest hp
  have hpool := h.pool_of_inHand
  refine ⟨(h.fillInHand hp0 c).maps, ⟨h.excl.inj, fun r hr => ?_⟩, h.dir, hpool.kend,
    List.nodup_cons.2 ⟨htaken.1, hpool.nodup⟩, fun x hx => ?_, hpool.lost⟩
  · have hpage := taken_of_inHand _ (h.excl.held r hr)
    refine ⟨fun hx => ?_, hpage.2⟩
    rcases List.mem_cons.1 hx with hx | hx
    · exact h.ne_inHand hp0 r hx
    · exact hpage.1 hx
  · rcases List.mem_cons.1 hx with rfl | hx
    · exact htaken.2
    · exact hpool.free x hx

/-- The page in hand, cleared, becomes a page table. -/
theorem Owns.setTable (h : Owns s A (withPage rest p)) {i : Nat} (hi : i < 510)
    (hnone : A.table i = 0) (hp : s.Taken rest p) (hzero : s.mem p = fun _ => 0) :
    Owns { s with mem := storeWord s.mem A.dir i (mkPte p (PTE_W ||| PTE_U)) }
      (A.setTable i p) rest := by
  have hp0 := h.pool.ne_zero hp.2.2.2
  have hdir : A.dir ≠ p := h.ne_inHand hp0 .dir
  have htable : ∀ j, A.dir ≠ A.table j :=
    fun j => h.page_ne .dir (.table j) nofun h.dir
  have hpool := h.pool_of_inHand
  refine ⟨?_, ?_, h.dir, hpool.kend, hpool.nodup, hpool.free, hpool.lost⟩
  · obtain ⟨h1, h2, h3, h4, h5, h6, h7⟩ := h.maps
    have hnoleaf : ∀ v, v / 512 = i → A.leaf v = 0 := by
      intro v hv
      by_contra hl
      exact (h4 v hl).1 (hv ▸ hnone)
    constructor <;> simp only [Space.setTable, storeWord, Function.update_apply, mkPte] <;> grind
  · rw [Space.page_setTable]
    exact h.excl.take (.table i) (fun ht => ht.2.2.1 (.inr rfl)) hp0 taken_of_inHand hp

/-- The page in hand becomes a data page. -/
theorem Owns.setLeaf (h : Owns s A (withPage rest p)) {perm : Nat} (hperm : perm < PGSIZE)
    (ht : A.table (v / 512) ≠ 0) (hp : s.Taken rest p) :
    Owns { s with mem := storeWord s.mem (A.table (v / 512)) (v % 512) (mkPte p perm) }
      (A.setLeaf v p (perm ||| PTE_P)) rest := by
  have hp0 := h.pool.ne_zero hp.2.2.2
  have hdir : ∀ j, A.dir ≠ A.table j :=
    fun j => h.page_ne .dir (.table j) nofun h.dir
  have htable : ∀ i j, A.table i ≠ 0 → A.table i = A.table j → i = j := by
    intro i j hi hij
    exact Role.table.inj (h.excl.inj (.table i) (.table j) hi hij)
  have hodd : (perm ||| PTE_P) % 2 = 1 := by
    rw [Nat.or_mod_two_eq_one]
    exact .inr rfl
  have hlt : perm ||| PTE_P < PGSIZE := Nat.or_lt_two_pow (n := 12) hperm (by decide)
  have hpool := h.pool_of_inHand
  refine ⟨?_, ?_, h.dir, hpool.kend, hpool.nodup, hpool.free, hpool.lost⟩
  · obtain ⟨h1, h2, h3, h4, h5, h6, h7⟩ := h.maps
    have hsplit : ∀ u, u / 512 = v / 512 → u % 512 = v % 512 → u = v := by
      intro u hd hm
      omega
    constructor <;> simp only [Space.setLeaf, storeWord, Function.update_apply, mkPte] <;> grind
  · rw [Space.page_setLeaf]
    exact h.excl.take (.leaf v) (fun ht => ht.2.2.1 (.inr rfl)) hp0 taken_of_inHand hp

/-- The memory and the space when the data page at `v` is freed and its entry cleared. -/
theorem Owns.clearLeaf (h : Owns s A rest) (hv : A.leaf v ≠ 0) (c : Nat → Nat) :
    Owns { s with
        mem := storeWord (Function.update s.mem (A.leaf v) c) (A.table (v / 512)) (v % 512) 0
        free := A.leaf v :: s.free } (A.setLeaf v 0 0) rest := by
  have hdir : ∀ j, A.dir ≠ A.table j :=
    fun j => h.page_ne .dir (.table j) nofun h.dir
  have hdir' : A.dir ≠ A.leaf v := h.page_ne .dir (.leaf v) nofun h.dir
  have htable : ∀ i j, A.table i ≠ 0 → A.table i = A.table j → i = j := by
    intro i j hi hij
    exact Role.table.inj (h.excl.inj (.table i) (.table j) hi hij)
  have htable' : ∀ i, A.table i ≠ 0 → A.table i ≠ A.leaf v :=
    fun i hi => h.page_ne (.table i) (.leaf v) nofun hi
  obtain ⟨hfree, hlost, hrest, hmanaged⟩ := h.excl.held (.leaf v) hv
  refine ⟨?_, ?_, h.dir, h.pool.kend, ?_, ?_, h.pool.lost⟩
  · obtain ⟨h1, h2, h3, h4, h5, h6, h7⟩ := h.maps
    have hsplit : ∀ u, u / 512 = v / 512 → u % 512 = v % 512 → u = v := by
      intro u hd hm
      omega
    have ht := (h4 v hv).1
    constructor <;> simp only [Space.setLeaf, storeWord, Function.update_apply] <;> grind
  · rw [Space.page_setLeaf]
    refine h.excl.drop ?_ ?_
    · intro r
      by_cases hr : r = .leaf v
      · exact .inr (by rw [hr, Function.update_self])
      · exact .inl (Function.update_of_ne hr _ _)
    · intro r hr hused
      refine ⟨fun hmem => ?_, hused.2.1, hused.2.2.1, hused.2.2.2⟩
      rcases List.mem_cons.1 hmem with heq | hmem
      · have : r = .leaf v := (h.excl.inj (.leaf v) r hv heq.symm).symm
        rw [this, Function.update_self] at hr
        exact hr rfl
      · exact hused.1 hmem
  · exact List.nodup_cons.2 ⟨hfree, h.pool.nodup⟩
  · intro x hx
    rcases List.mem_cons.1 hx with rfl | hx
    · exact ⟨hlost, hrest, hmanaged⟩
    · exact h.pool.free x hx

end Owns

/-! ## What operations do to a space -/

/-- Where a page can be. -/
def State.Accounts (s : State) (A : Space) (rest : Nat → Prop) (x : Nat) : Prop :=
  x ∈ s.free ∨ x ∈ s.lost ∨ A.Has x ∨ rest x

/-- The same pages are accounted for. -/
def Conserves (A : Space) (rest : Nat → Prop) (s : State) (A' : Space) (rest' : Nat → Prop)
    (s' : State) : Prop :=
  ∀ x, x ≠ 0 → (s'.Accounts A' rest' x ↔ s.Accounts A rest x)

/-- What never changes, and what only goes one way. -/
structure Runs (s s' : State) : Prop where
  kend : s'.kend = s.kend
  kpdpt : s'.kpdpt = s.kpdpt
  cr3 : s'.cr3 = s.cr3
  lost : ∀ x ∈ s.lost, x ∈ s'.lost
  missed : s.missed = true → s'.missed = true
  refused : s.refused = true → s'.refused = true
  noDenials : s.denials = [] → s'.denials = []
  zero : s'.mem 0 = s.mem 0

/-- The space has grown: it has what it had, in the same places and with the same contents,
and the rest of the memory is untouched. -/
structure Grows (rest : Nat → Prop) (A : Space) (s : State) (A' : Space) (s' : State) : Prop
    extends Runs s s' where
  dir : A'.dir = A.dir
  pml4 : A'.pml4 = A.pml4
  pdpt : A'.pdpt = A.pdpt
  table : ∀ i, A.table i ≠ 0 → A'.table i = A.table i
  leaf : ∀ v, A.leaf v ≠ 0 → A'.leaf v = A.leaf v ∧ A'.flags v = A.flags v
  mem : ∀ x, x ≠ 0 → rest x ∨ (∃ v, A.leaf v = x) → s'.mem x = s.mem x
  free : s'.free <:+ s.free

section Grows

variable {s s' s'' : State} {A A' A'' : Space} {rest rest' rest'' : Nat → Prop} {p v : Nat}

theorem Conserves.trans (h : Conserves A rest s A' rest' s')
    (h' : Conserves A' rest' s' A'' rest'' s'') : Conserves A rest s A'' rest'' s'' :=
  fun x hx => (h' x hx).trans (h x hx)

theorem Runs.refl (s : State) : Runs s s :=
  ⟨rfl, rfl, rfl, fun _ h => h, fun h => h, fun h => h, fun h => h, rfl⟩

theorem Runs.trans (h : Runs s s') (h' : Runs s' s'') : Runs s s'' where
  kend := h'.kend.trans h.kend
  kpdpt := h'.kpdpt.trans h.kpdpt
  cr3 := h'.cr3.trans h.cr3
  lost x hx := h'.lost x (h.lost x hx)
  missed hm := h'.missed (h.missed hm)
  refused hr := h'.refused (h.refused hr)
  noDenials hd := h'.noDenials (h.noDenials hd)
  zero := h'.zero.trans h.zero

theorem Runs.setMem (h : Runs s s') {m : Nat → Nat → Nat} (hm : m 0 = s'.mem 0) :
    Runs s { s' with mem := m } :=
  ⟨h.kend, h.kpdpt, h.cr3, h.lost, h.missed, h.refused, h.noDenials, hm.trans h.zero⟩

/-- A store into some other page. -/
theorem storeWord_of_ne {m : Nat → Nat → Nat} {k w x : Nat} (hx : x ≠ p) :
    storeWord m p k w x = m x := by
  funext j
  simp only [storeWord]
  rw [if_neg fun hj => hx hj.1]

theorem Grows.of_runs (h : Runs s s') (hfree : s'.free <:+ s.free)
    (hmem : ∀ x, x ≠ 0 → rest x ∨ (∃ v, A.leaf v = x) → s'.mem x = s.mem x) :
    Grows rest A s A s' :=
  ⟨h, rfl, rfl, rfl, fun _ _ => rfl, fun _ _ => ⟨rfl, rfl⟩, hmem, hfree⟩

theorem Grows.trans (h : Grows rest A s A' s') (h' : Grows rest A' s' A'' s'') :
    Grows rest A s A'' s'' where
  toRuns := h.toRuns.trans h'.toRuns
  dir := h'.dir.trans h.dir
  pml4 := h'.pml4.trans h.pml4
  pdpt := h'.pdpt.trans h.pdpt
  table i hi := by
    rw [h'.table i (by rw [h.table i hi]; exact hi), h.table i hi]
  leaf v hv := by
    have h1 := h.leaf v hv
    have h2 := h'.leaf v (by rw [h1.1]; exact hv)
    exact ⟨h2.1.trans h1.1, h2.2.trans h1.2⟩
  mem x hx hr := by
    rw [← h.mem x hx hr]
    refine h'.mem x hx (hr.imp_right ?_)
    rintro ⟨v, hv⟩
    exact ⟨v, by rw [(h.leaf v (by rw [hv]; exact hx)).1, hv]⟩
  free := h'.free.trans h.free

theorem Grows.mono (h : Grows rest A s A' s') (hr : ∀ x, rest' x → rest x) :
    Grows rest' A s A' s' :=
  { h with mem := fun x hx hr' => h.mem x hx (hr'.imp_left (hr x)) }

/-! ## The allocator -/

/-- `kalloc` has come away with nothing. -/
structure Refused (A : Space) (rest : Nat → Prop) (s s' : State) : Prop where
  owns : Owns s' A rest
  grows : Grows rest A s A s'
  conserves : Conserves A rest s A rest s'
  refused : s'.refused = true
  missed : s'.missed = s.missed

/-- The code has page `p` in its hands. -/
structure InHand (A : Space) (rest : Nat → Prop) (s : State) (p : Nat) (s' : State) : Prop where
  owns : Owns s' A (withPage rest p)
  taken : s'.Taken rest p
  grows : Grows rest A s A s'
  conserves : Conserves A rest s A (withPage rest p) s'
  refused : s'.refused = s.refused
  missed : s'.missed = s.missed

/-- It has just got the page from `kalloc`. -/
structure Got (A : Space) (rest : Nat → Prop) (s : State) (p : Nat) (s' : State) : Prop
    extends InHand A rest s p s' where
  mem : s'.mem = s.mem
  free : s.free = p :: s'.free

theorem InHand.ne_zero (h : InHand A rest s p s') : p ≠ 0 := h.owns.pool.ne_zero h.taken.2.2.2

/-- Filling the page. -/
theorem InHand.fill (h : InHand A rest s p s') (c : Nat → Nat) :
    InHand A rest s p { s' with mem := Function.update s'.mem p c } := by
  refine ⟨h.owns.fillInHand h.ne_zero c, h.taken, ?_, h.conserves, h.refused, h.missed⟩
  refine { h.grows with
    toRuns := h.grows.toRuns.setMem (Function.update_of_ne h.ne_zero.symm _ _)
    mem := fun x hx hr => ?_ }
  rw [← h.grows.mem x hx hr]
  refine Function.update_of_ne ?_ _ _
  rintro rfl
  rcases hr with hr | ⟨v, hv⟩
  · exact h.taken.2.2.1 hr
  · exact h.owns.ne_inHand hx (.leaf v) hv

/-- What `kalloc` does, whatever the pages are for. -/
structure Handed (s : State) (p : Option Nat) (s' : State) : Prop where
  same : s' = { s with free := s'.free, denials := s'.denials, refused := s'.refused }
  free : s.free = p.toList ++ s'.free
  refused : s'.refused = (s.refused || p.isNone)
  denials : s'.denials = s.denials.tail
  isNone : p = none → s.free = [] ∨ s.denials.head? = some true

theorem wp_kalloc {Q : Option Nat → State → Prop} {E : Stop → State → Prop}
    (h : ∀ p s', Handed s p s' → Q p s') : wp kalloc Q E s := by
  unfold kalloc
  rw [wp_bind, wp_get]
  split
  · rename_i heq
    rw [wp_bind, wp_modify, wp_pure]
    exact h none _ ⟨rfl, rfl, by simp, by rw [heq]; rfl, fun _ => .inr (by rw [heq]; rfl)⟩
  · rename_i hfree _
    rw [wp_bind, wp_modify, wp_pure]
    exact h none _ ⟨rfl, rfl, by simp, rfl, fun _ => .inl hfree⟩
  · rename_i hfree _
    rw [wp_bind, wp_modify, wp_pure]
    exact h (some _) _ ⟨rfl, hfree, by simp, rfl, nofun⟩

theorem kalloc_spec (h : Owns s A rest) {Q : Option Nat → State → Prop} {E : Stop → State → Prop}
    (hnone : ∀ s', Refused A rest s s' → Q none s')
    (hsome : ∀ p s', Got A rest s p s' → Q (some p) s') : wp kalloc Q E s := by
  refine wp_kalloc fun p s' hs' => ?_
  have hruns : Runs s s' := by
    rw [hs'.same]
    refine ⟨rfl, rfl, rfl, fun _ hx => hx, fun hm => hm, fun hr => ?_,
      fun hd => by dsimp only; rw [hs'.denials, hd]; rfl, rfl⟩
    dsimp only
    rw [hs'.refused, hr]
    rfl
  have hmem : s'.mem = s.mem := by rw [hs'.same]
  have hmissed : s'.missed = s.missed := by rw [hs'.same]
  have hlost : s'.lost = s.lost := by rw [hs'.same]
  have hgrows : Grows rest A s A s' := .of_runs hruns ⟨p.toList, hs'.free.symm⟩ fun _ _ _ => by
    rw [hmem]
  cases p with
  | none =>
      have hfree : s'.free = s.free := hs'.free.symm
      refine hnone s' ⟨h.congr hmem hfree hlost hruns.kend, hgrows, fun x _ => ?_, ?_, hmissed⟩
      · rw [State.Accounts, hfree, hlost, State.Accounts]
      · rw [hs'.refused]
        exact Bool.or_true _
  | some p =>
      have hfree : s.free = p :: s'.free := hs'.free
      obtain ⟨howns, hp, hmanaged, hrest, hps, hlost', hpage⟩ := h.take hfree s'.denials
      refine hsome p s' ⟨⟨howns.congr hmem rfl hlost hruns.kend, ?_, hgrows, ?_, ?_, hmissed⟩,
        hmem, hfree⟩
      · rw [State.Taken, State.Managed, hlost, hruns.kend]
        exact ⟨hps, hlost', hrest, hmanaged⟩
      · intro x hx
        simp only [State.Accounts, withPage, hfree, hlost, List.mem_cons]
        grind
      · rw [hs'.refused]
        exact Bool.or_false _

/-! ## Page tables -/

/-- Virtual pages that the page tables can map. -/
abbrev VPAGES : Nat := 510 * 512

theorem pdx_eq (hv : v < VPAGES) : pdx v = v / 512 := by
  unfold pdx
  simp only [VPAGES, NPTENTRIES] at *
  omega

theorem present_table {t : Nat} : Present (t * PGSIZE + 7) := by
  simp only [Present, PGSIZE]
  omega

theorem pteAddr_table {t f : Nat} (hf : f < PGSIZE) : pteAddr (t * PGSIZE + f) = t := by
  simp only [pteAddr, PGSIZE] at *
  omega

/-- The directory entry of a virtual page. -/
theorem Owns.pde (h : Owns s A rest) (hv : v < VPAGES) :
    (Present (s.mem A.dir (pdx v)) ↔ A.table (v / 512) ≠ 0) ∧
      (A.table (v / 512) ≠ 0 → pteAddr (s.mem A.dir (pdx v)) = A.table (v / 512)) := by
  rw [pdx_eq hv]
  have hi : v / 512 < 510 := by
    simp only [VPAGES] at hv
    omega
  by_cases ht : A.table (v / 512) = 0
  · exact ⟨iff_of_false (h.maps.noTable _ hi ht) (fun hne => hne ht), fun hne => absurd ht hne⟩
  · rw [(h.maps.table _ ht).2]
    exact ⟨iff_of_true present_table ht, fun _ => pteAddr_table (by decide)⟩

/-- The entry of a virtual page that has a page table. -/
theorem Owns.pte (h : Owns s A rest) (ht : A.table (v / 512) ≠ 0) :
    (Present (s.mem (A.table (v / 512)) (v % 512)) ↔ A.leaf v ≠ 0) ∧
      (A.leaf v ≠ 0 → pteAddr (s.mem (A.table (v / 512)) (v % 512)) = A.leaf v ∧
        pteFlags (s.mem (A.table (v / 512)) (v % 512)) = A.flags v) := by
  by_cases hl : A.leaf v = 0
  · rw [h.maps.noLeaf v ht hl]
    exact ⟨iff_of_false (by decide) (fun hne => hne hl), fun hne => absurd hl hne⟩
  · obtain ⟨hodd, hlt⟩ := h.maps.flags v hl
    rw [(h.maps.leaf v hl).2]
    refine ⟨iff_of_true ?_ hl, fun _ => ⟨pteAddr_table hlt, ?_⟩⟩
    · simp only [Present, PGSIZE] at *
      omega
    · simp only [pteFlags, PGSIZE] at *
      omega

/-- What the memory that holds a space has at a virtual page. -/
theorem Maps.lookup {m : Nat → Nat → Nat} (h : Maps m A) (v : Nat) :
    lookup m A.dir v = if A.leaf v = 0 then none else some (A.leaf v, A.flags v) := by
  unfold Vm.lookup
  by_cases ht : A.table (v / 512) = 0
  · have hl : A.leaf v = 0 := by
      by_contra hl
      exact (h.leaf v hl).1 ht
    rw [if_pos hl, if_neg]
    rintro ⟨hlt, hp⟩
    exact h.noTable _ hlt ht hp
  · obtain ⟨hlt, hpde⟩ := h.table _ ht
    rw [hpde, pteAddr_table (by decide), if_pos ⟨hlt, present_table⟩]
    dsimp only
    by_cases hl : A.leaf v = 0
    · rw [h.noLeaf v ht hl, if_pos hl]
      rfl
    · obtain ⟨hodd, hflags⟩ := h.flags v hl
      have hp : Present (A.leaf v * PGSIZE + A.flags v) := by
        simp only [Present, PGSIZE]
        omega
      have hf : pteFlags (A.leaf v * PGSIZE + A.flags v) = A.flags v := by
        simp only [pteFlags, PGSIZE] at *
        omega
      rw [(h.leaf v hl).2, if_pos hp, if_neg hl, pteAddr_table hflags, hf]

theorem wp_load {Q : Nat → State → Prop} {E : Stop → State → Prop} {k : Nat} (hp : p < LINEAR)
    (h : Q (s.mem p k) s) : wp (load p k) Q E s := by
  unfold load
  rw [wp_ite]
  refine ⟨fun hle => absurd hp (Nat.not_lt.2 hle), fun _ => ?_⟩
  rw [wp_bind, wp_get, wp_pure]
  exact h

theorem wp_store {Q : Unit → State → Prop} {E : Stop → State → Prop} {k w : Nat} (hp : p < LINEAR)
    (h : Q () { s with mem := storeWord s.mem p k w }) : wp (store p k w) Q E s := by
  unfold store
  rw [wp_ite]
  refine ⟨fun hle => absurd hp (Nat.not_lt.2 hle), fun _ => ?_⟩
  rw [wp_modify]
  exact h

/-- `walkpgdir` without allocation. -/
theorem walkpgdir_lookup (h : Owns s A rest) (hv : v < VPAGES)
    {Q : Option (Nat × Nat) → State → Prop} {E : Stop → State → Prop}
    (hnone : A.table (v / 512) = 0 → Q none s)
    (hsome : A.table (v / 512) ≠ 0 → Q (some (A.table (v / 512), v % 512)) s) :
    wp (walkpgdir A.dir v false) Q E s := by
  obtain ⟨hpresent, haddr⟩ := h.pde hv
  unfold walkpgdir
  rw [wp_bind]
  refine wp_load (h.linear .dir) ?_
  rw [wp_ite]
  refine ⟨fun hp => ?_, fun hp => ?_⟩
  · have ht := hpresent.1 hp
    rw [wp_pure, haddr ht]
    exact hsome ht
  · have ht : A.table (v / 512) = 0 := by
      by_contra ht
      exact hp (hpresent.2 ht)
    rw [wp_ite]
    refine ⟨nofun, fun _ => ?_⟩
    rw [wp_pure]
    exact hnone ht

/-- A space that differs from another only in its page table for virtual page `v`. -/
structure Retabled (A : Space) (v : Nat) (A' : Space) : Prop where
  leaf : A'.leaf = A.leaf
  flags : A'.flags = A.flags
  table : ∀ i, i ≠ v / 512 → A'.table i = A.table i

/-- `walkpgdir` with allocation. -/
theorem walkpgdir_alloc (h : Owns s A rest) (hv : v < VPAGES)
    {Q : Option (Nat × Nat) → State → Prop} {E : Stop → State → Prop}
    (hnone : ∀ s', Refused A rest s s' → Q none s')
    (hsome : ∀ A' s', Owns s' A' rest → Grows rest A s A' s' → Conserves A rest s A' rest s' →
      Retabled A v A' → A'.table (v / 512) ≠ 0 → s'.missed = s.missed → s'.refused = s.refused →
      Q (some (A'.table (v / 512), v % 512)) s') :
    wp (walkpgdir A.dir v true) Q E s := by
  obtain ⟨hpresent, haddr⟩ := h.pde hv
  unfold walkpgdir
  rw [wp_bind]
  refine wp_load (h.linear .dir) ?_
  rw [wp_ite]
  refine ⟨fun hp => ?_, fun hp => ?_⟩
  · have ht := hpresent.1 hp
    rw [wp_pure, haddr ht]
    exact hsome A s h (.of_runs (.refl s) (List.suffix_refl _) fun _ _ _ => rfl) (fun _ _ => .rfl)
      ⟨rfl, rfl, fun _ _ => rfl⟩ ht rfl rfl
  · have ht : A.table (v / 512) = 0 := by
      by_contra ht
      exact hp (hpresent.2 ht)
    have hi : v / 512 < 510 := by
      simp only [VPAGES] at hv
      omega
    rw [wp_ite]
    refine ⟨fun _ => ?_, fun hfalse => absurd rfl hfalse⟩
    rw [wp_bind]
    refine kalloc_spec h (fun s' hs' => ?_) fun t s₁ hs₁ => ?_
    · rw [wp_pure]
      exact hnone s' hs'
    · have hs₂ := hs₁.toInHand.fill fun _ => 0
      have howns := hs₂.owns.setTable (i := v / 512) hi ht hs₂.taken (Function.update_self _ _ _)
      rw [wp_bind]
      unfold fill
      rw [wp_modify, wp_bind]
      refine wp_store (h.linear .dir) ?_
      rw [wp_pure, pdx_eq hv]
      have hpage := Space.page_setTable A (v / 512) t
      have htable : (A.setTable (v / 512) t).table (v / 512) = t := Function.update_self _ _ _
      have hgoal := hsome (A.setTable (v / 512) t) _ howns ?_ ?_
        ⟨rfl, rfl, fun i hi => Function.update_of_ne hi _ _⟩
        (by rw [htable]; exact hs₂.ne_zero) hs₂.missed hs₂.refused
      · rw [htable] at hgoal
        exact hgoal
      · refine ⟨hs₂.grows.toRuns.setMem (storeWord_of_ne h.dir.symm), rfl, rfl, rfl, ?_,
          fun _ _ => ⟨rfl, rfl⟩, ?_,
          hs₂.grows.free⟩
        · intro i hi'
          refine Function.update_of_ne ?_ _ _
          rintro rfl
          exact hi' ht
        · intro x hx hr
          have hxd : x ≠ A.dir := by
            rintro rfl
            rcases hr with hr | ⟨u, hu⟩
            · exact (h.excl.held .dir h.dir).2.2.1 hr
            · exact h.page_ne .dir (.leaf u) nofun h.dir hu.symm
          rw [← hs₂.grows.mem x hx hr]
          exact storeWord_of_ne hxd
      · refine hs₂.conserves.trans fun x hx => ?_
        simp only [State.Accounts, withPage, has_update (r := .table (v / 512)) ht hx hpage]
        grind

theorem mappages_page (d p perm v : Nat) :
    mappages d (v * PGSIZE) PGSIZE p perm = mappagesLoop d perm 1 v p := by
  have h1 : (v * PGSIZE + PGSIZE - 1) / PGSIZE = v := by
    simp only [PGSIZE]
    omega
  have h2 : v * PGSIZE / PGSIZE = v := Nat.mul_div_cancel _ (by decide)
  rw [mappages, h1, h2, Nat.sub_self]

/-- The page in hand is now the data page at `v`. -/
structure Mapped (A : Space) (rest : Nat → Prop) (v p f : Nat) (s : State) (A' : Space)
    (s' : State) : Prop where
  owns : Owns s' A' rest
  grows : Grows (withPage rest p) A s A' s'
  conserves : Conserves A (withPage rest p) s A' rest s'
  leaf : A'.leaf = Function.update A.leaf v p
  flags : A'.flags = Function.update A.flags v f
  table : ∀ i, i ≠ v / 512 → A'.table i = A.table i
  missed : s'.missed = s.missed
  refused : s'.refused = s.refused

/-- `mappages` for the page in hand. -/
theorem mappages_spec (h : Owns s A (withPage rest p)) (hp : s.Taken rest p) (hv : v < VPAGES)
    (hnone : A.leaf v = 0) {perm : Nat} (hperm : perm < PGSIZE)
    {Q : Bool → State → Prop} {E : Stop → State → Prop}
    (hfalse : ∀ s', Refused A (withPage rest p) s s' → Q false s')
    (htrue : ∀ A' s', Mapped A rest v p (perm ||| PTE_P) s A' s' → Q true s') :
    wp (mappages A.dir (v * PGSIZE) PGSIZE p perm) Q E s := by
  rw [mappages_page, mappagesLoop, wp_bind]
  refine walkpgdir_alloc h hv (fun s' hs' => ?_) fun A₁ s₁ howns hgrows hcons hsame ht hm hr => ?_
  · rw [wp_pure]
    exact hfalse s' hs'
  · have hleaf : A₁.leaf v = 0 := by rw [hsame.leaf, hnone]
    have hp₁ : s₁.Taken rest p := by
      refine howns.inHand hp.2.2.1 ?_
      rw [State.Managed, hgrows.kend]
      exact hp.2.2.2
    dsimp only
    rw [wp_bind]
    refine wp_load (howns.linear (.table _)) ?_
    rw [wp_ite]
    refine ⟨fun hpresent => absurd hleaf ((howns.pte ht).1.1 hpresent), fun _ => ?_⟩
    rw [wp_bind]
    refine wp_store (howns.linear (.table _)) ?_
    rw [mappagesLoop, wp_pure]
    have hpage := Space.page_setLeaf A₁ v p (perm ||| PTE_P)
    refine htrue (A₁.setLeaf v p (perm ||| PTE_P)) _ ⟨howns.setLeaf hperm ht hp₁, ?_, ?_, ?_,
      ?_, hsame.table, hm, hr⟩
    · refine ⟨hgrows.toRuns.setMem (storeWord_of_ne ht.symm), hgrows.dir, hgrows.pml4, hgrows.pdpt,
        hgrows.table, ?_, ?_,
        hgrows.free⟩
      · intro u hu
        have hne : u ≠ v := by
          rintro rfl
          exact hu hnone
        simp only [Space.setLeaf, Function.update_of_ne hne]
        exact hgrows.leaf u hu
      · intro x hx hr'
        rw [← hgrows.mem x hx hr']
        have hxt : x ≠ A₁.table (v / 512) := by
          rintro rfl
          rcases hr' with hr' | ⟨u, hu⟩
          · exact (howns.excl.held (.table (v / 512)) ht).2.2.1 hr'
          · refine howns.page_ne (.table (v / 512)) (.leaf u) nofun ht ?_
            exact hu.symm.trans (congrFun hsame.leaf u).symm
        exact storeWord_of_ne hxt
    · refine hcons.trans fun x hx => ?_
      simp only [State.Accounts, withPage, has_update (r := .leaf v) hleaf hx hpage]
      grind
    · simp only [Space.setLeaf, hsame.leaf]
    · simp only [Space.setLeaf, hsame.flags]

/-! ## `allocuvm` -/

/-- The page in hand is lost. -/
theorem InHand.lose {s₁ s₂ : State} (h : InHand A rest s p s₁)
    (hr : Refused A (withPage rest p) s₁ s₂) :
    Owns { s₂ with lost := p :: s₂.lost } A rest ∧
      Grows rest A s A { s₂ with lost := p :: s₂.lost } ∧
      Conserves A rest s A rest { s₂ with lost := p :: s₂.lost } := by
  have hp : s₂.Taken rest p := by
    refine hr.owns.inHand h.taken.2.2.1 ?_
    rw [State.Managed, hr.grows.kend]
    exact h.taken.2.2.2
  have hgrows := h.grows.trans (hr.grows.mono fun _ => .inl)
  refine ⟨hr.owns.lose hp, ?_, ?_⟩
  · refine { hgrows with lost := fun x hx => List.mem_cons_of_mem _ (hgrows.lost x hx) }
  · refine (h.conserves.trans hr.conserves).trans fun x hx => ?_
    simp only [State.Accounts, withPage, List.mem_cons]
    grind

/-- Virtual pages from `v` on, `n` of them, have been given pages, or some of them. -/
structure Allocated (rest : Nat → Prop) (A : Space) (v n : Nat) (s : State) (done : Bool)
    (A' : Space) (s' : State) : Prop where
  owns : Owns s' A' rest
  grows : Grows rest A s A' s'
  conserves : Conserves A rest s A' rest s'
  outside : ∀ u, u < v ∨ v + n ≤ u → A'.leaf u = A.leaf u ∧ A'.flags u = A.flags u
  inside : done = true → s'.missed = false → ∀ u, v ≤ u → u < v + n →
    A'.leaf u ≠ 0 ∧ A'.flags u = 7
  short : done = false → 0 < n ∧ s'.refused = true
  tables : ∀ i, A'.table i ≠ 0 → A.table i ≠ 0 ∨ i * 512 < v + n

theorem Allocated.cons {n : Nat} {done : Bool} (h : Allocated rest A' (v + 1) n s' done A'' s'')
    (hleaf : ∀ u, u ≠ v → A'.leaf u = A.leaf u ∧ A'.flags u = A.flags u)
    (hgrows : Grows rest A s A' s') (hcons : Conserves A rest s A' rest s')
    (hv : s'.missed = false → A'.leaf v ≠ 0 ∧ A'.flags v = 7)
    (htable : ∀ i, i ≠ v / 512 → A'.table i = A.table i) :
    Allocated rest A v (n + 1) s done A'' s'' where
  owns := h.owns
  grows := hgrows.trans h.grows
  conserves := hcons.trans h.conserves
  outside u hu := by
    have h1 := h.outside u (by omega)
    have h2 := hleaf u (by omega)
    exact ⟨h1.1.trans h2.1, h1.2.trans h2.2⟩
  inside hdone hmissed u hle hlt := by
    by_cases hu : u = v
    · subst hu
      have hnot : s'.missed = false := by
        by_contra hm
        rw [h.grows.missed (by simpa using hm)] at hmissed
        cases hmissed
      have h1 := h.outside u (by omega)
      rw [h1.1, h1.2]
      exact hv hnot
    · exact h.inside hdone hmissed u (by omega) (by omega)
  short hdone := ⟨Nat.succ_pos n, (h.short hdone).2⟩
  tables i hi := by
    by_cases hiv : i = v / 512
    · exact .inr (by omega)
    · rcases h.tables i hi with ht | ht
      · rw [htable i hiv] at ht
        exact .inl ht
      · exact .inr (by omega)

/-- The data pages from `v` on, as far as there are some, hold zeros only. -/
def Zeroed (A : Space) (v n : Nat) (m : Nat → Nat → Nat) : Prop :=
  ∀ u, v ≤ u → u < v + n → A.leaf u ≠ 0 → m (A.leaf u) = fun _ => 0

theorem allocLoop_zeroed (n : Nat) : ∀ {s : State} {A : Space} {v : Nat}, Owns s A rest →
    (∀ u, v ≤ u → u < v + n → A.leaf u = 0) → v + min n s.free.length ≤ VPAGES →
    wp (allocLoop A.dir n v)
      (fun done s' => ∃ A', Allocated rest A v n s done A' s' ∧ Zeroed A' v n s'.mem)
      (fun _ _ => False) s := by
  induction n with
  | zero =>
      intro s A v h _ _
      rw [allocLoop, wp_pure]
      exact ⟨A, ⟨h, .of_runs (.refl s) (List.suffix_refl _) fun _ _ _ => rfl, fun _ _ => .rfl,
        fun _ _ => ⟨rfl, rfl⟩, fun _ _ u hle hlt => by omega, nofun, fun _ => .inl⟩,
        fun u hle hlt => absurd hlt (by omega)⟩
  | succ n ih =>
      intro s A v h hnone hroom
      rw [allocLoop, wp_bind]
      refine kalloc_spec h (fun s' hs' => ?_) fun p s₁ hs₁ => ?_
      · rw [wp_pure]
        exact ⟨A, ⟨hs'.owns, hs'.grows, hs'.conserves, fun _ _ => ⟨rfl, rfl⟩, nofun,
          fun _ => ⟨Nat.succ_pos n, hs'.refused⟩, fun _ => .inl⟩,
          fun u hle hlt hl => absurd (hnone u hle hlt) hl⟩
      · have hs₂ := hs₁.toInHand.fill fun _ => 0
        have hlen : s.free.length = s₁.free.length + 1 := by rw [hs₁.free, List.length_cons]
        have hv : v < VPAGES := by omega
        dsimp only
        rw [wp_bind]
        unfold fill
        rw [wp_modify, wp_bind]
        refine mappages_spec hs₂.owns hs₂.taken hv (hnone v (by omega) (by omega)) (by decide)
          (fun s₃ hs₃ => ?_) fun A₃ s₃ hs₃ => ?_
        · -- no page table: the page is lost and its place stays empty
          obtain ⟨howns, hgrows, hcons⟩ := hs₂.lose hs₃
          rw [wp_ite]
          refine ⟨nofun, fun _ => ?_⟩
          unfold lose
          rw [wp_bind, wp_modify, wp_bind, wp_modify]
          have hlen₃ := hs₃.grows.free.length_le
          refine wp_imp (ih (howns.congr rfl rfl rfl rfl)
            (fun u hle hlt => hnone u (by omega) (by omega)) ?_) ?_
          · dsimp only at hlen₃ ⊢
            omega
          · rintro done s' ⟨A', hA', hzero⟩
            refine ⟨A', hA'.cons (fun _ _ => ⟨rfl, rfl⟩) ?_ hcons nofun fun _ _ => rfl,
              fun u hle hlt hl => ?_⟩
            · exact { hgrows with missed := fun _ => rfl }
            · by_cases hu : u = v
              · rw [(hA'.outside u (by omega)).1] at hl
                exact absurd (hnone u hle hlt) hl
              · exact hzero u (by omega) (by omega) hl
        · have hgrows := hs₂.grows.trans (hs₃.grows.mono fun _ => .inl)
          have hother : ∀ u, u ≠ v → A₃.leaf u = A.leaf u ∧ A₃.flags u = A.flags u := by
            intro u hu
            rw [hs₃.leaf, hs₃.flags, Function.update_of_ne hu, Function.update_of_ne hu]
            exact ⟨rfl, rfl⟩
          rw [wp_ite]
          refine ⟨fun _ => ?_, fun hfalse => absurd rfl hfalse⟩
          have hlen₃ := hs₃.grows.free.length_le
          rw [← hgrows.dir]
          refine wp_imp (ih hs₃.owns (fun u hle hlt => ?_) ?_) ?_
          · rw [(hother u (by omega)).1]
            exact hnone u (by omega) (by omega)
          · dsimp only at hlen₃ ⊢
            omega
          · rintro done s' ⟨A', hA', hzero⟩
            have hleaf : A₃.leaf v = p := by rw [hs₃.leaf, Function.update_self]
            refine ⟨A', hA'.cons hother hgrows (hs₂.conserves.trans hs₃.conserves) (fun _ => ?_)
              hs₃.table, fun u hle hlt hl => ?_⟩
            · rw [hs₃.leaf, hs₃.flags, Function.update_self, Function.update_self]
              exact ⟨hs₂.ne_zero, rfl⟩
            · by_cases hu : u = v
              · subst hu
                rw [(hA'.outside u (by omega)).1, hleaf, hA'.grows.mem p hs₂.ne_zero
                  (.inr ⟨u, hleaf⟩), hs₃.grows.mem p hs₂.ne_zero (.inl (.inr rfl))]
                exact Function.update_self _ _ _
              · exact hzero u (by omega) (by omega) hl

theorem allocLoop_spec (n : Nat) (h : Owns s A rest) (hnone : ∀ u, v ≤ u → u < v + n → A.leaf u = 0)
    (hroom : v + min n s.free.length ≤ VPAGES) :
    wp (allocLoop A.dir n v) (fun done s' => ∃ A', Allocated rest A v n s done A' s')
      (fun _ _ => False) s :=
  wp_imp (allocLoop_zeroed n h hnone hroom) fun _ _ ⟨A', hA', _⟩ => ⟨A', hA'⟩

end Grows

/-! ## `deallocuvm` -/

section Shrinks

variable {s s' s'' : State} {A A' A'' : Space} {rest : Nat → Prop} {p v limit : Nat}

/-- The data pages at `v` and behind, up to `limit`, have been freed, or some of them; the
page tables stay. -/
structure Freed (rest : Nat → Prop) (A : Space) (v limit : Nat) (s : State) (A' : Space)
    (s' : State) : Prop extends Runs s s' where
  owns : Owns s' A' rest
  conserves : Conserves A rest s A' rest s'
  dir : A'.dir = A.dir
  pml4 : A'.pml4 = A.pml4
  pdpt : A'.pdpt = A.pdpt
  table : A'.table = A.table
  outside : ∀ u, u < v ∨ limit ≤ u → A'.leaf u = A.leaf u ∧ A'.flags u = A.flags u
  kept : ∀ u, A'.leaf u = A.leaf u ∧ A'.flags u = A.flags u ∨ A'.leaf u = 0
  /-- From the start of a page table, or from a place that has one, all of them. -/
  inside : A.table (v / 512) ≠ 0 ∨ v % 512 = 0 → ∀ u, v ≤ u → u < limit → A'.leaf u = 0
  mem : ∀ x, x ≠ 0 → rest x ∨ (∃ u, A'.leaf u = x) → s'.mem x = s.mem x
  sameLost : s'.lost = s.lost
  sameMissed : s'.missed = s.missed
  sameRefused : s'.refused = s.refused

theorem Freed.refl (h : Owns s A rest) (hv : limit ≤ v) : Freed rest A v limit s A s where
  toRuns := .refl s
  owns := h
  conserves _ _ := .rfl
  dir := rfl
  pml4 := rfl
  pdpt := rfl
  table := rfl
  outside _ _ := ⟨rfl, rfl⟩
  kept _ := .inl ⟨rfl, rfl⟩
  inside _ u hle hlt := absurd hlt (by omega)
  mem _ _ _ := rfl
  sameLost := rfl
  sameMissed := rfl
  sameRefused := rfl

theorem wp_kfree (hp : s.Managed p) {Q : Unit → State → Prop} {E : Stop → State → Prop}
    (h : Q () { s with
      mem := Function.update s.mem p fun _ => 0x0101010101010101
      free := p :: s.free }) : wp (kfree p) Q E s := by
  unfold kfree fill
  rw [wp_bind, wp_get, wp_ite]
  refine ⟨fun _ => ?_, fun hnot => absurd hp hnot⟩
  rw [wp_bind, wp_modify, wp_modify]
  exact h

/-- The pages of a space without the page at `v`. -/
theorem has_clearLeaf {x : Nat} (hx : x ≠ 0) :
    (A.setLeaf v 0 0).Has x ∨ x = A.leaf v ↔ A.Has x := by
  unfold Space.Has
  rw [Space.page_setLeaf]
  constructor
  · rintro (⟨r, hr⟩ | rfl)
    · by_cases heq : r = .leaf v
      · rw [heq, Function.update_self] at hr
        exact absurd hr.symm hx
      · rw [Function.update_of_ne heq] at hr
        exact ⟨r, hr⟩
    · exact ⟨.leaf v, rfl⟩
  · rintro ⟨r, hr⟩
    by_cases heq : r = .leaf v
    · rw [heq] at hr
      exact .inr hr.symm
    · exact .inl ⟨r, by rw [Function.update_of_ne heq, hr]⟩

/-- One page is freed, then those behind it. -/
theorem Freed.cons (h : Owns s A rest) (hv : A.leaf v ≠ 0) (c : Nat → Nat) (hlimit : v < limit)
    (hrest : Freed rest (A.setLeaf v 0 0) (v + 1) limit { s with
        mem := storeWord (Function.update s.mem (A.leaf v) c) (A.table (v / 512)) (v % 512) 0
        free := A.leaf v :: s.free } A' s') : Freed rest A v limit s A' s' := by
  have ht := (h.maps.leaf v hv).1
  have hkept : ∀ u, A'.leaf u = A.leaf u ∧ A'.flags u = A.flags u ∧ u ≠ v ∨ A'.leaf u = 0 := by
    intro u
    rcases hrest.kept u with ⟨h1, h2⟩ | h1
    · by_cases hu : u = v
      · rw [h1, hu]
        exact .inr (Function.update_self _ _ _)
      · rw [h1, h2]
        simp [Space.setLeaf, hu]
    · exact .inr h1
  refine ⟨⟨hrest.kend, hrest.kpdpt, hrest.cr3, hrest.lost, hrest.missed, hrest.refused,
      hrest.noDenials, hrest.zero.trans ?_⟩, hrest.owns, ?_, hrest.dir, hrest.pml4, hrest.pdpt,
        hrest.table, ?_, ?_, ?_, ?_,
    hrest.sameLost, hrest.sameMissed, hrest.sameRefused⟩
  · dsimp only
    rw [storeWord_of_ne ht.symm, Function.update_of_ne hv.symm]
  · intro x hx
    rw [hrest.conserves x hx]
    simp only [State.Accounts, List.mem_cons, ← has_clearLeaf (A := A) (v := v) hx]
    grind
  · intro u hu
    obtain ⟨h1, h2⟩ := hrest.outside u (by omega)
    have hne : u ≠ v := by omega
    rw [h1, h2]
    simp only [Space.setLeaf, Function.update_of_ne hne, and_self]
  · exact fun u => (hkept u).imp_left fun hu => ⟨hu.1, hu.2.1⟩
  · intro _ u hle hlt
    by_cases hu : u = v
    · rw [(hrest.outside u (by omega)).1, hu]
      exact Function.update_self _ _ _
    · refine hrest.inside ?_ u (by omega) hlt
      by_cases hmod : (v + 1) % 512 = 0
      · exact .inr hmod
      · have hdiv : (v + 1) / 512 = v / 512 := by omega
        rw [hdiv]
        exact .inl ht
  · intro x hx hr
    rw [hrest.mem x hx hr]
    have hxt : x ≠ A.table (v / 512) := by
      rintro rfl
      rcases hr with hr | ⟨u, hu⟩
      · exact (h.excl.held (.table (v / 512)) ht).2.2.1 hr
      · have htable : A'.table (v / 512) = A.table (v / 512) := congrFun hrest.table _
        have hne : A'.page (.table (v / 512)) ≠ 0 := fun h0 => ht (htable.symm.trans h0)
        exact hrest.owns.page_ne (.table (v / 512)) (.leaf u) nofun hne (htable.trans hu.symm)
    have hxp : x ≠ A.leaf v := by
      rintro rfl
      rcases hr with hr | ⟨u, hu⟩
      · exact (h.excl.held (.leaf v) hv).2.2.1 hr
      · rcases hkept u with ⟨h1, -, hne⟩ | h1
        · exact hne (Role.leaf.inj (h.excl.inj (.leaf v) (.leaf u) hv (hu.symm.trans h1))).symm
        · exact hx (hu.symm.trans h1)
    dsimp only
    rw [storeWord_of_ne hxt, Function.update_of_ne hxp]

/-- Going on further behind. -/
theorem Freed.skip {w : Nat} (h : Freed rest A w limit s A' s') (hw : v ≤ w)
    (hstart : A.table (v / 512) ≠ 0 ∨ v % 512 = 0 → (∀ u, v ≤ u → u < w → A.leaf u = 0) ∧
      (A.table (w / 512) ≠ 0 ∨ w % 512 = 0)) :
    Freed rest A v limit s A' s' :=
  { h with
    outside := fun u hu => h.outside u (by omega)
    inside := fun hv u hle hlt => by
      obtain ⟨hnone, hgo⟩ := hstart hv
      by_cases hu : u < w
      · have hzero := hnone u hle hu
        rcases h.kept u with ⟨h1, -⟩ | h1
        · rw [h1, hzero]
        · exact h1
      · exact h.inside hgo u (by omega) hlt }

/-- A virtual page behind the last page table: its directory entry is a back pointer. -/
theorem walkpgdir_wild (h : Owns s A rest)
    (hv : v / 512 = 510 ∧ A.pdpt ≠ 0 ∨ v / 512 = 511 ∧ A.pml4 ≠ 0)
    {Q : Option (Nat × Nat) → State → Prop} {E : Stop → State → Prop}
    (hsome : ∀ t k, LINEAR ≤ t → Q (some (t, k)) s) : wp (walkpgdir A.dir v false) Q E s := by
  have hpdx : pdx v = v / 512 := by
    unfold pdx
    simp only [NPTENTRIES]
    omega
  have hentry : ∃ q, s.mem A.dir (v / 512) = (KERNPAGE + q) * PGSIZE + PTE_P := by
    rcases hv with ⟨hv, hne⟩ | ⟨hv, hne⟩
    · exact ⟨A.pdpt, by rw [hv, h.maps.pdpt, if_neg hne]; rfl⟩
    · exact ⟨A.pml4, by rw [hv, h.maps.pml4, if_neg hne]; rfl⟩
  obtain ⟨q, hq⟩ := hentry
  unfold walkpgdir
  rw [wp_bind]
  refine wp_load (h.linear .dir) ?_
  rw [hpdx, hq, wp_ite]
  refine ⟨fun _ => ?_, fun hnot => absurd ?_ hnot⟩
  · rw [wp_pure, pteAddr_table (by decide)]
    exact hsome _ _ (by simp only [LINEAR, KERNPAGE]; omega)
  · simp only [Present, PGSIZE, PTE_P]
    omega

theorem deallocLoop_spec (fuel : Nat) : ∀ {s : State} {A : Space} {v : Nat}, Owns s A rest →
    v < VPAGES + 512 → limit ≤ v + fuel → (VPAGES < limit → A.pdpt ≠ 0) →
    wp (deallocLoop A.dir fuel v limit) (fun _ s' => ∃ A', Freed rest A v limit s A' s')
      (fun e _ => e = .fault ∧ VPAGES < limit) s := by
  induction fuel with
  | zero =>
      intro s A v h _ hfuel _
      rw [deallocLoop, wp_pure]
      exact ⟨A, .refl h (by omega)⟩
  | succ fuel ih =>
      intro s A v h hv hfuel hpdpt
      rw [deallocLoop, wp_ite]
      refine ⟨fun hle => ?_, fun hlt => ?_⟩
      · rw [wp_pure]
        exact ⟨A, .refl h hle⟩
      · rw [wp_bind]
        by_cases hin : v < VPAGES
        · refine walkpgdir_lookup h hin (fun ht => ?_) fun ht => ?_
          · -- no page table: 512 pages further
            have h512 : NPTENTRIES = 512 := rfl
            dsimp only
            refine wp_imp (ih h (by omega) (by omega) hpdpt) ?_
            rintro _ s' ⟨A', hA'⟩
            refine ⟨A', hA'.skip (by omega) ?_⟩
            rintro (hne | hmod)
            · exact absurd ht hne
            · refine ⟨fun u hle hlt' => ?_, .inr (by omega)⟩
              by_contra hl
              have hdiv : u / 512 = v / 512 := by omega
              exact (h.maps.leaf u hl).1 (hdiv ▸ ht)
          · obtain ⟨hpresent, haddr⟩ := h.pte ht
            have hnext : A.table ((v + 1) / 512) ≠ 0 ∨ (v + 1) % 512 = 0 := by
              by_cases hmod : (v + 1) % 512 = 0
              · exact .inr hmod
              · have hdiv : (v + 1) / 512 = v / 512 := by omega
                rw [hdiv]
                exact .inl ht
            dsimp only
            rw [wp_bind]
            refine wp_load (h.linear (.table _)) ?_
            rw [wp_ite]
            refine ⟨fun hp => ?_, fun hp => ?_⟩
            · have hl := hpresent.1 hp
              have hmanaged := h.managed (.leaf v) hl
              rw [(haddr hl).1, wp_ite]
              refine ⟨fun h0 => absurd h0 hl, fun _ => ?_⟩
              rw [wp_bind]
              refine wp_kfree hmanaged ?_
              rw [wp_bind]
              refine wp_store (h.linear (.table _)) ?_
              refine wp_imp (ih (A := A.setLeaf v 0 0) (h.clearLeaf hl _) (by omega) (by omega)
                hpdpt) ?_
              rintro _ s' ⟨A', hA'⟩
              exact ⟨A', hA'.cons h hl _ (by omega)⟩
            · have hl : A.leaf v = 0 := by
                by_contra hl
                exact hp (hpresent.2 hl)
              refine wp_imp (ih h (by omega) (by omega) hpdpt) ?_
              rintro _ s' ⟨A', hA'⟩
              refine ⟨A', hA'.skip (by omega) fun _ => ⟨fun u hle hlt' => ?_, hnext⟩⟩
              obtain rfl : u = v := by omega
              exact hl
        · refine walkpgdir_wild h (.inl ⟨?_, hpdpt (by omega)⟩) fun t k ht => ?_
          · simp only [VPAGES] at hv hin
            omega
          · dsimp only
            rw [wp_bind]
            unfold load
            rw [wp_ite]
            refine ⟨fun _ => ?_, fun hnot => absurd ht hnot⟩
            rw [wp_stop]
            exact ⟨rfl, by omega⟩

end Shrinks

end Xv6.Kernel.Vm
