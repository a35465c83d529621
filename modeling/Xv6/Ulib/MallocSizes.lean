import Xv6.Ulib.Umalloc
import Xv6.Verified.Int32

/-!
# Requests of every size

`malloc` of `ulib/libc/stdlib/umalloc.c` with the whole way to the memory: `sbrk` takes an `int`,
and `growproc` computes the size of the process in 32 bits.  A request of 2^31 bytes or more comes
to it as a negative number, or as almost nothing.  A request for all of the memory back frees every
page of the process before `growproc` returns -1, and a store behind the last page is a fault: in
either case `malloc` does not return.

Whether there are pages left is not known here, but a process has no more of them than the machine.

## Main results

* `malloc_safe_iff`: the requests that are safe, on every heap.
* `fits_of_run`: what it asks of the heap holds after any calls.
-/

namespace Xv6.Ulib.MallocSizes

open Verified Verified.CInt Umalloc

/-! ## The way to the memory -/

/-- The top of the physical memory. -/
abbrev PHYSTOP : Nat := 0xE000000

/-- `allocuvm`, which gives 0 if it does not get the pages that it needs. -/
def allocuvm (grant : Bool) (oldsz newsz : Nat) : Nat :=
  if newsz < oldsz then oldsz
  else if grant = true ∧ newsz ≤ PHYSTOP then newsz
  else 0

/-- `deallocuvm`. -/
def deallocuvm (oldsz newsz : Nat) : Nat :=
  if newsz ≥ oldsz then oldsz else newsz

/-- What `growproc` has done. -/
inductive Grown where
  /-- The process has a new size. -/
  | resized (sz : Nat)
  /-- It returned -1 and changed nothing. -/
  | refused
  /-- It returned -1, and all pages of the process are freed. -/
  | freed
  deriving DecidableEq

/-- `growproc` for a process of `sz` bytes.  `deallocuvm` has taken the pages away when its result
turns out to be 0. -/
def growproc (grant : Bool) (sz : Nat) (n : Int) : Grown :=
  let new := ((sz + n) % 2 ^ 32).toNat
  if n > 0 then
    if allocuvm grant sz new = 0 then .refused else .resized (allocuvm grant sz new)
  else if n < 0 then
    if deallocuvm sz new = 0 then .freed else .resized (deallocuvm sz new)
  else .resized sz

/-- `sbrk`: its result, where `none` is -1.  Without pages the process does not come back. -/
def sbrk (grants : Nat → Bool) (s : State) (n : Int) : Option (Option Nat × State) :=
  match growproc (grants s.sbrks.length) s.brk n with
  | .refused => some (none, { s with sbrks := false :: s.sbrks })
  | .resized sz => some (some s.brk, { s with brk := sz, sbrks := true :: s.sbrks })
  | .freed => none

/-- The number of bytes that `morecore` asks for, as the `int` that `sbrk` gets. -/
def request (nu : Nat) : Int := int ((if nu < 4096 then 4096 else nu) * 16 : Nat)

/-- The end of the last page of a process of `sz` bytes. -/
def lastPage (sz : Nat) : Nat := (sz + 4095) / 4096 * 4096

/-- `morecore` behind the call of `sbrk`.  The header is where the memory ended before: the store
faults if there is no page. -/
def linkNew (nu : Nat) : Option Nat × State → Option (Nat × State)
  | (none, s) => some (0, s)
  | (some hp, s) =>
      if hp + 16 ≤ lastPage s.brk then do
        let s ← free { s with mem := setSize s.mem hp (if nu < 4096 then 4096 else nu) } (hp + 16)
        return (s.freep, s)
      else none

/-- `morecore`. -/
def morecore (grants : Nat → Bool) (s : State) (nu : Nat) : Option (Nat × State) :=
  (sbrk grants s (request nu)).bind (linkNew nu)

/-- The loop of `malloc`. -/
def mallocLoop (grants : Nat → Bool) (nunits : Nat) :
    Nat → State → Nat → Nat → Option (Nat × State)
  | 0, _, _, _ => none
  | fuel + 1, s, prevp, p =>
      if size s.mem p ≥ nunits then some (take s nunits prevp p)
      else if p = s.freep then do
        let (p, s) ← morecore grants s nunits
        if p = 0 then some (0, s) else mallocLoop grants nunits fuel s p (ptr s.mem p)
      else mallocLoop grants nunits fuel s p (ptr s.mem p)

/-- The units of a request, with the one of the header. -/
def units (nbytes : Nat) : Nat := ((nbytes + 16 - 1) / 16 + 1) % 2 ^ 32

/-- `malloc`. -/
def malloc (L : Layout) (grants : Nat → Bool) (s : State) (nbytes : Nat) : Option (Nat × State) :=
  let s := if s.freep = 0 then
      { s with mem := setSize (setPtr s.mem L.base L.base) L.base 0, freep := L.base }
    else s
  mallocLoop grants (units nbytes) (2 ^ 32) s s.freep (ptr s.mem s.freep)

/-- The result of `malloc` for a safe request: a null pointer, or a block in the memory of the
process, which has not shrunk. -/
def Safe (L : Layout) (s : State) (nbytes : Nat) (r : Nat) (s' : State) : Prop :=
  (r = 0 ∨ L.start + 16 ≤ r ∧ r + nbytes ≤ s'.brk) ∧ s.brk ≤ s'.brk

/-! ## Small requests -/

variable {L : Layout} {grants : Nat → Bool} {s t : State} {nunits fuel x p sz nbytes : Nat}
  {n : Int} {bs : List Block} {m m' : Mem}

theorem growproc_of_pos (hn : 0 < n) (hlt : n < 2 ^ 31) (hsz : sz ≤ PHYSTOP) (grant : Bool) :
    growproc grant sz n =
      if grant = true ∧ sz + n ≤ PHYSTOP then .resized (sz + n).toNat else .refused := by
  have hphys : PHYSTOP = 234881024 := rfl
  have hnew : ((sz + n) % 2 ^ 32).toNat = sz + n.toNat := by omega
  have hsum : ((sz : Int) + n).toNat = sz + n.toNat := by omega
  have halloc : allocuvm grant sz (sz + n.toNat) =
      if grant = true ∧ sz + n.toNat ≤ PHYSTOP then sz + n.toNat else 0 := if_neg (by omega)
  rw [growproc]
  simp only [hnew, hn, if_true, halloc]
  by_cases hroom : grant = true ∧ sz + n ≤ PHYSTOP
  · have hroom' : grant = true ∧ sz + n.toNat ≤ PHYSTOP := ⟨hroom.1, by omega⟩
    rw [if_pos hroom, if_pos hroom', if_neg (by omega), hsum]
  · have hroom' : ¬ (grant = true ∧ sz + n.toNat ≤ PHYSTOP) :=
      fun h => hroom ⟨h.1, by omega⟩
    rw [if_neg hroom, if_neg hroom', if_pos rfl]

theorem request_small (h : nunits * 16 < 2 ^ 31) :
    request nunits = (if nunits < 4096 then 4096 else nunits : Nat) * 16 ∧ 0 < request nunits ∧
      request nunits < 2 ^ 31 := by
  rw [request, int]
  split <;> omega

/-- The answers of `sbrk` that the requests for `n` bytes get which a loop makes from `s` on. -/
def answers (grants : Nat → Bool) (s : State) (n : Int) (i : Nat) : Bool :=
  grants i && decide (s.brk + n * (i - s.sbrks.length + 1 : Nat) ≤ PHYSTOP)

/-- The loop has come from `s` to `t` with requests for `n` bytes. -/
def Later (s t : State) (n : Int) : Prop :=
  s.sbrks.length ≤ t.sbrks.length ∧ t.brk ≤ PHYSTOP ∧
    t.brk = s.brk + n * (t.sbrks.length - s.sbrks.length : Nat)

theorem sbrk_eq (grants : Nat → Bool) (hpos : 0 < n) (hlt : n < 2 ^ 31) (ht : Later s t n) :
    ∃ q, sbrk grants t n = some q ∧ q = Umalloc.sbrk (answers grants s n) t n ∧
      ∀ hp, q.1 = some hp → Later s q.2 n ∧ q.2.brk = hp + n := by
  obtain ⟨hlen, hphys, hbrk⟩ := ht
  have hstop : PHYSTOP = 234881024 := rfl
  have hnext : (t.brk : Int) + n =
      s.brk + n * (t.sbrks.length - s.sbrks.length + 1 : Nat) := by
    rw [hbrk, Int.natCast_add, Int.mul_add]
    omega
  have hanswer : answers grants s n t.sbrks.length = true ↔
      grants t.sbrks.length = true ∧ t.brk + n ≤ PHYSTOP := by
    rw [answers, Bool.and_eq_true, decide_eq_true_iff, hnext]
  rw [sbrk, Umalloc.sbrk, growproc_of_pos hpos hlt hphys]
  by_cases hroom : grants t.sbrks.length = true ∧ t.brk + n ≤ PHYSTOP
  · rw [if_pos hroom, if_pos ⟨hanswer.2 hroom, by omega, by omega⟩]
    refine ⟨_, rfl, rfl, fun hp hhp => ?_⟩
    obtain rfl := Option.some.inj hhp
    dsimp only
    refine ⟨⟨Nat.le_succ_of_le hlen, by dsimp only; omega, ?_⟩, by omega⟩
    dsimp only
    rw [List.length_cons, Nat.sub_add_comm hlen, ← hnext]
    omega
  · rw [if_neg hroom, if_neg fun h => hroom (hanswer.1 h.1)]
    exact ⟨_, rfl, rfl, fun hp hhp => by cases hhp⟩

theorem free_eq {t' : State} {ap : Nat} (h : free t ap = some t') :
    t'.brk = t.brk ∧ t'.sbrks = t.sbrks := by
  simp only [free, Option.bind_eq_bind, Option.bind_eq_some_iff, Option.pure_def,
    Option.some.injEq] at h
  obtain ⟨q, -, rfl⟩ := h
  exact ⟨rfl, rfl⟩

theorem morecore_eq (grants : Nat → Bool) (h : nunits * 16 < 2 ^ 31)
    (ht : Later s t (request nunits)) :
    morecore grants t nunits = Umalloc.morecore (answers grants s (request nunits)) t nunits ∧
      ∀ r, morecore grants t nunits = some r → r.1 ≠ 0 → Later s r.2 (request nunits) := by
  obtain ⟨hbytes, hpos, hlt⟩ := request_small h
  obtain ⟨q, hsbrk, hq, hlater⟩ := sbrk_eq grants hpos hlt ht
  have hmod : Int.bmod ((if nunits < 4096 then 4096 else nunits : Nat) * 16) (2 ^ 32) =
      request nunits := by
    rw [hbytes] at hlt ⊢
    exact Int.bmod_eq_of_le (by omega) (by omega)
  have hlarge : 16 ≤ request nunits := by
    rw [hbytes]
    split <;> omega
  rw [morecore, hsbrk, Option.bind_some, Umalloc.morecore]
  simp only [hmod, ← hq]
  obtain ⟨_ | hp, t₁⟩ := q
  · refine ⟨rfl, fun r hr hne => ?_⟩
    cases hr
    exact absurd rfl hne
  · obtain ⟨hlater, hend⟩ := hlater hp rfl
    have hpage : hp + 16 ≤ lastPage t₁.brk := by
      rw [lastPage]
      dsimp only at hend
      omega
    rw [linkNew, if_pos hpage]
    refine ⟨rfl, fun r hr _ => ?_⟩
    simp only [Option.bind_eq_bind, Option.bind_eq_some_iff, Option.pure_def,
      Option.some.injEq] at hr
    obtain ⟨t₂, hfree, rfl⟩ := hr
    obtain ⟨hbrk, hsbrks⟩ := free_eq hfree
    dsimp only [Later] at hlater hbrk hsbrks ⊢
    rwa [hbrk, hsbrks]

/-- The loop of a small request is the one of `Umalloc`. -/
theorem mallocLoop_eq (grants : Nat → Bool) (fuel x p : Nat) (h : nunits * 16 < 2 ^ 31)
    (ht : Later s t (request nunits)) :
    mallocLoop grants nunits fuel t x p =
      Umalloc.mallocLoop (answers grants s (request nunits)) nunits fuel t x p := by
  induction fuel generalizing t x p with
  | zero => rfl
  | succ fuel ih =>
      obtain ⟨hmore, hlater⟩ := morecore_eq grants h ht
      rw [mallocLoop, Umalloc.mallocLoop, ← hmore]
      split
      · rfl
      · split
        · generalize morecore grants t nunits = q at hlater ⊢
          cases q with
          | none => rfl
          | some r =>
              rw [Option.bind_eq_bind, Option.bind_some]
              dsimp only
              split
              · rfl
              · exact ih _ _ (hlater r rfl ‹_›)
        · exact ih _ _ ht

theorem units_eq (h : nbytes < 2 ^ 32) : units nbytes = (nbytes + 15) / 16 + 1 :=
  Nat.mod_eq_of_lt (by omega)

theorem sbrk_brk (grants : Nat → Bool) (hn : 0 < n) (hlt : n < 2 ^ 31) (ht : t.brk ≤ PHYSTOP)
    {q : Option Nat × State} (hq : sbrk grants t n = some q) :
    t.brk ≤ q.2.brk ∧ q.2.brk ≤ PHYSTOP := by
  rw [sbrk, growproc_of_pos hn hlt ht] at hq
  by_cases hroom : grants t.sbrks.length = true ∧ t.brk + n ≤ PHYSTOP
  · rw [if_pos hroom] at hq
    cases hq
    dsimp only
    omega
  · rw [if_neg hroom] at hq
    cases hq
    exact ⟨Nat.le_refl _, ht⟩

theorem morecore_brk (grants : Nat → Bool) (h : nunits * 16 < 2 ^ 31) (ht : t.brk ≤ PHYSTOP)
    {r : Nat × State} (hr : morecore grants t nunits = some r) :
    t.brk ≤ r.2.brk ∧ r.2.brk ≤ PHYSTOP := by
  obtain ⟨-, hpos, hlt⟩ := request_small h
  rw [morecore, Option.bind_eq_some_iff] at hr
  obtain ⟨q, hq, hr⟩ := hr
  have hbrk := sbrk_brk grants hpos hlt ht hq
  obtain ⟨_ | hp, t₁⟩ := q
  · cases hr
    exact hbrk
  · rw [linkNew] at hr
    split at hr
    · simp only [Option.bind_eq_bind, Option.bind_eq_some_iff, Option.pure_def,
        Option.some.injEq] at hr
      obtain ⟨t₂, hfree, rfl⟩ := hr
      rw [(free_eq hfree).1]
      exact hbrk
    · cases hr

theorem take_brk (s : State) (nunits prevp p : Nat) : (take s nunits prevp p).2.brk = s.brk := by
  rw [take]
  split <;> rfl

/-- The memory does not shrink, and it does not outgrow the machine. -/
theorem mallocLoop_brk (grants : Nat → Bool) (h : nunits * 16 < 2 ^ 31) (ht : t.brk ≤ PHYSTOP)
    {r : Nat × State} (hr : mallocLoop grants nunits fuel t x p = some r) :
    t.brk ≤ r.2.brk ∧ r.2.brk ≤ PHYSTOP := by
  induction fuel generalizing t x p with
  | zero => cases hr
  | succ fuel ih =>
      rw [mallocLoop] at hr
      split at hr
      · obtain rfl := Option.some.inj hr
        rw [take_brk]
        exact ⟨Nat.le_refl _, ht⟩
      · split at hr
        · rw [Option.bind_eq_bind, Option.bind_eq_some_iff] at hr
          obtain ⟨q, hmore, hr⟩ := hr
          have hbrk := morecore_brk grants h ht hmore
          dsimp only at hr
          split at hr
          · obtain rfl := Option.some.inj hr
            exact hbrk
          · obtain ⟨hle, hmax⟩ := ih hbrk.2 hr
            exact ⟨hbrk.1.trans hle, hmax⟩
        · exact ih ht hr

/-- A small request is safe. -/
theorem mallocLoop_small (grants : Nat → Bool) (h : Shape L s.brk bs s.mem)
    (hfreep : s.freep ∈ L.base :: frees bs) (hbrk : s.brk ≤ PHYSTOP) {nbytes : Nat}
    (hn : nbytes ≤ 2 ^ 31 - 32) :
    ∃ r, mallocLoop grants (units nbytes) (2 ^ 32) s s.freep (ptr s.mem s.freep) = some r ∧
      Safe L s nbytes r.1 r.2 := by
  have hunits := units_eq (show nbytes < 2 ^ 32 by omega)
  have hsmall : units nbytes * 16 < 2 ^ 31 := by omega
  have hlater : Later s s (request (units nbytes)) := by
    refine ⟨Nat.le_refl _, hbrk, ?_⟩
    rw [Nat.sub_self, Int.natCast_zero, Int.mul_zero, Int.add_zero]
  have hloop := mallocLoop_eq grants (2 ^ 32) s.freep (ptr s.mem s.freep) hsmall hlater
  rcases mallocLoop_spec (answers grants s (request (units nbytes))) h hfreep (by omega) hsmall
    nbytes with hnull | ⟨r, bs', t, hr, hret, hsize, howner, hshape, -, -, howned, -⟩
  · exact ⟨_, hloop.trans hnull, .inl rfl, Nat.le_refl _⟩
  · refine ⟨r, hloop.trans hr, ?_, (mallocLoop_brk grants hsmall hbrk (hloop.trans hr)).1⟩
    have hin := hshape.covers.inside ((howned t (by simp [howner])).2 (.inl rfl))
    right
    omega

/-! ## A header behind the memory -/

/-- The search of the loop. -/
theorem search_spec (grants : Nat → Bool) (nunits fuel : Nat) {l : List Nat}
    (h : Leads (ptr s.mem) x l s.freep)
    (hnot : s.freep ∉ l) (hfuel : l.length < fuel) :
    (∃ prevp, ∃ q ∈ l ++ [s.freep], nunits ≤ size s.mem q ∧
      mallocLoop grants nunits fuel s x (ptr s.mem x) = some (take s nunits prevp q)) ∨
    ((∀ q ∈ l ++ [s.freep], size s.mem q < nunits) ∧ ∃ fuel', l.length + fuel' + 1 = fuel ∧
      mallocLoop grants nunits fuel s x (ptr s.mem x) = (morecore grants s nunits).bind fun r =>
        if r.1 = 0 then some (0, r.2)
        else mallocLoop grants nunits fuel' r.2 r.1 (ptr r.2.mem r.1)) := by
  obtain ⟨fuel, rfl⟩ := Nat.exists_eq_succ_of_ne_zero (Nat.ne_of_gt (Nat.zero_lt_of_lt hfuel))
  induction l generalizing x fuel with
  | nil =>
      have hx : ptr s.mem x = s.freep := h
      rw [mallocLoop, hx]
      by_cases hsize : nunits ≤ size s.mem s.freep
      · exact .inl ⟨_, _, List.mem_singleton_self _, hsize, if_pos hsize⟩
      · refine .inr ⟨fun q hq => ?_, fuel, by simp, ?_⟩
        · rw [List.mem_singleton.1 hq]
          omega
        · rw [if_neg hsize, if_pos rfl]
          rfl
  | cons y l ih =>
      rw [List.mem_cons, not_or] at hnot
      rw [mallocLoop, h.1]
      by_cases hsize : nunits ≤ size s.mem y
      · exact .inl ⟨_, _, List.mem_cons_self, hsize, if_pos hsize⟩
      · rw [if_neg hsize, if_neg (Ne.symm hnot.1)]
        rw [List.length_cons] at hfuel
        obtain ⟨fuel, rfl⟩ := Nat.exists_eq_succ_of_ne_zero (Nat.ne_of_gt (show 0 < fuel by omega))
        rcases ih h.2 hnot.2 fuel (by omega) with
          ⟨prevp, q, hq, hsize', hfound⟩ | ⟨hsmall, fuel', hf, heq⟩
        · exact .inl ⟨prevp, q, List.mem_cons_of_mem _ hq, hsize', hfound⟩
        · refine .inr ⟨fun q hq => ?_, fuel', by rw [List.length_cons]; omega, heq⟩
          rcases List.mem_cons.1 hq with rfl | hq
          · omega
          · exact hsmall q hq

/-- A ring in memory, with room for a block of `nunits`. -/
structure Ring (m : Mem) (freep nunits : Nat) (l : List Nat) : Prop where
  leads : Leads (ptr m) freep l freep
  fresh : freep ∉ l
  room : ∃ y ∈ l ++ [freep], nunits ≤ size m y

/-- The last header of the ring is where the loop of `free` stops for a block behind the memory. -/
theorem stops_last (h : Shape L sz bs m) (hm : ∀ y, y + 16 ≤ sz → ptr m' y = ptr m y)
    (hx : x ∈ L.base :: frees bs) :
    Stops m' sz x ↔ x = (frees bs).getLastD L.base := by
  have hin := h.covers.base_free hx
  rw [Stops, hm x hin.1]
  constructor
  · intro hstop
    rcases h.ring.next_cases h.covers.ring_sorted hx with ⟨hlast, -⟩ | ⟨hmem, hlt⟩
    · exact hlast
    · have := h.covers.free_inside hmem
      omega
  · rintro rfl
    rw [h.ring.next_last]
    omega

/-- The header at `sz` gets its place behind the last free block, or is joined with it. -/
theorem ring_end (h : Shape L sz bs m) (hsz : sz ≤ PHYSTOP) (hunits : nunits ≤ 2 ^ 28 + 1)
    (hm : m' = setSize m sz nunits) :
    ∃ l, Leads (ptr (joinPrev (joinNext m' sz ((frees bs).getLastD L.base)) sz
          ((frees bs).getLastD L.base))) L.base l L.base ∧
      (L.base :: l).Nodup ∧ l.length ≤ bs.length + 1 ∧ (frees bs).getLastD L.base ∈ L.base :: l ∧
      ∃ y ∈ L.base :: l, nunits ≤ size (joinPrev (joinNext m' sz ((frees bs).getLastD L.base)) sz
        ((frees bs).getLastD L.base)) y := by
  have hmem : (frees bs).getLastD L.base ∈ L.base :: frees bs := getLastD_mem _ _
  generalize hp : (frees bs).getLastD L.base = p at hmem ⊢
  have hin := h.covers.base_free hmem
  have hbase := h.covers.base_free List.mem_cons_self
  have hnodup := h.covers.ring_nodup
  have hlength := @frees_length bs
  have hstop : PHYSTOP = 234881024 := rfl
  have honly : OnlyAt sz m m' := by
    rw [hm]
    exact onlyAt_setSize
  have hnu : size m' sz = nunits := by
    rw [hm]
    exact size_setSize (by omega)
  have hlast : ptr m p = L.base := by
    rw [← hp]
    exact h.ring.next_last
  have hnext : joinNext m' sz p = setPtr m' sz L.base := by
    have hlast' : ptr m' p = L.base := (honly.ptr (.inl hin.1)).trans hlast
    rw [joinNext, hlast', hnu, if_neg (by omega)]
  rw [hnext]
  have honly₂ : OnlyAt sz m (setPtr m' sz L.base) := honly.trans onlyAt_setPtr
  have hsz₂ : ptr (setPtr m' sz L.base) sz = L.base := ptr_setPtr (by omega)
  have hnu₂ : size (setPtr m' sz L.base) sz = nunits := by rw [size_setPtr, hnu]
  generalize setPtr m' sz L.base = m₂ at honly₂ hsz₂ hnu₂ ⊢
  have hsizep : size m p = size m₂ p := (honly₂.size (.inl hin.1)).symm
  have hstays : ∀ {m₃}, OnlyAt p m₂ m₃ → ∀ x ∈ L.base :: frees bs, x ≠ p → ptr m₃ x = ptr m x := by
    intro m₃ h₃ x hx hne
    have hxin := h.covers.base_free hx
    have hapart := h.covers.ring_apart hx hmem
    rw [h₃.ptr (by omega), honly₂.ptr (.inl hxin.1)]
  by_cases hjoin : p + 16 * size m₂ p = sz
  · -- one large block
    have heq : joinPrev m₂ sz p = setPtr (setSize m₂ p (size m₂ p + nunits)) p L.base := by
      have hptr : ptr (setSize m₂ p (size m₂ p + nunits)) sz = ptr m₂ sz :=
        (onlyAt_setSize (p := p)).ptr (.inr hin.1)
      rw [joinPrev, if_pos hjoin, hnu₂]
      dsimp only
      rw [hptr, hsz₂]
    rw [heq]
    have honly₃ : OnlyAt p m₂ (setPtr (setSize m₂ p (size m₂ p + nunits)) p L.base) :=
      onlyAt_setSize.trans onlyAt_setPtr
    refine ⟨frees bs, ?_, hnodup, by omega, hmem, p, hmem, ?_⟩
    · refine h.ring.setLast hnodup ?_ fun x hx hne => hstays honly₃ x hx (by rwa [← hp])
      rw [hp]
      exact ptr_setPtr (by omega)
    · rw [size_setPtr, size_setSize (by omega)]
      exact Nat.le_add_left _ _
  · -- one more block
    have heq : joinPrev m₂ sz p = setPtr m₂ p sz := by
      rw [joinPrev, if_neg hjoin]
    rw [heq]
    have honly₃ : OnlyAt p m₂ (setPtr m₂ p sz) := onlyAt_setPtr
    have hsz₃ : ptr (setPtr m₂ p sz) sz = L.base := (honly₃.ptr (.inr hin.1)).trans hsz₂
    refine ⟨frees bs ++ [sz], Leads.append_iff.2 ⟨?_, hsz₃⟩, ?_, ?_, ?_, sz, ?_, ?_⟩
    · refine h.ring.setLast hnodup ?_ fun x hx hne => hstays honly₃ x hx (by rwa [← hp])
      rw [hp]
      exact ptr_setPtr (by omega)
    · rw [← List.cons_append]
      refine (List.perm_append_singleton _ _).nodup_iff.2 (List.nodup_cons.2 ⟨fun hx => ?_, hnodup⟩)
      have := h.covers.base_free hx
      omega
    · rw [List.length_append, List.length_singleton]
      omega
    · rw [← List.cons_append]
      exact List.mem_append_left _ hmem
    · simp
    · rw [honly₃.size (.inr hin.1), hnu₂]

/-- `free` of a header that was written behind the memory. -/
theorem free_end (h : Shape L s.brk bs s.mem) (hfreep : s.freep ∈ L.base :: frees bs)
    (hbrk : s.brk ≤ PHYSTOP) (hunits : nunits ≤ 2 ^ 28 + 1) (b : Nat) (sbrks : List Bool) :
    ∃ m' p l, free { s with mem := setSize s.mem s.brk nunits, brk := b, sbrks := sbrks }
        (s.brk + 16) = some { s with mem := m', freep := p, brk := b, sbrks := sbrks } ∧
      p ≠ 0 ∧ l.length ≤ bs.length + 1 ∧ Ring m' p nunits l := by
  have honly : OnlyAt s.brk s.mem (setSize s.mem s.brk nunits) := onlyAt_setSize
  have hptr : ∀ y, y + 16 ≤ s.brk → ptr (setSize s.mem s.brk nunits) y = ptr s.mem y :=
    fun y hy => honly.ptr (.inl hy)
  obtain ⟨l, hl, hperm⟩ := h.ring.rotate hfreep
  have hlen := hperm.length_eq
  have hcount := h.covers.length
  have hle := @frees_length bs
  have hstop : PHYSTOP = 234881024 := rfl
  rw [List.length_cons, List.length_cons] at hlen
  have hmem : (frees bs).getLastD L.base ∈ L.base :: frees bs := getLastD_mem _ _
  have hl' : Leads (ptr (setSize s.mem s.brk nunits)) s.freep l s.freep :=
    hl.congr fun x hx => hptr x (h.covers.base_free (hperm.mem_iff.1 hx)).1
  have hloop : freeLoop (2 ^ 32) (setSize s.mem s.brk nunits) s.brk s.freep =
      some ((frees bs).getLastD L.base) :=
    freeLoop_spec hl' (by omega) (hperm.mem_iff.2 hmem) fun y hy =>
      stops_last h hptr (hperm.mem_iff.1 hy)
  obtain ⟨r, hring, hnodup, hlength, hlast, y, hy, hsize⟩ := ring_end h hbrk hunits rfl
  obtain ⟨l', hrotate, hperm'⟩ := hring.rotate hlast
  have hlen' := hperm'.length_eq
  rw [List.length_cons, List.length_cons] at hlen'
  have hpos : (frees bs).getLastD L.base ≠ 0 := by
    have := (h.covers.base_free hmem).2
    have := L.base_pos
    omega
  refine ⟨_, _, l', ?_, hpos, by omega, hrotate,
    (List.nodup_cons.1 (hperm'.nodup_iff.2 hnodup)).1, y, ?_, hsize⟩
  · rw [free, Nat.add_sub_cancel, hloop]
    rfl
  · have hy' := hperm'.mem_iff.2 hy
    rw [List.mem_append, List.mem_singleton]
    exact (List.mem_cons.1 hy').symm

/-! ## Large requests -/

theorem request_large (h : 2 ^ 27 ≤ nunits) (h' : nunits ≤ 2 ^ 28 + 1) :
    request nunits = nunits * 16 - 2 ^ 32 := by
  have hnu : (if nunits < 4096 then 4096 else nunits) = nunits := if_neg (by omega)
  rw [request, hnu, int]
  omega

theorem deallocuvm_le (oldsz newsz : Nat) : deallocuvm oldsz newsz ≤ oldsz := by
  rw [deallocuvm]
  split <;> omega

/-- A large request leaves the process with hardly more memory, if it leaves it any. -/
theorem growproc_le (hn : n ≤ 16) (hsz : sz ≤ PHYSTOP) {grant : Bool} {b : Nat}
    (h : growproc grant sz n = .resized b) : b ≤ PHYSTOP + 16 := by
  have hstop : PHYSTOP = 234881024 := rfl
  by_cases hpos : 0 < n
  · rw [growproc_of_pos hpos (by omega) hsz] at h
    split at h
    · obtain rfl := Grown.resized.inj h
      omega
    · cases h
  · rw [growproc] at h
    simp only [hpos, if_false] at h
    split at h
    · split at h
      · cases h
      · obtain rfl := Grown.resized.inj h
        have := deallocuvm_le sz ((sz + n) % 2 ^ 32).toNat
        omega
    · obtain rfl := Grown.resized.inj h
      omega

/-- A large request is refused only if it has become one for 16 bytes. -/
theorem growproc_refused_iff (hlow : 2 ^ 27 ≤ nunits) (hhigh : nunits ≤ 2 ^ 28 + 1)
    (hsz : sz ≤ PHYSTOP) (grant : Bool) : growproc grant sz (request nunits) = .refused ↔
      nunits = 2 ^ 28 + 1 ∧ ¬(grant = true ∧ sz + 16 ≤ PHYSTOP) := by
  rw [request_large hlow hhigh]
  by_cases hlast : nunits = 2 ^ 28 + 1
  · have hn : ((nunits * 16 : Int) - 2 ^ 32) = 16 := by omega
    rw [hn, growproc_of_pos (by decide) (by decide) hsz, and_iff_right hlast]
    by_cases hroom : grant = true ∧ (sz : Int) + 16 ≤ PHYSTOP
    · have hroom' : grant = true ∧ sz + 16 ≤ PHYSTOP := ⟨hroom.1, by omega⟩
      rw [if_pos hroom]
      exact iff_of_false (by simp) (not_not.2 hroom')
    · have hroom' : ¬(grant = true ∧ sz + 16 ≤ PHYSTOP) := fun h => hroom ⟨h.1, by omega⟩
      rw [if_neg hroom]
      exact iff_of_true rfl hroom'
  · have hn : ¬0 < ((nunits * 16 : Int) - 2 ^ 32) := by omega
    refine iff_of_false (fun h => ?_) fun h => hlast h.1
    rw [growproc] at h
    simp only [gt_iff_lt, hn, if_false] at h
    split at h
    · split at h <;> cases h
    · cases h

/-- The search of a large request comes back to `freep`. -/
theorem search_large (grants : Nat → Bool) (h : Shape L s.brk bs s.mem)
    (hfreep : s.freep ∈ L.base :: frees bs) (hbrk : s.brk ≤ PHYSTOP) (hlow : 2 ^ 27 ≤ nunits) :
    ∃ fuel, 2 ^ 31 < fuel ∧ mallocLoop grants nunits (2 ^ 32) s s.freep (ptr s.mem s.freep) =
      (morecore grants s nunits).bind fun r =>
        if r.1 = 0 then some (0, r.2)
        else mallocLoop grants nunits fuel r.2 r.1 (ptr r.2.mem r.1) := by
  have hstop : PHYSTOP = 234881024 := rfl
  obtain ⟨l, hl, hperm⟩ := h.ring.rotate hfreep
  have hlen := hperm.length_eq
  have hcount := h.covers.length
  have hle := @frees_length bs
  rw [List.length_cons, List.length_cons] at hlen
  have hnot : s.freep ∉ l := (List.nodup_cons.1 (hperm.nodup_iff.2 h.covers.ring_nodup)).1
  -- no free block is large enough
  have hsmall : ∀ q ∈ L.base :: frees bs, size s.mem q < nunits := by
    intro q hq
    rcases List.mem_cons.1 hq with rfl | hq
    · rw [h.base_size]
      omega
    · obtain ⟨t, ht, -, rfl⟩ := mem_frees.1 hq
      have hin := h.covers.inside ht
      rw [h.sizes t ht]
      omega
  rcases search_spec grants nunits (2 ^ 32) hl hnot (by omega) with
    ⟨-, q, hq, hsize, -⟩ | ⟨-, fuel, hfuel, heq⟩
  · have hmem : q ∈ L.base :: frees bs := by
      refine hperm.mem_iff.1 ?_
      rw [List.mem_append, List.mem_singleton] at hq
      exact List.mem_cons.2 hq.symm
    exact absurd hsize (Nat.not_le_of_lt (hsmall q hmem))
  · exact ⟨fuel, by omega, heq⟩

theorem mallocLoop_refused (grants : Nat → Bool) (h : Shape L s.brk bs s.mem)
    (hfreep : s.freep ∈ L.base :: frees bs) (hbrk : s.brk ≤ PHYSTOP) (hlow : 2 ^ 27 ≤ nunits)
    (hgrow : growproc (grants s.sbrks.length) s.brk (request nunits) = .refused) :
    mallocLoop grants nunits (2 ^ 32) s s.freep (ptr s.mem s.freep) =
      some (0, { s with sbrks := false :: s.sbrks }) := by
  obtain ⟨fuel, -, heq⟩ := search_large grants h hfreep hbrk hlow
  rw [heq, morecore, sbrk, hgrow]
  rfl

theorem take_ne_zero (s : State) (nunits prevp p : Nat) : (take s nunits prevp p).1 ≠ 0 := by
  rw [take]
  split
  · exact Nat.succ_ne_zero _
  · exact Nat.succ_ne_zero _

/-- After a request for which the process got another size, the loop finds the block behind the
memory, if there was a page for its header. -/
theorem mallocLoop_granted (grants : Nat → Bool) (h : Shape L s.brk bs s.mem)
    (hfreep : s.freep ∈ L.base :: frees bs) (hbrk : s.brk ≤ PHYSTOP) (hlow : 2 ^ 27 ≤ nunits)
    (hhigh : nunits ≤ 2 ^ 28 + 1) {b : Nat}
    (hgrow : growproc (grants s.sbrks.length) s.brk (request nunits) = .resized b) {r : Nat × State}
    (hr : mallocLoop grants nunits (2 ^ 32) s s.freep (ptr s.mem s.freep) = some r) :
    r.1 ≠ 0 ∧ r.2.brk = b := by
  have hstop : PHYSTOP = 234881024 := rfl
  have hnu : (if nunits < 4096 then 4096 else nunits) = nunits := if_neg (by omega)
  obtain ⟨fuel, hfuel, heq⟩ := search_large grants h hfreep hbrk hlow
  obtain ⟨m', p, l, hfree, hp, hlen, hring⟩ :=
    free_end h hfreep hbrk hhigh b (true :: s.sbrks)
  have hcount := h.covers.length
  rw [heq, morecore, sbrk, hgrow] at hr
  dsimp only at hr
  rw [Option.bind_some, linkNew] at hr
  by_cases hpage : s.brk + 16 ≤ lastPage b
  · rw [if_pos hpage, hnu, hfree] at hr
    obtain ⟨s', hs', rfl, rfl, rfl⟩ : ∃ s' : State, s' = { s with
        mem := m', freep := p, brk := b, sbrks := true :: s.sbrks } ∧
        s'.mem = m' ∧ s'.freep = p ∧ s'.brk = b := ⟨_, rfl, rfl, rfl, rfl⟩
    rw [← hs'] at hr
    simp only [Option.bind_eq_bind, Option.bind_some, Option.pure_def, hp, if_false] at hr
    rcases search_spec grants nunits fuel hring.leads hring.fresh (by omega)
      with ⟨prevp, q, -, -, hfound⟩ | ⟨hsmall, -⟩
    · rw [hfound] at hr
      obtain rfl := Option.some.inj hr
      exact ⟨take_ne_zero _ _ _ _, take_brk _ _ _ _⟩
    · obtain ⟨y, hy, hsize⟩ := hring.room
      exact absurd hsize (Nat.not_le_of_lt (hsmall y hy))
  · rw [if_neg hpage] at hr
    cases hr

/-- When all pages are gone, the process does not go on. -/
theorem mallocLoop_freed (grants : Nat → Bool) (h : Shape L s.brk bs s.mem)
    (hfreep : s.freep ∈ L.base :: frees bs) (hbrk : s.brk ≤ PHYSTOP) (hlow : 2 ^ 27 ≤ nunits)
    (hgrow : growproc (grants s.sbrks.length) s.brk (request nunits) = .freed) :
    mallocLoop grants nunits (2 ^ 32) s s.freep (ptr s.mem s.freep) = none := by
  obtain ⟨fuel, -, heq⟩ := search_large grants h hfreep hbrk hlow
  rw [heq, morecore, sbrk, hgrow]
  rfl

/-! ## Every request -/

/-- The first call makes the ring of `base`. -/
theorem malloc_eq (grants : Nat → Bool) (h : Unused L s ∨ ∃ bs, Heap L s bs) (nbytes : Nat) :
    ∃ s₁ bs, malloc L grants s nbytes = mallocLoop grants (units nbytes) (2 ^ 32) s₁ s₁.freep
        (ptr s₁.mem s₁.freep) ∧ Shape L s₁.brk bs s₁.mem ∧ s₁.freep ∈ L.base :: frees bs ∧
      s₁.brk = s.brk ∧ s₁.sbrks = s.sbrks := by
  have hbase := L.base_pos
  rcases h with h | ⟨bs, h⟩
  · have hbelow := L.base_below
    have hstart := L.start_lt
    refine ⟨{ s with
      mem := setSize (setPtr s.mem L.base L.base) L.base 0
      freep := L.base }, [], ?_, ⟨h.brk.symm, h.brk ▸ hstart, .nil, nofun,
        size_setSize (by omega), ?_⟩,
      List.mem_cons_self, rfl, rfl⟩
    · rw [malloc, if_pos h.freep]
    · change ptr _ L.base = L.base
      rw [ptr_setSize, ptr_setPtr (by omega)]
  · have hne : s.freep ≠ 0 := by
      have := (h.shape.covers.base_free h.freep).2
      omega
    refine ⟨s, bs, ?_, h.shape, h.freep, rfl, rfl⟩
    rw [malloc, if_neg hne]

theorem malloc_small (grants : Nat → Bool) (h : Unused L s ∨ ∃ bs, Heap L s bs)
    (hbrk : s.brk ≤ PHYSTOP) (hn : nbytes ≤ 2 ^ 31 - 32) :
    ∃ r, malloc L grants s nbytes = some r ∧ Safe L s nbytes r.1 r.2 := by
  obtain ⟨s₁, bs, heq, hshape, hfreep, hbrk₁, -⟩ := malloc_eq grants h nbytes
  rw [← hbrk₁] at hbrk
  obtain ⟨r, hr, hin, hle⟩ := mallocLoop_small grants hshape hfreep hbrk hn
  exact ⟨r, heq.trans hr, hin, hbrk₁ ▸ hle⟩

theorem malloc_refused (grants : Nat → Bool) (h : Unused L s ∨ ∃ bs, Heap L s bs)
    (hbrk : s.brk ≤ PHYSTOP) (hlow : 2 ^ 31 - 32 < nbytes) (hn : nbytes < 2 ^ 32)
    (hgrow : growproc (grants s.sbrks.length) s.brk (request (units nbytes)) = .refused) :
    ∃ r, malloc L grants s nbytes = some r ∧ Safe L s nbytes r.1 r.2 := by
  have hunits := units_eq hn
  obtain ⟨s₁, bs, heq, hshape, hfreep, hbrk₁, hsbrks⟩ := malloc_eq grants h nbytes
  rw [← hsbrks, ← hbrk₁] at hgrow
  rw [← hbrk₁] at hbrk
  exact ⟨_, heq.trans (mallocLoop_refused grants hshape hfreep hbrk (by omega) hgrow), .inl rfl,
    hbrk₁.ge⟩

/-- A large request that `growproc` does not refuse is answered with a block behind the memory, or
not at all. -/
theorem malloc_large (grants : Nat → Bool) (h : Unused L s ∨ ∃ bs, Heap L s bs)
    (hbrk : s.brk ≤ PHYSTOP) (hlow : 2 ^ 31 - 32 < nbytes) (hn : nbytes < 2 ^ 32)
    (hgrow : growproc (grants s.sbrks.length) s.brk (request (units nbytes)) ≠ .refused) :
    ¬∃ r, malloc L grants s nbytes = some r ∧ Safe L s nbytes r.1 r.2 := by
  rintro ⟨r, hr, hsafe⟩
  have hstop : PHYSTOP = 234881024 := rfl
  have hunits := units_eq hn
  have hlow' : 2 ^ 27 ≤ units nbytes := by omega
  have hhigh : units nbytes ≤ 2 ^ 28 + 1 := by omega
  obtain ⟨s₁, bs, heq, hshape, hfreep, hbrk₁, hsbrks⟩ := malloc_eq grants h nbytes
  rw [← hsbrks, ← hbrk₁] at hgrow
  rw [← hbrk₁] at hbrk
  rw [heq] at hr
  cases hgrown : growproc (grants s₁.sbrks.length) s₁.brk (request (units nbytes)) with
  | refused => exact hgrow hgrown
  | freed =>
      rw [mallocLoop_freed grants hshape hfreep hbrk hlow' hgrown] at hr
      cases hr
  | resized b =>
      obtain ⟨hne, hb⟩ := mallocLoop_granted grants hshape hfreep hbrk hlow' hhigh hgrown hr
      have hrequest := request_large hlow' hhigh
      have hle := growproc_le (by omega) hbrk hgrown
      rcases hsafe.1 with hzero | ⟨-, hin⟩
      · exact hne hzero
      · omega

/-- A request is safe if and only if it and its header stay below 2^31 bytes, or it is so large that
it becomes one for 16 bytes and these are not to be had. -/
theorem malloc_safe_iff (L : Layout) (grants : Nat → Bool) (s : State)
    (h : Unused L s ∨ ∃ bs, Heap L s bs) (hbrk : s.brk ≤ PHYSTOP) (nbytes : Nat)
    (hn : nbytes < 2 ^ 32) :
    (∃ r, malloc L grants s nbytes = some r ∧ Safe L s nbytes r.1 r.2) ↔
      nbytes ≤ 2 ^ 31 - 32 ∨ 2 ^ 32 - 16 < nbytes ∧
        ¬(grants s.sbrks.length = true ∧ s.brk + 16 ≤ PHYSTOP) := by
  by_cases hsmall : nbytes ≤ 2 ^ 31 - 32
  · exact iff_of_true (malloc_small grants h hbrk hsmall) (.inl hsmall)
  · have hunits := units_eq hn
    have hlow : 2 ^ 27 ≤ units nbytes := by omega
    have hrefused := growproc_refused_iff hlow (by omega) hbrk (grants s.sbrks.length)
    have hlast : units nbytes = 2 ^ 28 + 1 ↔ 2 ^ 32 - 16 < nbytes := by omega
    rw [or_iff_right hsmall, ← hlast, ← hrefused]
    constructor
    · intro hsafe
      by_contra hgrow
      exact malloc_large grants h hbrk (by omega) hn hgrow hsafe
    · exact malloc_refused grants h hbrk (by omega) hn

/-! ## Runs -/

/-- One call, with the whole way to the memory. -/
def exec (L : Layout) (grants : Nat → Bool) (s : State) : Call → Option State
  | .malloc nbytes => (malloc L grants s nbytes).map fun r =>
      { r.2 with
        ret := r.1
        live := if r.1 = 0 then r.2.live else Function.update r.2.live r.1 (some nbytes) }
  | .free ap => Umalloc.exec L grants s (.free ap)
  | .write ap i v => Umalloc.exec L grants s (.write ap i v)

theorem malloc_umalloc (L : Layout) (grants : Nat → Bool) (hbrk : s.brk ≤ PHYSTOP)
    (hn : nbytes ≤ 2 ^ 31 - 32) :
    malloc L grants s nbytes =
        Umalloc.malloc L (answers grants s (request (units nbytes))) s nbytes ∧
      ∀ r, malloc L grants s nbytes = some r → r.2.brk ≤ PHYSTOP := by
  have hunits := units_eq (show nbytes < 2 ^ 32 by omega)
  have hsmall : units nbytes * 16 < 2 ^ 31 := by omega
  have hloop : ∀ t : State, t.brk = s.brk → t.sbrks = s.sbrks →
      mallocLoop grants (units nbytes) (2 ^ 32) t t.freep (ptr t.mem t.freep) =
          Umalloc.mallocLoop (answers grants s (request (units nbytes))) (units nbytes) (2 ^ 32) t
            t.freep (ptr t.mem t.freep) ∧
        ∀ r, mallocLoop grants (units nbytes) (2 ^ 32) t t.freep (ptr t.mem t.freep) = some r →
          r.2.brk ≤ PHYSTOP := by
    intro t ht hsbrks
    have hlater : Later s t (request (units nbytes)) := by
      refine ⟨hsbrks ▸ Nat.le_refl _, ht ▸ hbrk, ?_⟩
      rw [hsbrks, ht, Nat.sub_self, Int.natCast_zero, Int.mul_zero, Int.add_zero]
    exact ⟨mallocLoop_eq grants _ _ _ hsmall hlater,
      fun r hr => (mallocLoop_brk grants hsmall hlater.2.1 hr).2⟩
  rw [malloc, Umalloc.malloc]
  split
  · exact hloop _ rfl rfl
  · exact hloop _ rfl rfl

theorem exec_fits (grants : Nat → Bool) (h : Unused L s ∨ ∃ bs, Heap L s bs)
    (hbrk : s.brk ≤ PHYSTOP) {call : Call} {s' : State} (hlegal : Legal s call)
    (hexec : exec L grants s call = some s') :
    (Unused L s' ∨ ∃ bs, Heap L s' bs) ∧ s'.brk ≤ PHYSTOP := by
  have hheap : ∀ grants', Umalloc.exec L grants' s call = some s' →
      Unused L s' ∨ ∃ bs, Heap L s' bs := by
    intro grants' hexec'
    obtain ⟨s₁, hs₁, hheap, -⟩ := Heap.call grants' h hlegal
    obtain rfl := Option.some.inj (hexec'.symm.trans hs₁)
    exact hheap
  cases call with
  | malloc nbytes =>
      have hn : nbytes < 2 ^ 31 - 2 ^ 17 := hlegal
      obtain ⟨heq, hmax⟩ :=
        malloc_umalloc L grants hbrk (show nbytes ≤ 2 ^ 31 - 32 by omega)
      rw [exec, Option.map_eq_some_iff] at hexec
      obtain ⟨r, hr, rfl⟩ := hexec
      refine ⟨hheap (answers grants s (request (units nbytes))) ?_, hmax r hr⟩
      rw [Umalloc.exec, ← heq, hr]
      rfl
  | free ap =>
      refine ⟨hheap grants hexec, ?_⟩
      rw [exec, Umalloc.exec, Option.map_eq_some_iff] at hexec
      obtain ⟨t, ht, rfl⟩ := hexec
      exact (free_eq ht).1 ▸ hbrk
  | write ap i v =>
      refine ⟨hheap grants hexec, ?_⟩
      cases hexec
      exact hbrk

/-- After any calls in the memory of a machine, the heap is in order and the process is no larger
than the machine. -/
theorem fits_of_run (m : Mem) (grants : Nat → Bool) (hstart : L.start ≤ PHYSTOP)
    (h : Reaches (exec L grants) Legal (Umalloc.start L m) s) :
    (Unused L s ∨ ∃ bs, Heap L s bs) ∧ s.brk ≤ PHYSTOP :=
  h.inv (I := fun s => (Unused L s ∨ ∃ bs, Heap L s bs) ∧ s.brk ≤ PHYSTOP)
    (fun _ _ _ ht hlegal hexec => exec_fits grants ht.1 ht.2 hlegal hexec)
    ⟨.inl ⟨rfl, rfl, fun _ => rfl⟩, hstart⟩

/-! ## Two requests -/

/-- A heap from 4096 on, with `base` in front of it. -/
def firstPage : Layout := ⟨64, 4096, by decide, by decide, by decide⟩

theorem unused_start (m : Mem) : Unused firstPage (Umalloc.start firstPage m) :=
  ⟨rfl, rfl, fun _ => rfl⟩

/-- A request of 100 bytes is safe. -/
theorem malloc_hundred :
    ∃ r, malloc firstPage (fun _ => true) (Umalloc.start firstPage fun _ => 0) 100 = some r ∧
      Safe firstPage (Umalloc.start firstPage fun _ => 0) 100 r.1 r.2 :=
  (malloc_safe_iff firstPage (fun _ => true) (Umalloc.start firstPage fun _ => 0)
    (.inl (unused_start _)) (by decide) 100 (by decide)).2 (.inl (by decide))

/-- A request of nearly 2^32 bytes: the memory shrinks, and there is no page for the header. -/
theorem malloc_shrinks :
    let s := Umalloc.start firstPage fun _ => 0
    Unused firstPage s ∧ s.brk ≤ PHYSTOP ∧
      ¬ ∃ r, malloc firstPage (fun _ => true) s (2 ^ 32 - 32) = some r ∧
        Safe firstPage s (2 ^ 32 - 32) r.1 r.2 := by
  have hunits : units (2 ^ 32 - 32) = 2 ^ 28 - 1 := (units_eq (by decide)).trans (by decide)
  have hrequest : request (units (2 ^ 32 - 32)) = -16 := by
    rw [hunits, request_large (by decide) (by decide)]
    decide
  have hgrow : growproc true 4096 (-16) ≠ .refused := by decide
  exact ⟨unused_start _, by decide, malloc_large (fun _ => true) (.inl (unused_start fun _ => 0))
    (by decide) (by decide) (by decide) (hrequest ▸ hgrow)⟩

end Xv6.Ulib.MallocSizes
