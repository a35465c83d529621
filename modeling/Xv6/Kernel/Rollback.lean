import Xv6.Kernel.Image

/-!
# A growth that fails

`allocuvm` of `kernel/vm.c` takes back what it has mapped when the free list runs out.  Two things
go wrong on the way.

* The result of `mappages` is not looked at.  If the last free page has gone into the data page at
  the start of a page table that is not there, then nothing leads to that page any more.
* A size beyond the 510 page tables makes `deallocuvm` take the first back pointer for one.

`rolledBack_iff`: otherwise everything is as before.
-/

namespace Xv6.Kernel.Vm

open Xv6.Verified
open Exec

section Rollback

variable {s s' : State} {A A' : Space} {rest : Nat → Prop} {p v n oldsz newsz limit : Nat}

/-! ## How many pages are taken -/

/-- The pages that `allocLoop` takes for `u` pages from `v` on, with their page tables. -/
def need (A : Space) : Nat → Nat → Nat
  | _, 0 => 0
  | v, u + 1 => 1 + (if v % 512 = 0 ∧ A.table (v / 512) = 0 then 1 else 0) + need A (v + 1) u

/-- The free list, of `free` pages, ends with a page for which there is no page table, and more
pages are to come. -/
def Strands (A : Space) (v n free : Nat) : Prop :=
  ∃ u, u + 1 < n ∧ (v + u) % 512 = 0 ∧ A.table ((v + u) / 512) = 0 ∧ free = need A v u + 1

theorem need_congr (A A' : Space) (v : Nat) (h : ∀ i, v / 512 < i → A'.table i = A.table i)
    (u : Nat) :
    ∀ w, v < w → need A' w u = need A w u := by
  induction u with
  | zero => exact fun _ _ => rfl
  | succ u ih =>
      intro w hw
      rw [need, need, ih (w + 1) (by omega)]
      by_cases hmod : w % 512 = 0
      · rw [h (w / 512) (by omega)]
      · simp only [hmod, false_and]

/-- One page further, with the page at `v` and its page table taken. -/
theorem strands_next {free : Nat} (h : ∀ i, i ≠ v / 512 → A'.table i = A.table i) :
    Strands A v (n + 1) (free + 1 + if v % 512 = 0 ∧ A.table (v / 512) = 0 then 1 else 0) ↔
      Strands A' (v + 1) n free := by
  have hneed := fun u => need_congr A A' v (fun i hi => h i (by omega)) u (v + 1) (by omega)
  have htable : ∀ u, (v + 1 + u) % 512 = 0 →
      A'.table ((v + 1 + u) / 512) = A.table ((v + (u + 1)) / 512) := by
    intro u hmod
    rw [show v + (u + 1) = v + 1 + u by omega]
    exact h _ (by omega)
  constructor
  · rintro ⟨u, hu, hmod, ht, hfree⟩
    cases u with
    | zero =>
        rw [need, if_pos ⟨hmod, ht⟩] at hfree
        omega
    | succ u =>
        have hmod' : (v + 1 + u) % 512 = 0 := by omega
        rw [need] at hfree
        exact ⟨u, by omega, hmod', (htable u hmod').trans ht, by rw [hneed]; omega⟩
  · rintro ⟨u, hu, hmod, ht, hfree⟩
    refine ⟨u + 1, by omega, by omega, (htable u hmod).symm.trans ht, ?_⟩
    rw [need, ← hneed]
    omega

/-! ## The free list -/

/-- What happens to the free list when a page table is wanted for `v`. -/
structure Counted (A : Space) (v : Nat) (s : State) (found : Bool) (s' : State) : Prop where
  lost : s'.lost = s.lost
  here : A.table (v / 512) ≠ 0 → found = true ∧ s'.free = s.free
  made : A.table (v / 512) = 0 → (s.free = [] → found = false ∧ s'.free = []) ∧
    ∀ q qs, s.free = q :: qs → found = true ∧ s'.free = qs

theorem walkpgdir_counted (h : Owns s A rest) (hd : s.denials = []) (hv : v < VPAGES) :
    wp (walkpgdir A.dir v true) (fun r s' => Counted A v s r.isSome s') (fun _ _ => True) s := by
  obtain ⟨hpresent, -⟩ := h.pde hv
  unfold walkpgdir
  rw [wp_bind]
  refine wp_load (h.linear .dir) ?_
  rw [wp_ite]
  refine ⟨fun hp => ?_, fun hp => ?_⟩
  · rw [wp_pure]
    exact ⟨rfl, fun _ => ⟨rfl, rfl⟩, fun ht => absurd ht (hpresent.1 hp)⟩
  · have ht : ¬A.table (v / 512) ≠ 0 := fun ht => hp (hpresent.2 ht)
    rw [wp_ite]
    refine ⟨fun _ => ?_, fun hfalse => absurd rfl hfalse⟩
    rw [wp_bind]
    refine wp_kalloc fun p s₁ hs₁ => ?_
    have hlost : s₁.lost = s.lost := by rw [hs₁.same]
    cases p with
    | none =>
        dsimp only
        rw [wp_pure]
        have hfree : s₁.free = s.free := hs₁.free.symm
        have hempty : s.free = [] := (hs₁.isNone rfl).resolve_right (by rw [hd]; nofun)
        refine ⟨hlost, fun hne => absurd hne ht, fun _ => ⟨fun _ => ⟨rfl, hfree.trans hempty⟩, ?_⟩⟩
        intro q qs heq
        rw [hempty] at heq
        cases heq
    | some p =>
        have hfree : s.free = p :: s₁.free := hs₁.free
        dsimp only
        unfold fill
        rw [wp_bind, wp_modify, wp_bind]
        refine wp_store (h.linear .dir) ?_
        rw [wp_pure]
        refine ⟨hlost, fun hne => absurd hne ht, fun _ => ⟨fun heq => ?_, fun q qs heq => ?_⟩⟩
        · rw [hfree] at heq
          cases heq
        · rw [hfree] at heq
          cases heq
          exact ⟨rfl, rfl⟩

theorem mappages_counted (h : Owns s A rest) (hd : s.denials = []) (hv : v < VPAGES) (perm : Nat) :
    wp (mappages A.dir (v * PGSIZE) PGSIZE p perm) (fun r s' => Counted A v s r s')
      (fun _ _ => True) s := by
  rw [mappages_page, mappagesLoop, wp_bind]
  refine wp_imp (walkpgdir_counted h hd hv) fun r s₁ hs₁ => ?_
  cases r with
  | none =>
      rw [wp_pure]
      exact hs₁
  | some tk =>
      dsimp only
      unfold load
      rw [wp_bind, wp_ite]
      refine ⟨fun _ => (wp_stop _).2 trivial, fun _ => ?_⟩
      rw [wp_bind, wp_get, wp_pure, wp_ite]
      refine ⟨fun _ => (wp_stop _).2 trivial, fun _ => ?_⟩
      unfold store
      rw [wp_bind, wp_ite]
      refine ⟨fun _ => (wp_stop _).2 trivial, fun _ => ?_⟩
      rw [wp_modify, mappagesLoop, wp_pure]
      exact ⟨hs₁.lost, hs₁.here, hs₁.made⟩

/-- With nothing left, there is no page more. -/
theorem allocLoop_empty (pgdir v : Nat) (hfree : s.free = []) :
    wp (allocLoop pgdir n v) (fun done s' => (done = true ↔ n = 0) ∧ s'.lost = s.lost)
      (fun _ _ => False) s := by
  cases n with
  | zero =>
      rw [allocLoop, wp_pure]
      exact ⟨by simp, rfl⟩
  | succ n =>
      rw [allocLoop, wp_bind]
      refine wp_kalloc fun p s₁ hs₁ => ?_
      cases p with
      | none =>
          dsimp only
          rw [wp_pure]
          exact ⟨by simp, by rw [hs₁.same]⟩
      | some p =>
          have hcons : s.free = p :: s₁.free := hs₁.free
          rw [hfree] at hcons
          cases hcons

/-- The page at `v` has not got its page table. -/
theorem strands_last (ht : A.table (v / 512) = 0) (hmod : v % 512 = 0) :
    Strands A v (n + 1) 1 ↔ n ≠ 0 := by
  constructor
  · rintro ⟨u, hu, -, -, hfree⟩
    cases u with
    | zero => omega
    | succ u =>
        rw [need] at hfree
        omega
  · exact fun hn => ⟨0, by omega, hmod, ht, rfl⟩

/-- `allocLoop` loses a page exactly when the free list strands it; and it gets no more pages than
there are. -/
theorem allocLoop_strands (n : Nat) : ∀ {s : State} {A : Space} {v : Nat}, Owns s A rest →
    (∀ u, v ≤ u → u < v + n → A.leaf u = 0) → v + min n s.free.length ≤ VPAGES → s.denials = [] →
    (A.table (v / 512) ≠ 0 ∨ v % 512 = 0) →
    wp (allocLoop A.dir n v)
      (fun done s' => (done = true → n ≤ s.free.length) ∧
        (Strands A v n s.free.length → done = false ∧ ∃ p ∈ s.free, p ∈ s'.lost) ∧
        (¬Strands A v n s.free.length → done = false → s'.lost = s.lost))
      (fun _ _ => False) s := by
  induction n with
  | zero =>
      intro s A v _ _ _ _ _
      rw [allocLoop, wp_pure]
      refine ⟨fun _ => Nat.zero_le _, ?_, by simp⟩
      rintro ⟨u, hu, -⟩
      omega
  | succ n ih =>
      intro s A v h hnone hroom hd hstart
      rw [allocLoop, wp_bind]
      have hkalloc : wp kalloc (fun r s' => ∀ p, r = some p → Got A rest s p s')
          (fun _ _ => False) s := by
        refine kalloc_spec h (by simp) ?_
        rintro p s' hs' _ ⟨⟩
        exact hs'
      have hhanded : wp kalloc (fun r s' => Handed s r s') (fun _ _ => False) s :=
        wp_kalloc fun _ _ hs' => hs'
      refine wp_mono (wp_and hkalloc hhanded) ?_ fun _ _ hE => hE.1
      rintro r s₁ ⟨hgot, hhanded⟩
      cases r with
      | none =>
          dsimp only
          rw [wp_pure]
          have hempty : s.free = [] := (hhanded.isNone rfl).resolve_right (by rw [hd]; simp)
          refine ⟨by simp, ?_, fun _ _ => by rw [hhanded.same]⟩
          rintro ⟨u, -, -, -, hfree⟩
          rw [hempty, List.length_nil] at hfree
          omega
      | some p =>
          have hs₁ := hgot p rfl
          have hs₂ := hs₁.toInHand.fill fun _ => 0
          have hlen : s.free.length = s₁.free.length + 1 := by rw [hs₁.free, List.length_cons]
          have hlost₁ : s₁.lost = s.lost := by rw [hhanded.same]
          have hv : v < VPAGES := by omega
          have hd₁ : s₁.denials = [] := hs₁.grows.noDenials hd
          dsimp only
          rw [wp_bind]
          unfold fill
          rw [wp_modify, wp_bind]
          generalize hfill : ({ s₁ with mem := Function.update s₁.mem p fun _ => 0 } : State) = s₂
            at hs₂
          have hfree₂ : s₂.free = s₁.free := by rw [← hfill]
          have hlost₂ : s₂.lost = s.lost := by rw [← hfill, hlost₁]
          have hd₂ : s₂.denials = [] := by rw [← hfill, hd₁]
          have hmap : wp (mappages A.dir (v * PGSIZE) PGSIZE p (PTE_W ||| PTE_U))
              (fun r s' => (r = true → ∃ A', Mapped A rest v p 7 s₂ A' s') ∧
                s'.denials = []) (fun _ _ => False) s₂ := by
            refine mappages_spec hs₂.owns hs₂.taken hv (hnone v (by omega) (by omega)) (by decide)
              (fun s' hs' => ⟨by simp, hs'.grows.noDenials hd₂⟩) fun A' s' hs' => ?_
            exact ⟨fun _ => ⟨A', hs'⟩, hs'.grows.noDenials hd₂⟩
          refine wp_mono (wp_and hmap (mappages_counted hs₂.owns hd₂ hv _)) ?_ fun _ _ hE => hE.1
          rintro found s₃ ⟨⟨hmapped, hd₃⟩, hcount⟩
          rw [wp_ite]
          refine ⟨fun hfound => ?_, fun hfound => ?_⟩
          · obtain ⟨A₃, hs₃⟩ := hmapped hfound
            have hlen₃ : s.free.length = s₃.free.length + 1 +
                if v % 512 = 0 ∧ A.table (v / 512) = 0 then 1 else 0 := by
              by_cases ht : A.table (v / 512) = 0
              · rw [if_pos ⟨hstart.resolve_left (fun hne => hne ht), ht⟩, hlen, ← hfree₂]
                obtain ⟨hempty, hcons⟩ := hcount.made ht
                cases hfree : s₂.free with
                | nil =>
                    rw [(hempty hfree).1] at hfound
                    cases hfound
                | cons q qs =>
                    rw [(hcons q qs hfree).2, List.length_cons]
              · rw [if_neg fun hno => ht hno.2, (hcount.here ht).2, hfree₂, hlen]
            have hother : ∀ u, u ≠ v → A₃.leaf u = A.leaf u := by
              intro u hu
              rw [hs₃.leaf, Function.update_of_ne hu]
            have htable : A₃.table (v / 512) ≠ 0 := by
              refine (hs₃.owns.maps.leaf v ?_).1
              rw [hs₃.leaf, Function.update_self]
              exact hs₂.ne_zero
            have hsuffix : ∀ q ∈ s₃.free, q ∈ s.free := by
              intro q hq
              rw [hs₁.free, ← hfree₂]
              exact List.mem_cons_of_mem _ (hs₃.grows.free.subset hq)
            rw [← hs₃.grows.dir]
            refine wp_imp (ih hs₃.owns (fun u hle hlt => ?_) ?_ hd₃ ?_) ?_
            · rw [hother u (by omega)]
              exact hnone u (by omega) (by omega)
            · split at hlen₃ <;> omega
            · by_cases hmod : (v + 1) % 512 = 0
              · exact .inr hmod
              · rw [show (v + 1) / 512 = v / 512 by omega]
                exact .inl htable
            · rintro done s' ⟨hdone, hyes, hno⟩
              rw [hlen₃, strands_next hs₃.table]
              refine ⟨fun hd => ?_, fun hstrands => ?_, fun hstrands hd => ?_⟩
              · have := hdone hd
                omega
              · obtain ⟨hd, q, hq, hlost⟩ := hyes hstrands
                exact ⟨hd, q, hsuffix q hq, hlost⟩
              · rw [hno hstrands hd, hcount.lost, hlost₂]
          · -- no page table, and the page is lost
            have ht : A.table (v / 512) = 0 := by
              by_contra ht
              exact hfound (hcount.here ht).1
            have hmod := hstart.resolve_left fun hne => hne ht
            have hempty : s₂.free = [] := by
              cases hfree : s₂.free with
              | nil => rfl
              | cons q qs => exact absurd ((hcount.made ht).2 q qs hfree).1 hfound
            have hone : s.free.length = 1 := by rw [hlen, ← hfree₂, hempty, List.length_nil]
            unfold lose
            rw [wp_bind, wp_modify, wp_bind, wp_modify]
            refine wp_imp (allocLoop_empty A.dir (v + 1) ((hcount.made ht).1 hempty).2) ?_
            rintro done s' ⟨hdone, hlost⟩
            rw [hone, strands_last ht hmod]
            have hp : p ∈ s'.lost := by
              rw [hlost]
              exact List.mem_cons_self
            refine ⟨fun hd => by rw [hdone.1 hd], fun hn => ⟨?_, p, by simp [hs₁.free], hp⟩, ?_⟩
            · simpa using fun hd => hn (hdone.1 hd)
            · intro hn hd
              rw [hdone.2 (not_not.1 hn)] at hd
              cases hd

/-! ## The way back -/

/-- Behind the page tables, `deallocuvm` follows a back pointer. -/
theorem deallocLoop_wild (fuel : Nat) : ∀ {s : State} {A : Space} {v : Nat}, Owns s A rest →
    v ≤ VPAGES → VPAGES < limit → limit ≤ v + fuel → A.pdpt ≠ 0 →
    (A.table (v / 512) ≠ 0 ∨ v % 512 = 0) →
    wp (deallocLoop A.dir fuel v limit) (fun _ _ => False) (fun e _ => e = .fault) s := by
  induction fuel with
  | zero =>
      intro s A v _ hv hlimit hfuel
      omega
  | succ fuel ih =>
      intro s A v h hv hlimit hfuel hpdpt hstart
      rw [deallocLoop, wp_ite]
      refine ⟨fun hle => by omega, fun _ => ?_⟩
      rw [wp_bind]
      by_cases hin : v < VPAGES
      · refine walkpgdir_lookup h hin (fun ht => ?_) fun ht => ?_
        · have hmod := hstart.resolve_left fun hne => hne ht
          have h512 : NPTENTRIES = 512 := rfl
          dsimp only
          refine ih h ?_ hlimit (by omega) hpdpt (.inr (by omega))
          simp only [VPAGES] at hin ⊢
          omega
        · obtain ⟨hpresent, haddr⟩ := h.pte ht
          have hnext : A.table ((v + 1) / 512) ≠ 0 ∨ (v + 1) % 512 = 0 := by
            by_cases hmod : (v + 1) % 512 = 0
            · exact .inr hmod
            · have hdiv : (v + 1) / 512 = v / 512 := by omega
              rw [hdiv]
              exact .inl ht
          dsimp only
          rw [wp_bind]
          refine wp_load (h.linear (.table _)) ?_
          rw [wp_ite]
          refine ⟨fun hp => ?_, fun _ => ih h hin hlimit (by omega) hpdpt hnext⟩
          have hl := hpresent.1 hp
          rw [(haddr hl).1, wp_ite]
          refine ⟨fun h0 => absurd h0 hl, fun _ => ?_⟩
          rw [wp_bind]
          refine wp_kfree (h.managed (.leaf v) hl) ?_
          rw [wp_bind]
          refine wp_store (h.linear (.table _)) ?_
          exact ih (A := A.setLeaf v 0 0) (h.clearLeaf hl _) hin hlimit (by omega) hpdpt hnext
      · refine walkpgdir_wild h (.inl ⟨by simp only [VPAGES] at hv hin; omega, hpdpt⟩)
          fun t k ht => ?_
        dsimp only
        unfold load
        rw [wp_bind, wp_ite]
        exact ⟨fun _ => (wp_stop _).2 rfl, fun hnot => absurd ht hnot⟩

/-! ## `allocuvm` -/

/-- What both results need: there is not so much memory. -/
theorem Covers.room (hc : Covers A (pgup oldsz)) (h : Owns s A rest) (n : Nat) :
    pgup oldsz + min n s.free.length ≤ VPAGES := by
  have h1 := hc.small h
  have h2 := h.pool.length_le
  simp only [NPAGES, VPAGES] at *
  omega

theorem Covers.blank (hc : Covers A (pgup oldsz)) (n : Nat) :
    ∀ u, pgup oldsz ≤ u → u < pgup oldsz + n → A.leaf u = 0 := by
  intro u hu _
  by_contra hl
  exact absurd ((hc u).1 hl) (by omega)

theorem allocuvm_strands (h : Owns s A rest) (hc : Covers A (pgup oldsz)) (hpdpt : A.pdpt ≠ 0)
    (hd : s.denials = []) :
    wp (allocuvm A.dir oldsz newsz)
      (fun r s' =>
        (Strands A (pgup oldsz) (pgup newsz - pgup oldsz) s.free.length →
          r = 0 ∧ ∃ p ∈ s.free, p ∈ s'.lost) ∧
        (¬Strands A (pgup oldsz) (pgup newsz - pgup oldsz) s.free.length → r = 0 →
          s'.lost = s.lost))
      (fun _ _ => True) s := by
  unfold allocuvm
  rw [wp_ite]
  refine ⟨fun hlt => ?_, fun hle => ?_⟩
  · have hpg := pgup_mono (Nat.le_of_lt hlt)
    rw [wp_pure]
    refine ⟨?_, fun _ h0 => by omega⟩
    rintro ⟨u, hu, -⟩
    omega
  · by_cases hzero : newsz = 0
    · -- nothing to do; the new size is 0
      obtain rfl : oldsz = 0 := by omega
      rw [hzero, wp_bind, Nat.sub_self, allocLoop, wp_pure, wp_ite]
      refine ⟨fun _ => ?_, fun hfalse => absurd rfl hfalse⟩
      rw [wp_pure]
      refine ⟨?_, fun _ _ => rfl⟩
      rintro ⟨u, hu, -⟩
      omega
    rw [wp_bind]
    refine wp_mono (wp_and (allocLoop_spec _ h (hc.blank _) (hc.room h _))
      (allocLoop_strands _ h (hc.blank _) (hc.room h _) hd (h.start hc))) ?_ fun _ _ _ => trivial
    rintro done s₁ ⟨⟨A₁, h₁⟩, hdone, hyes, hno⟩
    rw [wp_ite]
    refine ⟨fun htrue => ?_, fun hfalse => ?_⟩
    · rw [wp_pure]
      refine ⟨fun hstrands => ?_, fun _ h0 => ?_⟩
      · rw [(hyes hstrands).1] at htrue
        cases htrue
      · exact absurd h0 hzero
    · have hfalse : done = false := by simpa using hfalse
      obtain ⟨hsome, -⟩ := h₁.short hfalse
      have hlt : oldsz < newsz := by
        by_contra hnot
        rw [show newsz = oldsz by omega] at hsome
        omega
      have hsmall := hc.small h
      rw [wp_bind, ← h₁.grows.dir]
      refine wp_mono (deallocuvm_spec h₁.owns hlt (by simp only [NPAGES, VPAGES] at *; omega)
        fun _ => by rw [h₁.grows.pdpt]; exact hpdpt) ?_ fun _ _ _ => trivial
      rintro _ s₂ ⟨-, A₂, h₂⟩
      rw [wp_pure, h₂.sameLost]
      exact ⟨fun hstrands => ⟨rfl, (hyes hstrands).2⟩, fun hstrands _ => hno hstrands hfalse⟩

/-- A size that the page tables cannot map. -/
theorem allocuvm_wild (h : Owns s A rest) (hc : Covers A (pgup oldsz)) (hpdpt : A.pdpt ≠ 0)
    (hd : s.denials = []) (hlarge : VPAGES < pgup newsz) :
    wp (allocuvm A.dir oldsz newsz) (fun _ _ => False) (fun e _ => e = .fault) s := by
  have hsmall := hc.small h
  have hfree := h.pool.length_le
  unfold allocuvm
  rw [wp_ite]
  refine ⟨fun hlt => ?_, fun hle => ?_⟩
  · have hpg := pgup_mono (Nat.le_of_lt hlt)
    simp only [NPAGES, VPAGES] at *
    omega
  · rw [wp_bind]
    refine wp_mono (wp_and (allocLoop_spec _ h (hc.blank _) (hc.room h _))
      (allocLoop_strands _ h (hc.blank _) (hc.room h _) hd (h.start hc))) ?_
      fun _ _ hE => hE.1.elim
    rintro done s₁ ⟨⟨A₁, h₁⟩, hdone, -⟩
    rw [wp_ite]
    refine ⟨fun htrue => ?_, fun hfalse => ?_⟩
    · have := hdone htrue
      simp only [NPAGES, VPAGES] at *
      omega
    · rw [wp_bind, ← h₁.grows.dir]
      unfold deallocuvm
      rw [wp_ite]
      refine ⟨fun hle' => ?_, fun _ => ?_⟩
      · have := (h₁.short (by simpa using hfalse)).1
        rw [show newsz = oldsz by omega] at this
        omega
      · rw [wp_bind]
        refine wp_mono (deallocLoop_wild _ h₁.owns
          (by simp only [NPAGES, VPAGES] at *; omega) hlarge
          (by omega) (by rw [h₁.grows.pdpt]; exact hpdpt) ?_) (fun _ _ hno => hno.elim)
          fun _ _ he => he
        rcases h.start hc with ht | ht
        · exact .inl (by rw [h₁.grows.table _ ht]; exact ht)
        · exact .inr ht

/-- A growth that fails leaves the mappings as they were, gives all data pages back, and stops
nowhere. -/
def RolledBack (pgdir oldsz newsz : Nat) (s : State) : Prop :=
  wp (allocuvm pgdir oldsz newsz)
    (fun r s' => r = 0 →
      (∀ v < pgup oldsz, lookup s'.mem pgdir v = lookup s.mem pgdir v) ∧
      (∀ v, pgup oldsz ≤ v → lookup s'.mem pgdir v = none) ∧
      ∀ x ∈ s.free, x ∈ s'.free ∨ ∃ i < 510, s'.mem pgdir i = x * PGSIZE + 7)
    (fun _ _ => False) s

theorem rolledBack_of (h : Owns s A rest) (hc : Covers A (pgup oldsz)) (hpdpt : A.pdpt ≠ 0)
    (hd : s.denials = []) (hsize : pgup newsz ≤ VPAGES)
    (hstrands : ¬Strands A (pgup oldsz) (pgup newsz - pgup oldsz) s.free.length) :
    RolledBack A.dir oldsz newsz s := by
  refine wp_mono (wp_and (allocuvm_covers h hc hpdpt) (allocuvm_strands h hc hpdpt hd)) ?_
    fun _ _ hE => absurd hE.1.2.1 (Nat.not_lt.2 hsize)
  rintro r s' ⟨⟨A', h'⟩, -, hlost⟩ hr
  have hlost := hlost hstrands hr
  have hc' := h'.restored hc hr
  have hlookup : ∀ v, lookup s'.mem A.dir v =
      if A'.leaf v = 0 then none else some (A'.leaf v, A'.flags v) := by
    intro v
    rw [← h'.dir]
    exact h'.owns.maps.lookup v
  refine ⟨fun v hv => ?_, fun v hv => ?_, fun x hx => ?_⟩
  · rw [hlookup, h.maps.lookup, (h'.keeps v hv).1, (h'.keeps v hv).2]
  · rw [hlookup, if_pos]
    by_contra hl
    exact absurd ((hc' v).1 hl) (by omega)
  · obtain ⟨hx₁, hx₂, hx₃⟩ := h.pool.free x hx
    have hx0 : x ≠ 0 := h.pool.ne_zero hx₃
    have hnot : ∀ r, A.page r ≠ x := by
      rintro r rfl
      exact (h.excl.held r hx0).1 hx
    rcases (h'.conserves x hx0).2 (.inl hx) with hfree | hin | ⟨r, hr'⟩ | hrest
    · exact .inl hfree
    · rw [hlost] at hin
      exact absurd hin hx₁
    · cases r with
      | dir => exact absurd (h'.dir.symm.trans hr') (hnot .dir)
      | pml4 => exact absurd (h'.pml4.symm.trans hr') (hnot .pml4)
      | pdpt => exact absurd (h'.pdpt.symm.trans hr') (hnot .pdpt)
      | table i =>
          have ht : A'.table i ≠ 0 := fun h0 => hx0 (hr'.symm.trans h0)
          obtain ⟨hi, hentry⟩ := h'.owns.maps.table i ht
          refine .inr ⟨i, hi, ?_⟩
          rw [← h'.dir, hentry, show A'.table i = x from hr']
      | leaf v =>
          have hl : A'.leaf v ≠ 0 := fun h0 => hx0 (hr'.symm.trans h0)
          have hkeep := (h'.keeps v ((hc' v).1 hl)).1
          exact absurd (hkeep.symm.trans hr') (hnot (.leaf v))
    · exact absurd hrest hx₂

theorem rolledBack_iff (h : Owns s A rest) (hc : Covers A (pgup oldsz)) (hpdpt : A.pdpt ≠ 0)
    (hd : s.denials = []) :
    RolledBack A.dir oldsz newsz s ↔ pgup newsz ≤ VPAGES ∧
      ¬Strands A (pgup oldsz) (pgup newsz - pgup oldsz) s.free.length := by
  refine ⟨fun hback => ?_, fun hcond => rolledBack_of h hc hpdpt hd hcond.1 hcond.2⟩
  have hsize : pgup newsz ≤ VPAGES := by
    by_contra hlarge
    have hwild := wp_and hback (allocuvm_wild h hc hpdpt hd (Nat.not_le.1 hlarge))
    cases hrun : (allocuvm A.dir oldsz newsz).run s with
    | ok r s' => exact (ok_of_wp hwild hrun).2
    | fail e s' => exact (fail_of_wp hwild hrun).1
  refine ⟨hsize, fun hstrands => ?_⟩
  have hall := wp_and hback (wp_and (allocuvm_covers h hc hpdpt) (allocuvm_strands h hc hpdpt hd))
  cases hrun : (allocuvm A.dir oldsz newsz).run s with
  | fail e s' => exact (fail_of_wp hall hrun).1
  | ok r s' =>
      obtain ⟨hpost, ⟨A', h'⟩, hyes, -⟩ := ok_of_wp hall hrun
      obtain ⟨hr, p, hp, hlost⟩ := hyes hstrands
      have hp0 : p ≠ 0 := h.pool.ne_zero (h.pool.free p hp).2.2
      rcases (hpost hr).2.2 p hp with hfree | ⟨i, hi, hentry⟩
      · exact (h'.owns.pool.free p hfree).1 hlost
      · -- a page table is not lost
        rw [← h'.dir] at hentry
        have ht : A'.table i ≠ 0 := by
          intro ht
          refine h'.owns.maps.noTable i hi ht ?_
          rw [hentry]
          exact present_table
        have heq := (h'.owns.maps.table i ht).2
        rw [hentry] at heq
        have hpage : A'.page (.table i) = p := by
          show A'.table i = p
          simp only [PGSIZE] at heq
          omega
        exact (h'.owns.excl.held (.table i) ht).2.1 (hpage ▸ hlost)

end Rollback

/-- The process with one page grows by another, which is in reach of its page table. -/
theorem rolledBack_onePage : RolledBack 10 4096 8192 (onePageState []) := by
  have hc : Covers onePage (pgup 4096) := by
    intro v
    rw [show pgup 4096 = 1 by decide]
    show (if v = 0 then 14 else 0) ≠ 0 ↔ v < 1
    split <;> omega
  refine (rolledBack_iff (owns_onePage .nil nofun) hc (by decide) rfl).2 ⟨by decide, ?_⟩
  rintro ⟨u, hu, -⟩
  rw [show pgup 8192 - pgup 4096 = 1 by decide] at hu
  omega

/-- `setupkvm` has built a directory in page 22, and page 23 is left. -/
def newDirectory : State :=
  match setupkvm.run
    { mem := fun _ _ => 0, free := [20, 21, 22, 23], denials := [], cr3 := 5, kend := 10,
      kpdpt := 5,
      lost := [], missed := false, refused := false } with
  | .ok _ s => s
  | .fail _ s => s

/-- It cannot grow to two pages, and page 23 is lost. -/
theorem page_lost : ¬RolledBack 22 0 8192 newDirectory := by
  have hcheck : (match (allocuvm 22 0 8192).run newDirectory with
      | .ok r s' => decide (r = 0 ∧ 23 ∉ s'.free ∧
          ∀ i ∈ List.range 510, s'.mem 22 i ≠ 23 * PGSIZE + 7)
      | .fail _ _ => false) = true := by decide +kernel
  intro hback
  cases hrun : (allocuvm 22 0 8192).run newDirectory with
  | fail e s' => exact fail_of_wp hback hrun
  | ok r s' =>
      rw [hrun] at hcheck
      obtain ⟨hr, hfree, htable⟩ := of_decide_eq_true hcheck
      rcases (ok_of_wp hback hrun hr).2.2 23 (by decide +kernel) with hin | ⟨i, hi, hentry⟩
      · exact hfree hin
      · exact htable i (List.mem_range.2 hi) hentry

end Xv6.Kernel.Vm
