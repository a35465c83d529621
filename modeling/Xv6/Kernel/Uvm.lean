import Mathlib.Data.Fintype.Card
import Xv6.Kernel.Ghosts
import Xv6.Kernel.Paging

/-!
# Growing, shrinking, freeing and copying address spaces

What `allocuvm`, `deallocuvm`, `freevm`, `setupkvm` and `copyuvm` do to an address space,
whether or not the allocator has pages for them.

* `Covers`: the space has exactly the pages of the first `n` virtual pages.
-/

namespace Xv6.Kernel.Vm

open Xv6.Verified
open Xv6.Verified.Ownership
open Exec

/-- The space has pages at exactly the first `n` virtual pages. -/
def Covers (A : Space) (n : Nat) : Prop := ∀ v, A.leaf v ≠ 0 ↔ v < n

/-- The space has no page at `n` or behind. -/
def Below (A : Space) (n : Nat) : Prop := ∀ v, A.leaf v ≠ 0 → v < n

theorem Covers.below {A : Space} {n : Nat} (h : Covers A n) : Below A n := fun v => (h v).1

section Resize

variable {s s' s'' : State} {A A' A'' : Space} {rest : Nat → Prop} {p v n oldsz newsz : Nat}

/-- The end of a space that covers its pages is in a page table that is there, or starts a
new one. -/
theorem Owns.start (h : Owns s A rest) (hc : Covers A n) :
    A.table (n / 512) ≠ 0 ∨ n % 512 = 0 := by
  by_cases hmod : n % 512 = 0
  · exact .inr hmod
  · have hlast := (h.maps.leaf (n - 1) ((hc (n - 1)).2 (by omega))).1
    have hdiv : (n - 1) / 512 = n / 512 := by omega
    exact .inl (hdiv ▸ hlast)

theorem pgup_mono {a b : Nat} (h : a ≤ b) : pgup a ≤ pgup b :=
  Nat.div_le_div_right (by omega)

theorem deallocuvm_spec (h : Owns s A rest) (hlt : newsz < oldsz) (hv : pgup newsz < VPAGES + 512)
    (hpdpt : VPAGES < pgup oldsz → A.pdpt ≠ 0) :
    wp (deallocuvm A.dir oldsz newsz)
      (fun r s' => r = newsz ∧ ∃ A', Freed rest A (pgup newsz) (pgup oldsz) s A' s')
      (fun e _ => e = .fault ∧ VPAGES < pgup oldsz) s := by
  unfold deallocuvm
  rw [wp_ite]
  refine ⟨fun hle => absurd hlt (Nat.not_lt.2 hle), fun _ => ?_⟩
  rw [wp_bind]
  refine wp_imp (deallocLoop_spec _ h hv (by omega) hpdpt) fun _ s' hs' => ?_
  rw [wp_pure]
  exact ⟨rfl, hs'⟩

/-- A space has been resized by `allocuvm`, which returned `r`. -/
structure Resized (rest : Nat → Prop) (A : Space) (oldsz newsz : Nat) (s : State) (r : Nat)
    (A' : Space) (s' : State) : Prop extends Runs s s' where
  owns : Owns s' A' rest
  conserves : Conserves A rest s A' rest s'
  dir : A'.dir = A.dir
  pml4 : A'.pml4 = A.pml4
  pdpt : A'.pdpt = A.pdpt
  result : r = 0 ∨ r = max oldsz newsz
  keeps : ∀ u, u < pgup oldsz → A'.leaf u = A.leaf u ∧ A'.flags u = A.flags u
  below : Below A' (pgup (max oldsz newsz))
  mem : ∀ x, x ≠ 0 → rest x ∨ (∃ u, u < pgup oldsz ∧ A.leaf u = x) → s'.mem x = s.mem x
  grown : Covers A (pgup oldsz) → r ≠ 0 → s'.missed = false → Covers A' (pgup r)
  writable : Covers A (pgup oldsz) → r ≠ 0 → s'.missed = false →
    ∀ u, pgup oldsz ≤ u → u < pgup r → A'.flags u = 7
  restored : Covers A (pgup oldsz) → r = 0 → Covers A' (pgup oldsz)
  short : r = 0 → max oldsz newsz ≠ 0 → s'.refused = true
  tables : ∀ i, A'.table i ≠ 0 → A.table i ≠ 0 ∨ i * 512 < pgup newsz

/-- The pages that `allocuvm` adds hold zeros only. -/
def Cleared (A : Space) (oldsz newsz r : Nat) (m : Nat → Nat → Nat) : Prop :=
  r ≠ 0 → oldsz ≤ newsz → Zeroed A (pgup oldsz) (pgup newsz - pgup oldsz) m

theorem allocuvm_cleared (h : Owns s A rest) (hb : Below A (pgup oldsz))
    (hroom : pgup oldsz + min (pgup newsz - pgup oldsz) s.free.length ≤ VPAGES)
    (hpdpt : VPAGES < pgup newsz → A.pdpt ≠ 0) :
    wp (allocuvm A.dir oldsz newsz)
      (fun r s' => ∃ A', Resized rest A oldsz newsz s r A' s' ∧ Cleared A' oldsz newsz r s'.mem)
      (fun e s' => e = .fault ∧ VPAGES < pgup newsz ∧ s'.refused = true) s := by
  unfold allocuvm
  rw [wp_ite]
  refine ⟨fun hlt => ?_, fun hle => ?_⟩
  · rw [wp_pure]
    have hmax : max oldsz newsz = oldsz := by omega
    refine ⟨A, ⟨.refl s, h, fun _ _ => .rfl, rfl, rfl, rfl, .inr hmax.symm, fun _ _ => ⟨rfl, rfl⟩,
      by rw [hmax]; exact hb, fun _ _ _ => rfl, fun hc _ _ => hc, ?_, fun hc _ => hc, ?_,
      fun _ => .inl⟩, fun _ hle => absurd hlt (Nat.not_lt.2 hle)⟩
    · exact fun _ _ _ u hle hlt => by omega
    · omega
  · have hmax : max oldsz newsz = newsz := by omega
    have hpg := pgup_mono (Nat.not_lt.1 hle)
    have hend : pgup oldsz + (pgup newsz - pgup oldsz) = pgup newsz := by omega
    rw [wp_bind]
    refine wp_mono (allocLoop_zeroed _ h ?_ hroom) ?_ fun _ _ hno => hno.elim
    · intro u hu _
      by_contra hl
      exact absurd (hb u hl) (by omega)
    · rintro done s₁ ⟨A₁, h₁, hzero⟩
      have hkeep₁ : ∀ u, u < pgup oldsz → A₁.leaf u = A.leaf u ∧ A₁.flags u = A.flags u :=
        fun u hu => h₁.outside u (.inl hu)
      have hbelow₁ : Below A₁ (pgup newsz) := by
        intro u hu
        by_contra hge
        rw [(h₁.outside u (.inr (by omega))).1] at hu
        exact absurd (hb u hu) (by omega)
      cases done with
      | true =>
          rw [wp_ite]
          refine ⟨fun _ => ?_, fun hfalse => absurd rfl hfalse⟩
          rw [wp_pure]
          refine ⟨A₁, ⟨h₁.grows.toRuns, h₁.owns, h₁.conserves, h₁.grows.dir, h₁.grows.pml4,
            h₁.grows.pdpt, .inr hmax.symm, hkeep₁, by rw [hmax]; exact hbelow₁, ?_, ?_, ?_, ?_, ?_,
            fun i hi => (h₁.tables i hi).imp_right fun hlt => hend ▸ hlt⟩, fun _ _ => hzero⟩
          · exact fun x hx hr => h₁.grows.mem x hx (hr.imp_right fun ⟨u, _, hu⟩ => ⟨u, hu⟩)
          · intro hc _ hm u
            refine ⟨hbelow₁ u, fun hu => ?_⟩
            by_cases hold : u < pgup oldsz
            · rw [(hkeep₁ u hold).1]
              exact (hc u).2 hold
            · exact (h₁.inside rfl hm u (by omega) (by omega)).1
          · exact fun _ _ hm u hle hlt => (h₁.inside rfl hm u hle (by omega)).2
          · rintro hc rfl
            obtain rfl : oldsz = 0 := by omega
            intro u
            exact ⟨hbelow₁ u, fun hu => absurd hu (Nat.not_lt_zero u)⟩
          · intro h0 hne
            exact absurd (hmax.trans h0) hne
      | false =>
          obtain ⟨hsome, hrefused⟩ := h₁.short rfl
          have hlt : oldsz < newsz := by
            by_contra hnot
            have : newsz = oldsz := by omega
            rw [this] at hsome
            omega
          rw [wp_ite]
          refine ⟨nofun, fun _ => ?_⟩
          rw [wp_bind, ← h₁.grows.dir]
          refine wp_mono (wp_and (deallocuvm_spec h₁.owns hlt (by omega)
            (by rw [h₁.grows.pdpt]; exact hpdpt)) ((deallocuvm_steady _ _ _).wp s₁)) ?_
            fun _ _ hE => ⟨hE.1.1, hE.1.2, hE.2.refused hrefused⟩
          rintro _ s₂ ⟨⟨-, A₂, h₂⟩, -⟩
          rw [wp_pure]
          refine ⟨A₂, ⟨h₁.grows.toRuns.trans h₂.toRuns, h₂.owns, h₁.conserves.trans h₂.conserves,
            h₂.dir.trans h₁.grows.dir, h₂.pml4.trans h₁.grows.pml4, h₂.pdpt.trans h₁.grows.pdpt,
            .inl rfl, ?_, ?_, ?_, fun _ hne => absurd rfl hne, fun _ hne => absurd rfl hne, ?_,
            fun _ _ => h₂.refused hrefused, fun i hi => ?_⟩, fun hne => absurd rfl hne⟩
          · intro u hu
            obtain ⟨h1, h2⟩ := h₂.outside u (.inl hu)
            rw [h1, h2]
            exact hkeep₁ u hu
          · intro u hu
            rw [hmax]
            refine hbelow₁ u ?_
            rcases h₂.kept u with ⟨h1, -⟩ | h1
            · rwa [← h1]
            · exact absurd h1 hu
          · intro x hx hr
            rw [h₂.mem x hx, h₁.grows.mem x hx]
            · exact hr.imp_right fun ⟨u, _, hu⟩ => ⟨u, hu⟩
            · refine hr.imp_right ?_
              rintro ⟨u, hu, rfl⟩
              exact ⟨u, by rw [(h₂.outside u (.inl hu)).1, (hkeep₁ u hu).1]⟩
          · intro hc _ u
            by_cases hold : u < pgup oldsz
            · rw [(h₂.outside u (.inl hold)).1, (hkeep₁ u hold).1]
              exact hc u
            · refine iff_of_false (fun hl => hl ?_) hold
              by_cases hnew : u < pgup newsz
              · refine h₂.inside ?_ u (by omega) hnew
                rcases h.start hc with ht | ht
                · exact .inl (by rw [h₁.grows.table _ ht]; exact ht)
                · exact .inr ht
              · rw [(h₂.outside u (.inr (by omega))).1]
                by_contra hl
                exact hnew (hbelow₁ u hl)
          · rw [h₂.table] at hi
            exact (h₁.tables i hi).imp_right fun hlt => hend ▸ hlt

theorem allocuvm_spec (h : Owns s A rest) (hb : Below A (pgup oldsz))
    (hroom : pgup oldsz + min (pgup newsz - pgup oldsz) s.free.length ≤ VPAGES)
    (hpdpt : VPAGES < pgup newsz → A.pdpt ≠ 0) :
    wp (allocuvm A.dir oldsz newsz) (fun r s' => ∃ A', Resized rest A oldsz newsz s r A' s')
      (fun e s' => e = .fault ∧ VPAGES < pgup newsz ∧ s'.refused = true) s :=
  wp_imp (allocuvm_cleared h hb hroom hpdpt) fun _ _ ⟨A', hA', _⟩ => ⟨A', hA'⟩

end Resize

/-! ## `freevm` -/

section Free

variable {s s' s₁ : State} {A A₁ : Space} {rest : Nat → Prop} {i : Nat}

/-- The loop of `freevm` over the page tables has freed the first `i` of them. -/
structure Sweeping (A : Space) (s₁ : State) (i : Nat) (s : State) : Prop where
  free : ∀ x, x ∈ s.free ↔ x ∈ s₁.free ∨ ∃ j < i, A.table j = x ∧ x ≠ 0
  nodup : s.free.Nodup
  mem : ∀ x, (∀ j < i, A.table j = x → x = 0) → s.mem x = s₁.mem x
  same : s = { s₁ with mem := s.mem, free := s.free }

theorem Sweeping.step (h : Owns s₁ A rest) (hs : Sweeping A s₁ i s) (hi : i < 510) :
    wp (do
      let pde ← load A.dir i
      if Present pde then kfree (pteAddr pde) else return ())
      (fun _ s' => Sweeping A s₁ (i + 1) s') (fun _ _ => False) s := by
  have hdir : s.mem A.dir = s₁.mem A.dir := by
    refine hs.mem A.dir fun j _ heq => ?_
    exact absurd heq.symm (h.page_ne .dir (.table j) (by simp) h.dir)
  have hkend : s.kend = s₁.kend := by rw [hs.same]
  rw [wp_bind]
  refine wp_load (h.linear .dir) ?_
  rw [hdir, wp_ite]
  refine ⟨fun hp => ?_, fun hp => ?_⟩
  · have ht : A.table i ≠ 0 := fun h0 => h.maps.noTable i hi h0 hp
    rw [(h.maps.table i ht).2, pteAddr_table (by decide)]
    have htaken := h.excl.held (.table i) ht
    have hne : ∀ j, A.table i = A.table j → i = j :=
      fun j heq => Role.table.inj (h.excl.inj (.table i) (.table j) ht heq)
    refine wp_kfree ?_ ⟨?_, ?_, ?_, ?_⟩
    · rw [State.Managed, hkend]
      exact htaken.2.2.2
    · intro x
      rw [List.mem_cons, hs.free x]
      constructor
      · rintro (rfl | hx | ⟨j, hj, hx⟩)
        · exact .inr ⟨i, by omega, rfl, ht⟩
        · exact .inl hx
        · exact .inr ⟨j, by omega, hx⟩
      · rintro (hx | ⟨j, hj, hx⟩)
        · exact .inr (.inl hx)
        · by_cases hji : j = i
          · subst hji
            exact .inl hx.1.symm
          · exact .inr (.inr ⟨j, by omega, hx⟩)
    · refine List.nodup_cons.2 ⟨fun hmem => ?_, hs.nodup⟩
      rcases (hs.free _).1 hmem with hx | ⟨j, hj, hx, -⟩
      · exact htaken.1 hx
      · exact absurd (hne j hx.symm) (by omega)
    · intro x hx
      have hxi : x ≠ A.table i := fun heq => ht (heq ▸ hx i (by omega) heq.symm)
      dsimp only
      rw [Function.update_of_ne hxi]
      exact hs.mem x fun j hj => hx j (by omega)
    · rw [hs.same]
  · have ht : A.table i = 0 := by
      by_contra ht
      rw [(h.maps.table i ht).2] at hp
      exact hp present_table
    rw [wp_pure]
    refine ⟨fun x => ?_, hs.nodup, fun x hx => hs.mem x fun j hj => hx j (by omega), hs.same⟩
    rw [hs.free x]
    refine or_congr_right ⟨?_, ?_⟩
    · rintro ⟨j, hj, hx⟩
      exact ⟨j, by omega, hx⟩
    rintro ⟨j, hj, hx⟩
    refine ⟨j, ?_, hx⟩
    rcases Nat.lt_succ_iff_lt_or_eq.1 hj with hlt | rfl
    · exact hlt
    · exact absurd (hx.1.symm.trans ht) hx.2

/-- What is left after `deallocuvm` was there before, in the same place. -/
theorem Freed.page {limit v : Nat} (h : Freed rest A v limit s A₁ s₁) {r : Role}
    (hr : A₁.page r ≠ 0) : A.page r = A₁.page r := by
  cases r with
  | dir => exact h.dir.symm
  | pml4 => exact h.pml4.symm
  | pdpt => exact h.pdpt.symm
  | table i => exact (congrFun h.table i).symm
  | leaf u =>
      rcases h.kept u with ⟨h1, -⟩ | h1
      · exact h1.symm
      · exact absurd h1 hr

/-- Which pages `deallocuvm` frees, when it starts at the bottom. -/
theorem Freed.mem_free {limit : Nat} (h : Owns s A rest) (hf : Freed rest A 0 limit s A₁ s₁)
    (x : Nat) : x ∈ s₁.free ↔ x ∈ s.free ∨ (x ≠ 0 ∧ ∃ v < limit, A.leaf v = x) := by
  have hinside := hf.inside (.inr rfl)
  constructor
  · intro hx
    obtain ⟨hlost, hrest, hmanaged⟩ := hf.owns.pool.free x hx
    have hx0 := hf.owns.pool.ne_zero hmanaged
    rcases (hf.conserves x hx0).1 (.inl hx) with hx' | hx' | ⟨r, hr⟩ | hx'
    · exact .inl hx'
    · rw [hf.sameLost] at hlost
      exact absurd hx' hlost
    · have hgone : A₁.page r ≠ x := by
        intro heq
        exact (hf.owns.excl.held r (heq ▸ hx0)).1 (heq ▸ hx)
      cases r with
      | leaf v =>
          refine .inr ⟨hx0, v, ?_, hr⟩
          by_contra hv
          exact hgone ((hf.outside v (.inr (by omega))).1.trans hr)
      | dir => exact absurd (hf.dir.trans hr) hgone
      | pml4 => exact absurd (hf.pml4.trans hr) hgone
      | pdpt => exact absurd (hf.pdpt.trans hr) hgone
      | table i => exact absurd ((congrFun hf.table i).trans hr) hgone
    · exact absurd hx' hrest
  · intro hx
    have hfacts : x ≠ 0 ∧ x ∉ s.lost ∧ ¬rest x ∧ s.Accounts A rest x := by
      rcases hx with hx | ⟨hx0, v, hv, hx⟩
      · obtain ⟨h1, h2, h3⟩ := h.pool.free x hx
        exact ⟨h.pool.ne_zero h3, h1, h2, .inl hx⟩
      · have htaken := h.excl.held (.leaf v) (show A.leaf v ≠ 0 by rw [hx]; exact hx0)
        rw [show A.page (.leaf v) = x from hx] at htaken
        exact ⟨hx0, htaken.2.1, htaken.2.2.1, .inr (.inr (.inl ⟨.leaf v, hx⟩))⟩
    obtain ⟨hx0, hlost, hrest, hacc⟩ := hfacts
    rcases (hf.conserves x hx0).2 hacc with hx' | hx' | ⟨r, hr⟩ | hx'
    · exact hx'
    · rw [hf.sameLost] at hx'
      exact absurd hx' hlost
    · have hr' : A.page r = x := (hf.page (by rw [hr]; exact hx0)).trans hr
      rcases hx with hx | ⟨-, v, hv, hx⟩
      · exact absurd hx (hr' ▸ (h.excl.held r (by rw [hr']; exact hx0)).1)
      · obtain rfl : r = .leaf v :=
          h.excl.inj r (.leaf v) (by rw [hr']; exact hx0) (hr'.trans hx.symm)
        exact absurd ((hinside v (Nat.zero_le _) hv).symm.trans hr).symm hx0
    · exact absurd hx' hrest

/-- The space is gone: its pages are free but for the two of the upper levels, and data pages
out of reach of `freevm`. -/
structure Released (rest : Nat → Prop) (A : Space) (s s' : State) : Prop extends Runs s s' where
  pool : s'.Pool rest
  mem : ∀ x, x ≠ 0 → rest x → s'.mem x = s.mem x
  free : ∀ x, x ∈ s'.free ↔ x ∈ s.free ∨
    (x ≠ 0 ∧ (x = A.dir ∨ (∃ i, A.table i = x) ∨ ∃ v < UVMPAGES, A.leaf v = x))
  sameLost : s'.lost = [A.pml4, A.pdpt].filter (· ≠ 0) ++ s.lost
  sameMissed : s'.missed = s.missed
  sameRefused : s'.refused = s.refused

theorem pteAddr_back (p : Nat) :
    pteAddr (back (if p = 0 then none else some p)) - KERNPAGE = p := by
  by_cases hp : p = 0
  · subst hp
    decide
  · rw [if_neg hp, back, pteAddr_table (by decide)]
    omega

theorem freevm_spec (h : Owns s A rest) :
    wp (freevm A.dir) (fun _ s' => Released rest A s s') (fun _ _ => False) s := by
  have hup : pgup (UVMPAGES * PGSIZE) = UVMPAGES := by decide
  have hzero : pgup 0 = 0 := by decide
  unfold freevm
  rw [wp_bind]
  refine wp_mono (deallocuvm_spec h (by decide) (by decide) fun hlt => absurd hlt (by decide)) ?_
    fun _ _ hno => absurd hno.2 (by decide)
  rintro _ s₁ ⟨-, A₁, h₁⟩
  rw [hup, hzero] at h₁
  rw [wp_bind, ← h₁.dir]
  have hstart : Sweeping A₁ s₁ 0 s₁ :=
    ⟨fun x => by simp, h₁.owns.pool.nodup, fun _ _ => rfl, rfl⟩
  refine wp_imp (wp_loopTo 510 hstart fun i s' hi hs' => hs'.step h₁.owns hi) fun _ s₂ h₂ => ?_
  have hdir : s₂.mem A₁.dir = s₁.mem A₁.dir := by
    refine h₂.mem A₁.dir fun j _ heq => ?_
    exact absurd heq.symm (h₁.owns.page_ne .dir (.table j) (by simp) h₁.owns.dir)
  have htaken := h₁.owns.excl.held .dir h₁.owns.dir
  have hkeep : s₂.kend = s.kend ∧ s₂.lost = s.lost := by
    rw [h₂.same]
    exact ⟨h₁.kend, h₁.sameLost⟩
  have hupper : [pteAddr (s₂.mem A₁.dir 511) - KERNPAGE, pteAddr (s₂.mem A₁.dir 510) - KERNPAGE] =
      [A.pml4, A.pdpt] := by
    rw [hdir, h₁.owns.maps.pml4, h₁.owns.maps.pdpt, pteAddr_back, pteAddr_back, h₁.pml4, h₁.pdpt]
  have hfree : ∀ x, x ∈ A.dir :: s₂.free ↔ x ∈ s.free ∨
      (x ≠ 0 ∧ (x = A.dir ∨ (∃ i, A.table i = x) ∨ ∃ v < UVMPAGES, A.leaf v = x)) := by
    intro x
    rw [List.mem_cons, h₂.free x, h₁.mem_free h x, h₁.table]
    have htable : ∀ i, A.table i = x → x ≠ 0 → i < 510 := by
      rintro i rfl ht
      exact (h.maps.table i ht).1
    have hdir0 := h.dir
    grind
  have hnew : A.dir ∉ s₂.free := by
    rw [h₂.free, ← h₁.dir]
    rintro (hx | ⟨j, -, hx, -⟩)
    · exact htaken.1 hx
    · exact h₁.owns.page_ne .dir (.table j) (by simp) h₁.owns.dir hx.symm
  rw [wp_bind, wp_get, wp_bind, wp_modify]
  refine wp_kfree ?_ ?_
  · show s₂.kend ≤ A₁.dir ∧ _
    rw [h₂.same]
    exact htaken.2.2.2
  · rw [hupper, h₁.dir]
    have hupper' : ∀ x ∈ [A.pml4, A.pdpt].filter (· ≠ 0), s.Taken rest x ∧
        x ∉ A.dir :: s₂.free := by
      intro x hx
      obtain ⟨hx, hx0⟩ := List.mem_filter.1 hx
      have hx0 : x ≠ 0 := by simpa using hx0
      have hrole : x = A.page .pml4 ∨ x = A.page .pdpt := by simpa [Space.page] using hx
      rw [hfree]
      rcases hrole with rfl | rfl
      · refine ⟨h.excl.held _ hx0, ?_⟩
        rintro (hx | ⟨-, hx | ⟨i, hx⟩ | ⟨v, -, hx⟩⟩)
        · exact (h.excl.held _ hx0).1 hx
        · exact h.page_ne .pml4 .dir (by simp) hx0 hx
        · exact h.page_ne .pml4 (.table i) (by simp) hx0 hx.symm
        · exact h.page_ne .pml4 (.leaf v) (by simp) hx0 hx.symm
      · refine ⟨h.excl.held _ hx0, ?_⟩
        rintro (hx | ⟨-, hx | ⟨i, hx⟩ | ⟨v, -, hx⟩⟩)
        · exact (h.excl.held _ hx0).1 hx
        · exact h.page_ne .pdpt .dir (by simp) hx0 hx
        · exact h.page_ne .pdpt (.table i) (by simp) hx0 hx.symm
        · exact h.page_ne .pdpt (.leaf v) (by simp) hx0 hx.symm
    have hback : ∀ x ∈ A.dir :: s₂.free, x ∉ s.lost ∧ ¬rest x ∧ s.Managed x := by
      intro x hx
      rcases (hfree x).1 hx with hx | ⟨hx0, hx | ⟨i, hx⟩ | ⟨v, -, hx⟩⟩
      · exact h.pool.free x hx
      · exact hx ▸ (h.excl.held .dir h.dir).2
      · exact hx ▸ (h.excl.held (.table i) (by rw [Space.page, hx]; exact hx0)).2
      · exact hx ▸ (h.excl.held (.leaf v) (by rw [Space.page, hx]; exact hx0)).2
    have hother : ∀ x, x ≠ 0 → rest x → ∀ r, A.page r ≠ x := by
      rintro x hx hr r rfl
      exact (h.excl.held r hx).2.2.1 hr
    refine ⟨⟨?_, ?_, ?_, ?_, ?_, ?_, ?_, ?_⟩, ⟨?_, ?_, ?_, ?_⟩, ?_, hfree, ?_, ?_, ?_⟩
    · exact hkeep.1
    · rw [h₂.same]
      exact h₁.kpdpt
    · rw [h₂.same]
      exact h₁.cr3
    · intro x hx
      exact List.mem_append_right _ (hkeep.2 ▸ hx)
    · rw [h₂.same]
      exact h₁.missed
    · rw [h₂.same]
      exact h₁.refused
    · rw [h₂.same]
      exact h₁.noDenials
    · dsimp only
      rw [Function.update_of_ne h.dir.symm, h₂.mem 0 fun _ _ _ => rfl, h₁.zero]
    · exact hkeep.1 ▸ h.pool.kend
    · exact List.nodup_cons.2 ⟨hnew, h₂.nodup⟩
    · intro x hx
      obtain ⟨h1, h2, h3⟩ := hback x hx
      refine ⟨fun hm => ?_, h2, ?_⟩
      · rcases List.mem_append.1 hm with hm | hm
        · exact (hupper' x hm).2 hx
        · exact h1 (hkeep.2 ▸ hm)
      · rw [State.Managed, hkeep.1]
        exact h3
    · intro x hx
      rcases List.mem_append.1 hx with hx | hx
      · exact (hupper' x hx).1.2.2.1
      · exact h.pool.lost x (hkeep.2 ▸ hx)
    · intro x hx hr
      have hxd : x ≠ A.dir := (hother x hx hr .dir).symm
      dsimp only
      rw [Function.update_of_ne hxd, h₂.mem x, h₁.mem x hx (.inl hr)]
      intro j _ hj
      exact absurd ((congrFun h₁.table j).symm.trans hj) (hother x hx hr (.table j))
    · dsimp only
      rw [hkeep.2]
    · rw [h₂.same]
      exact h₁.sameMissed
    · rw [h₂.same]
      exact h₁.sameRefused

theorem Space.has_iff {x : Nat} : A.Has x ↔ A.dir = x ∨ A.pml4 = x ∨ A.pdpt = x ∨
    (∃ i, A.table i = x) ∨ ∃ v, A.leaf v = x := by
  constructor
  · rintro ⟨r, hr⟩
    cases r with
    | dir => exact .inl hr
    | pml4 => exact .inr (.inl hr)
    | pdpt => exact .inr (.inr (.inl hr))
    | table i => exact .inr (.inr (.inr (.inl ⟨i, hr⟩)))
    | leaf v => exact .inr (.inr (.inr (.inr ⟨v, hr⟩)))
  · rintro (hr | hr | hr | ⟨i, hr⟩ | ⟨v, hr⟩)
    · exact ⟨.dir, hr⟩
    · exact ⟨.pml4, hr⟩
    · exact ⟨.pdpt, hr⟩
    · exact ⟨.table i, hr⟩
    · exact ⟨.leaf v, hr⟩

/-- No page of a space below the limit of `freevm` gets out of sight. -/
theorem Released.accounts (h : Released rest A s s') (hb : Below A UVMPAGES) {x : Nat}
    (hx : x ≠ 0) : x ∈ s'.free ∨ x ∈ s'.lost ↔ x ∈ s.free ∨ x ∈ s.lost ∨ A.Has x := by
  have hleaf : (∃ v < UVMPAGES, A.leaf v = x) ↔ ∃ v, A.leaf v = x := by
    refine ⟨fun ⟨v, _, hv⟩ => ⟨v, hv⟩, ?_⟩
    rintro ⟨v, rfl⟩
    exact ⟨v, hb v hx, rfl⟩
  rw [h.free x, h.sameLost, Space.has_iff, hleaf]
  simp only [List.mem_append, List.mem_filter, List.mem_cons, List.not_mem_nil, or_false,
    decide_not, Bool.not_eq_true', decide_eq_false_iff_not]
  grind

end Free

/-! ## `setupkvm` -/

section Setup

variable {s s' : State} {A : Space} {rest : Nat → Prop} {z n : Nat}

/-- Page `z` is at address 0 of the process that runs. -/
structure NullPage (s : State) (z : Nat) : Prop where
  pde : Present (s.mem s.cr3 0)
  table : pteAddr (s.mem s.cr3 0) < LINEAR
  pte : Present (s.mem (pteAddr (s.mem s.cr3 0)) 0)
  page : pteAddr (s.mem (pteAddr (s.mem s.cr3 0)) 0) = z
  linear : z < LINEAR
  ne_zero : z ≠ 0

theorem wp_target {p : Option Nat} (h : p = none → NullPage s z) {Q : Nat → State → Prop}
    {E : Stop → State → Prop} (hQ : Q (p.getD z) s) : wp (target p) Q E s := by
  cases p with
  | some p =>
      unfold target
      rw [wp_pure]
      exact hQ
  | none =>
      have h := h rfl
      unfold target
      dsimp only
      rw [wp_bind, wp_get, wp_ite]
      refine ⟨fun _ => ?_, fun hnot => absurd h.pde hnot⟩
      rw [wp_bind]
      refine wp_load h.table ?_
      rw [wp_ite]
      refine ⟨fun _ => ?_, fun hnot => absurd h.pte hnot⟩
      rw [wp_pure, h.page]
      exact hQ

/-- The page directory that `setupkvm` makes. -/
def freshDir (pml4 pdpt : Option Nat) : Nat → Nat :=
  fun k => if k = 510 then back pdpt else if k = 511 then back pml4 else 0

/-- What `setupkvm` writes. -/
structure Tables (s : State) (z : Nat) (pml4 pdpt pgdir : Option Nat) (s' : State) : Prop where
  same : s' = { s with mem := s'.mem }
  other : ∀ x, x ≠ pml4.getD z → x ≠ pdpt.getD z → x ≠ pgdir.getD z → s'.mem x = s.mem x
  dir : pgdir.getD z ≠ pml4.getD z → pgdir.getD z ≠ pdpt.getD z →
    s'.mem (pgdir.getD z) = freshDir pml4 pdpt

theorem setupTables_spec {pml4 pdpt pgdir : Option Nat}
    (hz : pml4 = none ∨ pdpt = none ∨ pgdir = none → NullPage s z)
    (h1 : pml4.getD z < LINEAR) (h2 : pdpt.getD z < LINEAR) (h3 : pgdir.getD z < LINEAR)
    {E : Stop → State → Prop} :
    wp (setupTables pml4 pdpt pgdir) (fun _ s' => Tables s z pml4 pdpt pgdir s') E s := by
  unfold setupTables
  rw [wp_bind]
  refine wp_target (fun hp => hz (.inl hp)) ?_
  rw [wp_bind]
  refine wp_target (fun hp => hz (.inr (.inl hp))) ?_
  rw [wp_bind]
  refine wp_target (fun hp => hz (.inr (.inr hp))) ?_
  unfold fill
  rw [wp_bind, wp_modify, wp_bind, wp_modify, wp_bind, wp_modify, wp_bind, wp_get, wp_bind]
  refine wp_store h1 ?_
  rw [wp_bind]
  refine wp_store h1 ?_
  rw [wp_bind]
  refine wp_store h2 ?_
  rw [wp_bind]
  refine wp_store h3 ?_
  refine wp_store h3 ?_
  refine ⟨rfl, fun x hx1 hx2 hx3 => ?_, fun hne1 hne2 => ?_⟩
  · funext k
    simp [storeWord, hx1, hx2, hx3]
  · funext k
    simp [storeWord, freshDir, hne1, hne2]

/-- The next `n` calls of `kalloc` fail only if there is no page. -/
def Spares (n : Nat) (ds : List Bool) : Prop := ∀ b ∈ ds.take n, b = false

theorem Spares.head {ds : List Bool} (h : Spares (n + 1) ds) : ds.head? ≠ some true := by
  cases ds with
  | nil => simp
  | cons d ds =>
      have := h d (by simp)
      simp [this]

theorem Spares.tail {ds : List Bool} (h : Spares (n + 1) ds) : Spares n ds.tail := by
  cases ds with
  | nil => simp [Spares]
  | cons d ds =>
      exact fun b hb =>
        h b (by simp [List.take_succ_cons, List.tail_cons] at hb ⊢; exact .inr hb)

/-- There is no new space; pages may be lost. -/
structure NoSpace (rest : Nat → Prop) (z : Nat) (s s' : State) : Prop extends Runs s s' where
  pool : s'.Pool rest
  mem : ∀ x, x ≠ 0 → rest x → x ≠ z → s'.mem x = s.mem x
  pages : ∀ x, x ≠ 0 → (x ∈ s'.free ∨ x ∈ s'.lost ↔ x ∈ s.free ∨ x ∈ s.lost)
  isRefused : s'.refused = true
  sameMissed : s'.missed = s.missed
  /-- If only an empty free list makes `kalloc` fail, the first page is lost. -/
  leak : Spares 3 s.denials → ∀ x, s.free.head? = some x → x ∈ s'.lost

/-- There is a new space, with nothing in it.  Where there is no page for an upper level,
its entries go to page `z`. -/
structure Fresh (rest : Nat → Prop) (z : Nat) (s : State) (A : Space) (s' : State) : Prop
    extends Runs s s' where
  owns : Owns s' A rest
  table : ∀ i, A.table i = 0
  leaf : ∀ v, A.leaf v = 0
  mem : ∀ x, x ≠ 0 → rest x → x ≠ z ∨ s'.refused = false → s'.mem x = s.mem x
  pages : ∀ x, x ≠ 0 → (x ∈ s'.free ∨ A.Has x ↔ x ∈ s.free)
  sameLost : s'.lost = s.lost
  sameMissed : s'.missed = s.missed
  upper : s'.refused = false → A.pml4 ≠ 0 ∧ A.pdpt ≠ 0
  first : Spares 3 s.denials → s.free.head? = some A.pml4 ∧ A.pdpt ≠ 0

/-- The pages of a space with nothing in it are different if the three of its frame are. -/
theorem Space.inj_of_blank (ht : ∀ i, A.table i = 0) (hl : ∀ v, A.leaf v = 0)
    (h1 : A.pml4 ≠ 0 → A.pml4 ≠ A.pdpt) (h2 : A.pml4 ≠ A.dir) (h3 : A.pdpt ≠ A.dir)
    (r r' : Role) (hr : A.page r ≠ 0) (heq : A.page r = A.page r') : r = r' := by
  cases r <;> cases r' <;> simp_all [Space.page]

theorem setupkvm_spec (h : s.Pool rest) (hrest : rest z)
    (hz : NullPage s z ∨ Spares 3 s.denials ∧ 3 ≤ s.free.length)
    {Q : Option Nat → State → Prop} {E : Stop → State → Prop}
    (hnone : ∀ s', NoSpace rest z s s' → Q none s')
    (hsome : ∀ A s', Fresh rest z s A s' → Q (some A.dir) s') : wp setupkvm Q E s := by
  unfold setupkvm
  rw [wp_bind]
  refine wp_kalloc fun p1 s₁ h₁ => ?_
  rw [wp_bind]
  refine wp_kalloc fun p2 s₂ h₂ => ?_
  rw [wp_bind]
  refine wp_kalloc fun p3 s₃ h₃ => ?_
  have hfree : s.free = p1.toList ++ (p2.toList ++ (p3.toList ++ s₃.free)) := by
    rw [h₁.free, h₂.free, h₃.free]
  have hsame : s₃ = { s with free := s₃.free, denials := s₃.denials, refused := s₃.refused } := by
    rw [h₃.same, h₂.same, h₁.same]
  have hrefused : s₃.refused = (s.refused || p1.isNone || p2.isNone || p3.isNone) := by
    rw [h₃.refused, h₂.refused, h₁.refused]
  have hall : s₃.refused = false → p1 ≠ none ∧ p2 ≠ none ∧ p3 ≠ none := by
    rw [hrefused]
    cases p1 <;> cases p2 <;> cases p3 <;> simp
  have hnodup := h.nodup
  have hpages : ∀ p : Nat, p1 = some p ∨ p2 = some p ∨ p3 = some p → p ∈ s.free := by
    rintro p (rfl | rfl | rfl) <;> simp [hfree]
  have hfirst : Spares 3 s.denials → (p1 = none → s.free = []) ∧ (p2 = none → s₁.free = []) ∧
      (p3 = none → s₂.free = []) := by
    intro hd
    have hd₁ : Spares 2 s₁.denials := h₁.denials ▸ hd.tail
    have hd₂ : Spares 1 s₂.denials := h₂.denials ▸ hd₁.tail
    exact ⟨fun hp => (h₁.isNone hp).resolve_right hd.head,
      fun hp => (h₂.isNone hp).resolve_right hd₁.head,
      fun hp => (h₃.isNone hp).resolve_right hd₂.head⟩
  have hnull : p1 = none ∨ p2 = none ∨ p3 = none → NullPage s z := by
    intro hp
    refine hz.resolve_right fun ⟨hd, hlen⟩ => ?_
    obtain ⟨hp1, hp2, hp3⟩ := hfirst hd
    have hlen₁ := congrArg List.length h₁.free
    have hlen₂ := congrArg List.length h₂.free
    rw [List.length_append] at hlen₁ hlen₂
    have hle1 := p1.length_toList_le
    have hle2 := p2.length_toList_le
    rcases hp with hp | hp | hp
    · rw [hp1 hp, List.length_nil] at hlen
      omega
    · rw [hp2 hp, List.length_nil] at hlen₁
      omega
    · rw [hp3 hp, List.length_nil] at hlen₂
      omega
  have hlinear : ∀ p : Option Nat, (p = none → NullPage s z) → (∀ q, p = some q → q ∈ s.free) →
      p.getD z < LINEAR := by
    intro p hp hp'
    cases p with
    | none => exact (hp rfl).linear
    | some q =>
        have := (h.free q (hp' q rfl)).2.2.2
        simp only [NPAGES, LINEAR, Option.getD_some] at this ⊢
        omega
  have hz₃ : p1 = none ∨ p2 = none ∨ p3 = none → NullPage s₃ z := by
    intro hp
    obtain ⟨g1, g2, g3, g4, g5, g6⟩ := hnull hp
    rw [hsame]
    exact ⟨g1, g2, g3, g4, g5, g6⟩
  rw [wp_bind]
  refine wp_imp (setupTables_spec hz₃
    (hlinear p1 (fun hp => hnull (.inl hp)) fun q hq => hpages q (.inl hq))
    (hlinear p2 (fun hp => hnull (.inr (.inl hp))) fun q hq => hpages q (.inr (.inl hq)))
    (hlinear p3 (fun hp => hnull (.inr (.inr hp))) fun q hq => hpages q (.inr (.inr hq))))
    fun _ s₄ h₄ => ?_
  have hsame₄ : s₄ = { s with
      mem := s₄.mem, free := s₃.free, denials := s₃.denials, refused := s₃.refused } := by
    rw [h₄.same, hsame]
  have hne : ∀ p : Option Nat, (∀ q, p = some q → q ∈ s.free) → ∀ x, rest x →
      x ≠ z ∨ p ≠ none → x ≠ p.getD z := by
    rintro p hp x hx hxz rfl
    cases p with
    | none => exact hxz.elim (fun hne => hne rfl) fun hne => hne rfl
    | some q => exact (h.free q (hp q rfl)).2.1 hx
  have hmem : ∀ x, rest x → x ≠ z ∨ (p1 ≠ none ∧ p2 ≠ none ∧ p3 ≠ none) →
      s₄.mem x = s.mem x := by
    intro x hx hxz
    rw [h₄.other x (hne p1 (fun q hq => hpages q (.inl hq)) x hx (hxz.imp_right (·.1)))
      (hne p2 (fun q hq => hpages q (.inr (.inl hq))) x hx (hxz.imp_right (·.2.1)))
      (hne p3 (fun q hq => hpages q (.inr (.inr hq))) x hx (hxz.imp_right (·.2.2))), hsame]
  have hzero : s₄.mem 0 = s.mem 0 := by
    have hnz : ∀ p : Option Nat, (p = none → NullPage s z) → (∀ q, p = some q → q ∈ s.free) →
        0 ≠ p.getD z := by
      intro p hp hp'
      cases p with
      | none => exact (hp rfl).ne_zero.symm
      | some q => exact (h.ne_zero (h.free q (hp' q rfl)).2.2).symm
    rw [h₄.other 0 (hnz p1 (fun hp => hnull (.inl hp)) fun q hq => hpages q (.inl hq))
      (hnz p2 (fun hp => hnull (.inr (.inl hp))) fun q hq => hpages q (.inr (.inl hq)))
      (hnz p3 (fun hp => hnull (.inr (.inr hp))) fun q hq => hpages q (.inr (.inr hq))), hsame]
  have hden : s.denials = [] → s₃.denials = [] := by
    intro hd
    rw [h₃.denials, h₂.denials, h₁.denials, hd]
    rfl
  rw [hfree, List.nodup_append, List.nodup_append, List.nodup_append] at hnodup
  cases p3 with
  | none =>
      have hlost : ∀ x ∈ p1.toList ++ p2.toList, x ∈ s.free ∧ x ∉ s₃.free := by
        intro x hx
        simp only [List.mem_append, Option.mem_toList] at hx
        refine ⟨hpages x (hx.imp_right .inl), fun hx' => ?_⟩
        grind
      rw [show (none : Option Nat).isNone = true from rfl]
      simp only [if_true]
      rw [wp_bind, wp_modify, wp_pure]
      refine hnone _ ⟨⟨?_, ?_, ?_, ?_, ?_, ?_, ?_, hzero⟩, ⟨?_, ?_, ?_, ?_⟩, ?_, ?_, ?_, ?_, ?_⟩
      · rw [hsame₄]
      · rw [hsame₄]
      · rw [hsame₄]
      · intro x hx
        rw [hsame₄]
        exact List.mem_append_right _ hx
      · intro hm
        rw [hsame₄]
        exact hm
      · intro hr
        rw [hsame₄]
        dsimp only
        rw [hrefused, hr]
        rfl
      · intro hd
        rw [hsame₄]
        exact hden hd
      · rw [hsame₄]
        exact h.kend
      · rw [hsame₄]
        exact hnodup.2.1.2.1.2.1
      · rw [hsame₄]
        intro x hx
        have hxs : x ∈ s.free := by
          rw [hfree]
          simp [hx]
        obtain ⟨h1, h2, h3⟩ := h.free x hxs
        refine ⟨fun hm => ?_, h2, h3⟩
        rcases List.mem_append.1 hm with hm | hm
        · exact (hlost x hm).2 hx
        · exact h1 hm
      · rw [hsame₄]
        intro x hx
        rcases List.mem_append.1 hx with hx | hx
        · exact (h.free x (hlost x hx).1).2.1
        · exact h.lost x hx
      · exact fun x _ hr hxz => hmem x hr (.inl hxz)
      · intro x _
        rw [hsame₄, hfree]
        simp only [List.mem_append, Option.toList_none, List.nil_append]
        grind
      · rw [hsame₄]
        dsimp only
        rw [hrefused]
        simp
      · rw [hsame₄]
      · intro hd
        obtain ⟨hp1, -, -⟩ := hfirst hd
        intro x hx
        cases p1 with
        | none =>
            rw [hp1 rfl] at hx
            cases hx
        | some p =>
            rw [hfree] at hx
            obtain rfl : p = x := by simpa using hx
            simp
  | some d =>
      rw [show (some d).isNone = false from rfl]
      simp only [Bool.false_eq_true, if_false]
      rw [wp_pure]
      have hnz : ∀ x ∈ s.free, x ≠ 0 := fun x hx => h.ne_zero (h.free x hx).2.2
      have hd := hpages d (.inr (.inr rfl))
      have hdz : d ≠ z := fun heq => (h.free d hd).2.1 (heq ▸ hrest)
      have hd1 : d ≠ p1.getD z := by
        cases p1 with
        | none => exact hdz
        | some p => grind
      have hd2 : d ≠ p2.getD z := by
        cases p2 with
        | none => exact hdz
        | some p => grind
      have hdir : s₄.mem d = freshDir p1 p2 := h₄.dir hd1 hd2
      have hback : ∀ p : Option Nat, (∀ q, p = some q → q ∈ s.free) →
          back (if p.getD 0 = 0 then none else some (p.getD 0)) = back p := by
        intro p hp
        cases p with
        | none => rfl
        | some q => rw [Option.getD_some, if_neg (hnz q (hp q rfl))]
      let A : Space := ⟨d, p1.getD 0, p2.getD 0, fun _ => 0, fun _ => 0, fun _ => 0⟩
      have hpage : ∀ r, A.page r ≠ 0 → A.page r ∈ s.free ∧ A.page r ∉ s₃.free := by
        intro r hr
        cases r with
        | dir => exact ⟨hd, by grind [Space.page]⟩
        | pml4 =>
            cases p1 with
            | none => exact absurd rfl hr
            | some p => exact ⟨hpages p (.inl rfl), by grind [Space.page]⟩
        | pdpt =>
            cases p2 with
            | none => exact absurd rfl hr
            | some p => exact ⟨hpages p (.inr (.inl rfl)), by grind [Space.page]⟩
        | table i => exact absurd rfl hr
        | leaf v => exact absurd rfl hr
      refine hsome A s₄ ⟨⟨?_, ?_, ?_, ?_, ?_, ?_, ?_, hzero⟩,
        ⟨⟨?_, ?_, ?_, ?_, ?_, ?_, ?_⟩, ⟨?_, ?_⟩,
        hnz d hd, ⟨?_, ?_, ?_, ?_⟩⟩, fun _ => rfl, fun _ => rfl, ?_, ?_, ?_, ?_, ?_, ?_⟩
      · rw [hsame₄]
      · rw [hsame₄]
      · rw [hsame₄]
      · rw [hsame₄]
        exact fun x hx => hx
      · rw [hsame₄]
        exact fun hm => hm
      · rw [hsame₄]
        dsimp only
        rw [hrefused]
        intro hr
        rw [hr]
        rfl
      · intro hd
        rw [hsame₄]
        exact hden hd
      · intro i hi _
        show ¬Present (s₄.mem d i)
        have h510 : i ≠ 510 := by omega
        have h511 : i ≠ 511 := by omega
        rw [hdir, freshDir, if_neg h510, if_neg h511]
        decide
      · exact fun i hi => absurd rfl hi
      · exact fun v hv => absurd rfl hv
      · exact fun v hv => absurd rfl hv
      · exact fun v hv => absurd rfl hv
      · show s₄.mem d 511 = _
        rw [hdir, hback p1 fun q hq => hpages q (.inl hq)]
        rfl
      · show s₄.mem d 510 = _
        rw [hdir, hback p2 fun q hq => hpages q (.inr (.inl hq))]
        rfl
      · refine Space.inj_of_blank (fun _ => rfl) (fun _ => rfl) ?_ ?_ ?_
        · show p1.getD 0 ≠ 0 → p1.getD 0 ≠ p2.getD 0
          cases p1 <;> cases p2 <;> grind
        · show p1.getD 0 ≠ d
          cases p1 <;> grind
        · show p2.getD 0 ≠ d
          cases p2 <;> grind
      · intro r hr
        obtain ⟨hx, hx'⟩ := hpage r hr
        rw [hsame₄]
        exact ⟨hx', h.free _ hx⟩
      · rw [hsame₄]
        exact h.kend
      · rw [hsame₄]
        exact hnodup.2.1.2.1.2.1
      · rw [hsame₄]
        intro x hx
        refine h.free x ?_
        rw [hfree]
        simp [hx]
      · rw [hsame₄]
        exact h.lost
      · intro x _ hr hxz
        refine hmem x hr (hxz.imp_right fun hnot => ?_)
        rw [hsame₄] at hnot
        exact hall hnot
      · intro x hx0
        rw [hsame₄, hfree]
        simp only [List.mem_append, Option.mem_toList]
        constructor
        · rintro (hx | ⟨r, hr⟩)
          · simp [hx]
          · have := (hpage r (hr ▸ hx0)).1
            rw [hr, hfree] at this
            simpa [eq_comm] using this
        · rintro (hx | hx | hx | hx)
          · exact .inr ⟨.pml4, by simp [A, Space.page, hx]⟩
          · exact .inr ⟨.pdpt, by simp [A, Space.page, hx]⟩
          · exact .inr ⟨.dir, by simpa [A, Space.page] using hx⟩
          · exact .inl hx
      · rw [hsame₄]
      · rw [hsame₄]
      · intro hnot
        rw [hsame₄] at hnot
        obtain ⟨h1, h2, -⟩ := hall hnot
        obtain ⟨p, rfl⟩ := Option.ne_none_iff_exists'.1 h1
        obtain ⟨q, rfl⟩ := Option.ne_none_iff_exists'.1 h2
        exact ⟨hnz p (hpages p (.inl rfl)), hnz q (hpages q (.inr (.inl rfl)))⟩
      · intro hspares
        obtain ⟨hp1, hp2, -⟩ := hfirst hspares
        refine ⟨?_, ?_⟩
        · cases p1 with
          | none =>
              rw [hp1 rfl] at hd
              cases hd
          | some p => rw [hfree]; rfl
        · cases p2 with
          | none =>
              have := hp2 rfl
              rw [h₂.free, h₃.free] at this
              cases this
          | some p => exact hnz p (hpages p (.inr (.inl rfl)))

end Setup

/-! ## `copyuvm` -/

section Copy

variable {s s' s'' : State} {A A' P : Space} {rest : Nat → Prop} {z v n : Nat}

/-- The memory holds the address space, whose pages are among the rest. -/
structure Lives (s : State) (P : Space) (rest : Nat → Prop) : Prop where
  maps : Maps s.mem P
  inj : ∀ r r', P.page r ≠ 0 → P.page r = P.page r' → r = r'
  pages : ∀ r, P.page r ≠ 0 → rest (P.page r)
  managed : ∀ r, P.page r ≠ 0 → s.Managed (P.page r)
  dir : P.dir ≠ 0

theorem Lives.bound (h : Lives s P rest) (r : Role) : P.page r < NPAGES := by
  by_cases hr : P.page r = 0
  · rw [hr]
    decide
  · exact (h.managed r hr).2

theorem Lives.linear (h : Lives s P rest) (r : Role) : P.page r < LINEAR :=
  Nat.lt_of_lt_of_le (h.bound r) (by decide)

/-- Its data may change. -/
theorem Lives.congr (h : Lives s P rest) (hkend : s'.kend = s.kend)
    (hmem : ∀ x, x ≠ 0 → rest x → (∀ u, x ≠ P.leaf u) → s'.mem x = s.mem x) : Lives s' P rest := by
  have hmanaged : ∀ r, P.page r ≠ 0 → s'.Managed (P.page r) := by
    unfold State.Managed
    rw [hkend]
    exact h.managed
  refine ⟨h.maps.congr ?_ ?_, h.inj, h.pages, hmanaged, h.dir⟩
  · refine hmem P.dir h.dir (h.pages .dir h.dir) fun u heq => ?_
    cases h.inj .dir (.leaf u) h.dir heq
  · intro i hi
    refine hmem (P.table i) hi (h.pages (.table i) hi) fun u heq => ?_
    cases h.inj (.table i) (.leaf u) hi heq

/-- The page at address 0 of the process that runs. -/
theorem Lives.nullPage (h : Lives s P rest) (hcr3 : s.cr3 = P.dir) (h0 : P.leaf 0 ≠ 0) :
    NullPage s (P.leaf 0) := by
  obtain ⟨ht, hpte⟩ := h.maps.leaf 0 h0
  obtain ⟨hodd, hlt⟩ := h.maps.flags 0 h0
  obtain ⟨-, hpde⟩ := h.maps.table 0 ht
  have htable : pteAddr (s.mem s.cr3 0) = P.table 0 := by
    rw [hcr3, hpde, pteAddr_table (by decide)]
  refine ⟨?_, ?_, ?_, ?_, h.linear (.leaf 0), h0⟩
  · rw [hcr3, hpde]
    exact present_table
  · rw [htable]
    exact h.linear (.table 0)
  · rw [htable, hpte]
    simp only [Present, PGSIZE] at *
    omega
  · rw [htable, hpte, pteAddr_table hlt]

theorem or_present {f : Nat} (hf : f % 2 = 1) : f ||| PTE_P = f := by
  refine Nat.eq_of_testBit_eq fun i => ?_
  rw [Nat.testBit_or]
  cases i with
  | zero => simp [Nat.testBit_zero, hf]
  | succ i => simp [Nat.testBit_succ, PTE_P]

/-- Virtual pages from `v` on, `n` of them, have been copied, or some of them. -/
structure Copied (rest : Nat → Prop) (P A : Space) (v n : Nat) (s : State) (done : Bool)
    (A' : Space) (s' : State) : Prop where
  owns : Owns s' A' rest
  grows : Grows rest A s A' s'
  conserves : Conserves A rest s A' rest s'
  outside : ∀ u, u < v ∨ v + n ≤ u → A'.leaf u = A.leaf u ∧ A'.flags u = A.flags u
  inside : done = true → ∀ u, v ≤ u → u < v + n →
    A'.leaf u ≠ 0 ∧ A'.flags u = P.flags u ∧ s'.mem (A'.leaf u) = s.mem (P.leaf u)
  short : done = false → s'.refused = true
  missed : s'.missed = s.missed

theorem copyLoop_spec (n : Nat) : ∀ {s : State} {A : Space} {v : Nat}, Owns s A rest →
    Lives s P rest → (∀ u, v ≤ u → u < v + n → P.leaf u ≠ 0) →
    (∀ u, v ≤ u → u < v + n → A.leaf u = 0) → v + n ≤ VPAGES →
    wp (copyLoop P.dir A.dir n v) (fun done s' => ∃ A', Copied rest P A v n s done A' s')
      (fun _ _ => False) s := by
  induction n with
  | zero =>
      intro s A v h _ _ _ _
      rw [copyLoop, wp_pure]
      exact ⟨A, h, .of_runs (.refl s) (List.suffix_refl _) fun _ _ _ => rfl, fun _ _ => .rfl,
        fun _ _ => ⟨rfl, rfl⟩, fun _ u hle hlt => by omega, by simp, rfl⟩
  | succ n ih =>
      intro s A v h hP hsource hnone hroom
      have hl := hsource v (Nat.le_refl v) (by omega)
      obtain ⟨ht, hpte⟩ := hP.maps.leaf v hl
      obtain ⟨hodd, hlt⟩ := hP.maps.flags v hl
      obtain ⟨-, hpde⟩ := hP.maps.table _ ht
      have hflags : pteFlags (s.mem (P.table (v / 512)) (v % 512)) = P.flags v := by
        rw [hpte]
        simp only [pteFlags, PGSIZE] at *
        omega
      have haddr : pteAddr (s.mem (P.table (v / 512)) (v % 512)) = P.leaf v := by
        rw [hpte, pteAddr_table hlt]
      have hpresent : Present (s.mem (P.table (v / 512)) (v % 512)) := by
        rw [hpte]
        simp only [Present, PGSIZE]
        omega
      rw [copyLoop, wp_bind]
      unfold walkpgdir
      rw [wp_bind]
      refine wp_load (hP.linear .dir) ?_
      rw [pdx_eq (by omega), hpde, wp_ite]
      refine ⟨fun _ => ?_, fun hnot => absurd present_table hnot⟩
      rw [wp_pure, pteAddr_table (by decide), show ptx v = v % 512 from rfl]
      dsimp only
      rw [wp_bind]
      refine wp_load (hP.linear (.table _)) ?_
      rw [wp_ite]
      refine ⟨fun _ => ?_, fun hnot => absurd hpresent hnot⟩
      · rw [wp_bind]
        refine kalloc_spec h (fun s' hs' => ?_) fun p s₁ hs₁ => ?_
        · rw [wp_pure]
          exact ⟨A, hs'.owns, hs'.grows, hs'.conserves, fun _ _ => ⟨rfl, rfl⟩, by simp,
            fun _ => hs'.refused, hs'.missed⟩
        · have hs₂ := hs₁.toInHand.fill (s₁.mem (P.leaf v))
          dsimp only
          unfold fill
          rw [wp_bind, wp_get, haddr, wp_bind, wp_modify, wp_bind, hflags]
          refine mappages_spec hs₂.owns hs₂.taken (by omega) (hnone v (Nat.le_refl v) (by omega))
            hlt (fun s₃ hs₃ => ?_) fun A₃ s₃ hs₃ => ?_
          · -- no page table: the copy is lost
            obtain ⟨howns, hgrows, hcons⟩ := hs₂.lose hs₃
            rw [wp_ite]
            refine ⟨by simp, fun _ => ?_⟩
            unfold lose
            rw [wp_bind, wp_modify, wp_pure]
            exact ⟨A, howns, hgrows, hcons, fun _ _ => ⟨rfl, rfl⟩, by simp, fun _ => hs₃.refused,
              hs₃.missed.trans hs₂.missed⟩
          · have hgrows := hs₂.grows.trans (hs₃.grows.mono fun _ => .inl)
            have hother : ∀ u, u ≠ v → A₃.leaf u = A.leaf u ∧ A₃.flags u = A.flags u := by
              intro u hu
              rw [hs₃.leaf, hs₃.flags, Function.update_of_ne hu, Function.update_of_ne hu]
              exact ⟨rfl, rfl⟩
            have hP₃ : Lives s₃ P rest :=
              hP.congr hgrows.kend fun x hx hr _ => hgrows.mem x hx (.inl hr)
            have hcopy : s₃.mem p = s.mem (P.leaf v) := by
              rw [hs₃.grows.mem p hs₂.ne_zero (.inl (.inr rfl))]
              exact (Function.update_self _ _ _).trans (by rw [hs₁.mem])
            rw [wp_ite]
            refine ⟨fun _ => ?_, fun hfalse => absurd rfl hfalse⟩
            rw [← hgrows.dir]
            refine wp_imp (ih hs₃.owns hP₃ (fun u hle hlt' => hsource u (by omega) (by omega))
              (fun u hle hlt' => ?_) (by omega)) ?_
            · rw [(hother u (by omega)).1]
              exact hnone u (by omega) (by omega)
            · rintro done s' ⟨A', hA'⟩
              refine ⟨A', hA'.owns, hgrows.trans hA'.grows,
                (hs₂.conserves.trans hs₃.conserves).trans hA'.conserves, fun u hu => ?_,
                fun hdone u hle hlt' => ?_, hA'.short,
                hA'.missed.trans (hs₃.missed.trans hs₂.missed)⟩
              · obtain ⟨h1, h2⟩ := hA'.outside u (by omega)
                rw [h1, h2]
                exact hother u (by omega)
              · by_cases hu : u = v
                · subst hu
                  obtain ⟨h1, h2⟩ := hA'.outside u (by omega)
                  have hleaf : A₃.leaf u = p := by rw [hs₃.leaf, Function.update_self]
                  rw [h1, h2, hleaf, hs₃.flags, Function.update_self, or_present hodd,
                    hA'.grows.mem p hs₂.ne_zero (.inr ⟨u, hleaf⟩), hcopy]
                  exact ⟨hs₂.ne_zero, rfl, rfl⟩
                · obtain ⟨h1, h2, h3⟩ := hA'.inside hdone u (by omega) (by omega)
                  refine ⟨h1, h2, h3.trans ?_⟩
                  have hl' := hsource u (by omega) (by omega)
                  exact hgrows.mem (P.leaf u) hl' (.inl (hP.pages (.leaf u) hl'))

/-- There are not more data pages than pages. -/
theorem Covers.le_pages (hc : Covers P n)
    (hinj : ∀ r r', P.page r ≠ 0 → P.page r = P.page r' → r = r')
    (hbound : ∀ r, P.page r < NPAGES) : n ≤ NPAGES := by
  let f : Fin n → Fin NPAGES := fun v => ⟨P.leaf v, hbound (.leaf v)⟩
  have hf : Function.Injective f := by
    intro u v huv
    have hpage : P.page (.leaf u) = P.page (.leaf v) := congrArg Fin.val huv
    exact Fin.ext (Role.leaf.inj (hinj _ _ ((hc u).2 u.2) hpage))
  simpa using Fintype.card_le_of_injective f hf

/-- There is a copy of the space. -/
structure Copy (rest : Nat → Prop) (P : Space) (n z : Nat) (s : State) (A : Space) (s' : State) :
    Prop extends Runs s s' where
  owns : Owns s' A rest
  covers : Covers A n
  same : ∀ u < n, A.flags u = P.flags u ∧
    (P.leaf u ≠ z ∨ s'.refused = false → s'.mem (A.leaf u) = s.mem (P.leaf u))
  mem : ∀ x, x ≠ 0 → rest x → x ≠ z ∨ s'.refused = false → s'.mem x = s.mem x
  pages : ∀ x, x ≠ 0 → (x ∈ s'.free ∨ x ∈ s'.lost ∨ A.Has x ↔ x ∈ s.free ∨ x ∈ s.lost)
  sameMissed : s'.missed = s.missed
  upper : s'.refused = false → A.pml4 ≠ 0 ∧ A.pdpt ≠ 0
  first : Spares 3 s.denials → s.free.head? = some A.pml4 ∧ A.pdpt ≠ 0

theorem Lives.congr_frame (h : Lives s P rest) (hkend : s'.kend = s.kend)
    (hmem : ∀ r, P.page r ≠ 0 → (∀ u, P.page r ≠ P.leaf u) → s'.mem (P.page r) = s.mem (P.page r)) :
    Lives s' P rest := by
  have hmanaged : ∀ r, P.page r ≠ 0 → s'.Managed (P.page r) := by
    unfold State.Managed
    rw [hkend]
    exact h.managed
  refine ⟨h.maps.congr ?_ ?_, h.inj, h.pages, hmanaged, h.dir⟩
  · refine hmem .dir h.dir fun u heq => ?_
    cases h.inj .dir (.leaf u) h.dir heq
  · intro i hi
    refine hmem (.table i) hi fun u heq => ?_
    cases h.inj (.table i) (.leaf u) hi heq

/-- `copyuvm`, where page `z` stands in for the pages that `setupkvm` does not get. -/
theorem copyuvm_at {sz z : Nat} (h : s.Pool rest) (hP : Lives s P rest) (hz : rest z)
    (hnull : NullPage s z ∨ Spares 3 s.denials ∧ 3 ≤ s.free.length)
    (hframe : ∀ r, P.page r ≠ 0 → (∀ u, P.page r ≠ P.leaf u) → P.page r ≠ z)
    (hc : Covers P (pgup sz)) {Q : Option Nat → State → Prop}
    {E : Stop → State → Prop} (hnone : ∀ s', NoSpace rest z s s' → Q none s')
    (hsome : ∀ A s', Copy rest P (pgup sz) z s A s' → Q (some A.dir) s') :
    wp (copyuvm P.dir sz) Q E s := by
  have hsmall : pgup sz ≤ NPAGES := hc.le_pages hP.inj hP.bound
  have hpages : NPAGES < VPAGES := by decide
  unfold copyuvm
  rw [wp_bind]
  refine setupkvm_spec h hz hnull (fun s' hs' => ?_) fun A s₁ h₁ => ?_
  · rw [wp_pure]
    exact hnone s' hs'
  · have hP₁ : Lives s₁ P rest := hP.congr_frame h₁.kend fun r hr hdata =>
      h₁.mem _ hr (hP.pages r hr) (.inl (hframe r hr hdata))
    dsimp only
    rw [wp_bind]
    refine wp_mono (copyLoop_spec (pgup sz) h₁.owns hP₁ (fun u _ hu => (hc u).2 (by omega))
      (fun u _ _ => h₁.leaf u) (by omega)) ?_ fun _ _ hno => hno.elim
    rintro done s₂ ⟨A₂, h₂⟩
    have hbelow : ∀ u, A₂.leaf u ≠ 0 → u < pgup sz := by
      intro u hu
      by_contra hge
      rw [(h₂.outside u (.inr (by omega))).1, h₁.leaf u] at hu
      exact hu rfl
    have hacc : ∀ x, x ≠ 0 → (x ∈ s₂.free ∨ x ∈ s₂.lost ∨ A₂.Has x ↔ x ∈ s.free ∨ x ∈ s.lost) := by
      intro x hx
      by_cases hr : rest x
      · refine iff_of_false ?_ ?_
        · rintro (hm | hm | ⟨r, rfl⟩)
          · exact (h₂.owns.pool.free x hm).2.1 hr
          · exact h₂.owns.pool.lost x hm hr
          · exact (h₂.owns.excl.held r hx).2.2.1 hr
        · rintro (hm | hm)
          · exact (h.free x hm).2.1 hr
          · exact h.lost x hm hr
      · have h1 := h₂.conserves x hx
        have h2 := h₁.pages x hx
        simp only [State.Accounts, h₁.sameLost, hr, or_false] at h1
        rw [h1, ← h2]
        grind
    cases done with
    | true =>
        rw [wp_ite]
        refine ⟨fun _ => ?_, fun hfalse => absurd rfl hfalse⟩
        rw [wp_pure, ← h₂.grows.dir]
        have hunrefused : s₂.refused = false → s₁.refused = false := by
          intro hr
          by_contra hr₁
          rw [h₂.grows.refused (by simpa using hr₁)] at hr
          cases hr
        refine hsome A₂ s₂ ⟨h₁.toRuns.trans h₂.grows.toRuns, h₂.owns, ?_, ?_, ?_, hacc, ?_, ?_, ?_⟩
        · exact fun u => ⟨hbelow u, fun hu => (h₂.inside rfl u (Nat.zero_le u) (by omega)).1⟩
        · intro u hu
          obtain ⟨-, h1, h2⟩ := h₂.inside rfl u (Nat.zero_le u) (by omega)
          have hl := (hc u).2 hu
          refine ⟨h1, fun hz => h2.trans ?_⟩
          exact h₁.mem _ hl (hP.pages (.leaf u) hl) (hz.imp_right hunrefused)
        · intro x hx hr hz
          rw [h₂.grows.mem x hx (.inl hr)]
          exact h₁.mem x hx hr (hz.imp_right hunrefused)
        · exact h₂.missed.trans h₁.sameMissed
        · rw [h₂.grows.pml4, h₂.grows.pdpt]
          exact fun hr => h₁.upper (hunrefused hr)
        · rw [h₂.grows.pml4, h₂.grows.pdpt]
          exact h₁.first
    | false =>
        rw [wp_ite]
        refine ⟨by simp, fun _ => ?_⟩
        rw [wp_bind, ← h₂.grows.dir]
        refine wp_mono (freevm_spec h₂.owns) (fun _ s₃ h₃ => ?_) fun _ _ hno => hno.elim
        rw [wp_pure]
        refine hnone s₃ ⟨(h₁.toRuns.trans h₂.grows.toRuns).trans h₃.toRuns, h₃.pool, ?_, ?_, ?_, ?_,
          ?_⟩
        · intro x hx hr hz
          rw [h₃.mem x hx hr, h₂.grows.mem x hx (.inl hr), h₁.mem x hx hr (.inl hz)]
        · intro x hx
          rw [← hacc x hx]
          refine h₃.accounts (fun v hv => ?_) hx
          exact Nat.lt_trans (hbelow v hv) (Nat.lt_of_le_of_lt hsmall (by decide))
        · exact h₃.refused (h₂.short rfl)
        · exact h₃.sameMissed.trans (h₂.missed.trans h₁.sameMissed)
        · intro hd x hhead
          have hpml4 : A₂.pml4 = x := by
            rw [h₂.grows.pml4]
            exact Option.some.inj ((h₁.first hd).1.symm.trans hhead)
          have hx : x ∈ s.free := List.mem_of_mem_head? hhead
          have hx0 : x ≠ 0 := h.ne_zero (h.free x hx).2.2
          rw [h₃.sameLost, hpml4]
          simp [hx0]

theorem copyuvm_spec {sz : Nat} (h : s.Pool rest) (hP : Lives s P rest) (hcr3 : s.cr3 = P.dir)
    (hc : Covers P (pgup sz)) (hsz : 0 < pgup sz) {Q : Option Nat → State → Prop}
    {E : Stop → State → Prop} (hnone : ∀ s', NoSpace rest (P.leaf 0) s s' → Q none s')
    (hsome : ∀ A s', Copy rest P (pgup sz) (P.leaf 0) s A s' → Q (some A.dir) s') :
    wp (copyuvm P.dir sz) Q E s := by
  have h0 : P.leaf 0 ≠ 0 := (hc 0).2 hsz
  exact copyuvm_at h hP (hP.pages (.leaf 0) h0) (.inl (hP.nullPage hcr3 h0))
    (fun _ _ hdata => hdata 0) hc hnone hsome

end Copy

/-! ## `clearpteu` -/

section Guard

variable {s s' : State} {A A' : Space} {rest : Nat → Prop} {v : Nat}

/-- `PTE_FLAGS` without `PTE_U`. -/
def withoutUser (f : Nat) : Nat := if User f then f - PTE_U else f

/-- The user can no longer use the page at `v`. -/
def Space.guard (A : Space) (v : Nat) : Space :=
  { A with flags := Function.update A.flags v (withoutUser (A.flags v)) }

theorem Space.page_guard (A : Space) (v : Nat) : (A.guard v).page = A.page := by
  funext r
  cases r <;> rfl

/-- The entry of the page at `v` loses `PTE_U`. -/
theorem Owns.guard (h : Owns s A rest) (ht : A.table (v / 512) ≠ 0) {w : Nat}
    (hw : w = s.mem (A.table (v / 512)) (v % 512)) :
    Owns { s with
        mem := storeWord s.mem (A.table (v / 512)) (v % 512) (if User w then w - PTE_U else w) }
      (A.guard v) rest := by
  have hdir : ∀ j, A.dir ≠ A.table j := fun j => h.page_ne .dir (.table j) nofun h.dir
  have htable : ∀ i j, A.table i ≠ 0 → A.table i = A.table j → i = j := by
    intro i j hi hij
    exact Role.table.inj (h.excl.inj (.table i) (.table j) hi hij)
  have hsplit : ∀ u, u / 512 = v / 512 → u % 512 = v % 512 → u = v := by
    intro u hd hm
    omega
  refine ⟨?_, ?_, h.dir, h.pool.kend, h.pool.nodup, h.pool.free, h.pool.lost⟩
  · obtain ⟨h1, h2, h3, h4, h5, h6, h7⟩ := h.maps
    have hnone : A.leaf v = 0 → (if User w then w - PTE_U else w) = 0 := by
      intro hl
      rw [hw, h3 v ht hl]
      rfl
    have hsome : A.leaf v ≠ 0 → (if User w then w - PTE_U else w) =
        A.leaf v * PGSIZE + withoutUser (A.flags v) := by
      intro hl
      have hlt := (h5 v hl).2
      rw [hw, (h4 v hl).2]
      simp only [withoutUser, User, PTE_U, PGSIZE] at *
      split <;> split <;> omega
    have hflags : A.leaf v ≠ 0 → withoutUser (A.flags v) % 2 = 1 ∧
        withoutUser (A.flags v) < PGSIZE := by
      intro hl
      obtain ⟨hodd, hlt⟩ := h5 v hl
      simp only [withoutUser, User, PTE_U, PGSIZE] at *
      split <;> omega
    constructor <;> simp only [Space.guard, storeWord, Function.update_apply] <;> grind
  · rw [Space.page_guard]
    exact h.excl

theorem clearpteu_spec (h : Owns s A rest) (hv : v < VPAGES) (ht : A.table (v / 512) ≠ 0)
    {Q : Unit → State → Prop} {E : Stop → State → Prop}
    (hQ : ∀ m, Owns { s with mem := m } (A.guard v) rest → m 0 = s.mem 0 →
      (∀ x, x ≠ 0 → rest x ∨ (∃ u, A.leaf u = x) → m x = s.mem x) → Q () { s with mem := m }) :
    wp (clearpteu A.dir v) Q E s := by
  unfold clearpteu
  rw [wp_bind]
  refine walkpgdir_lookup h hv (fun hnone => absurd hnone ht) fun _ => ?_
  dsimp only
  rw [wp_bind]
  refine wp_load (h.linear (.table _)) ?_
  refine wp_store (h.linear (.table _)) (hQ _ (h.guard ht rfl) (storeWord_of_ne ht.symm)
    fun x hx hr => ?_)
  have hxt : x ≠ A.table (v / 512) := by
    rintro rfl
    rcases hr with hr | ⟨u, hu⟩
    · exact (h.excl.held (.table (v / 512)) ht).2.2.1 hr
    · exact h.page_ne (.table (v / 512)) (.leaf u) nofun ht hu.symm
  exact storeWord_of_ne hxt

end Guard

/-! ## A process with one page -/

/-- A process with one page. -/
def onePage : Space where
  dir := 10
  pml4 := 11
  pdpt := 12
  table i := if i = 0 then 13 else 0
  leaf v := if v = 0 then 14 else 0
  flags _ := 7

/-- The memory that holds it. -/
def onePageMem (p k : Nat) : Nat :=
  if p = 10 ∧ k = 0 then 13 * PGSIZE + 7
  else if p = 10 ∧ k = 511 then back (some 11)
  else if p = 10 ∧ k = 510 then back (some 12)
  else if p = 13 ∧ k = 0 then 14 * PGSIZE + 7
  else 0

/-- It runs, and there are other pages. -/
def onePageState (free : List Nat) : State :=
  { mem := onePageMem, free, denials := [], cr3 := 10, kend := 10, kpdpt := 5, lost := [],
    missed := false, refused := false }

theorem onePage_page (r : Role) :
    onePage.page r ≠ 0 → 10 ≤ onePage.page r ∧ onePage.page r < 15 := by
  cases r <;> simp only [Space.page, onePage] <;> (try split) <;> omega

theorem owns_onePage {free : List Nat} (hnodup : free.Nodup)
    (hfree : ∀ x ∈ free, 15 ≤ x ∧ x < NPAGES) :
    Owns (onePageState free) onePage fun x => x < 10 := by
  refine ⟨⟨?_, ?_, ?_, ?_, ?_, rfl, rfl⟩, ⟨?_, ?_⟩, by decide, Nat.succ_pos 9, hnodup, ?_,
    by rintro _ ⟨⟩⟩
  · intro i hi ht
    have hi0 : i ≠ 0 := by
      rintro rfl
      cases ht
    show ¬Present (onePageMem 10 i)
    simp only [onePageMem, hi0, and_false, if_false]
    rw [if_neg (by omega), if_neg (by omega)]
    decide
  · intro i ht
    have hi0 : i = 0 := by
      by_contra hi0
      exact ht (if_neg hi0)
    subst hi0
    exact ⟨by decide, rfl⟩
  · intro v ht hv
    have hv0 : v ≠ 0 := by
      rintro rfl
      cases hv
    have hdiv : v / 512 = 0 := by
      by_contra hi0
      exact ht (if_neg hi0)
    show onePageMem (if v / 512 = 0 then 13 else 0) (v % 512) = 0
    rw [if_pos hdiv, onePageMem, if_neg (by omega), if_neg (by omega), if_neg (by omega),
      if_neg (by omega)]
  · intro v hv
    have hv0 : v = 0 := by
      by_contra hv0
      exact hv (if_neg hv0)
    subst hv0
    exact ⟨by decide, rfl⟩
  · exact fun v _ => ⟨show 7 % 2 = 1 by decide, show 7 < PGSIZE by decide⟩
  · intro r r' hr heq
    cases r <;> cases r' <;> simp only [Space.page, onePage] at hr heq ⊢ <;> grind
  · intro r hr
    obtain ⟨h1, h2⟩ := onePage_page r hr
    exact ⟨fun hmem => by have := hfree _ hmem; omega, by rintro ⟨⟩, by omega, h1, by
      simp only [NPAGES]; omega⟩
  · intro x hx
    have := hfree x hx
    exact ⟨by rintro ⟨⟩, by omega, by show 10 ≤ x; omega, this.2⟩

end Xv6.Kernel.Vm
