import Xv6.Kernel.Uvm

/-!
# Page tables as maps

A page directory that `setupkvm` has built is a partial map from pages to pages with permissions,
and `mappages` extends it, whatever is mapped and whenever `kalloc` fails.  Unlike in `Paging` the
pages that are mapped need not be the directory's own.

* `page_map`: what any call of `mappages` does to the map, after any others.
-/

namespace Xv6.Kernel.Vm.PageMap

open Xv6.Verified
open Exec

/-! ## The map -/

/-- Page `t` is the page table of virtual page `v`. -/
def TableAt (m : Nat → Nat → Nat) (d v t : Nat) : Prop :=
  v / 512 < 510 ∧ Present (m d (v / 512)) ∧ pteAddr (m d (v / 512)) = t

/-- Page `v` has a page table. -/
def HasTable (m : Nat → Nat → Nat) (d v : Nat) : Prop := ∃ t, TableAt m d v t

/-- The directory, its page tables and the free pages are different pages. -/
structure Apart (d : Nat) (s : State) : Prop where
  dir : d < LINEAR
  table : ∀ v t, TableAt s.mem d v t → t < LINEAR ∧ t ≠ d
  inj : ∀ v w t, TableAt s.mem d v t → TableAt s.mem d w t → v / 512 = w / 512
  nodup : s.free.Nodup
  free : ∀ x ∈ s.free, x < LINEAR ∧ x ≠ d ∧ ∀ v, ¬TableAt s.mem d v x

/-- A call of `mappages` for pages that are not mapped. -/
structure Request (s : State) (d va size perm : Nat) : Prop where
  start : va % PGSIZE = 0
  whole : size % PGSIZE = 0
  pos : 0 < size
  limit : va + size ≤ VPAGES * PGSIZE
  perm : perm < PGSIZE
  new : ∀ v, va ≤ v * PGSIZE → v * PGSIZE < va + size → lookup s.mem d v = none

/-- Directory `d` has been built by `setupkvm`, and `mappages` has been called any number of
times, whether it succeeded or not. -/
inductive Reached (d : Nat) : State → Prop
  | setup {s s' : State} {rest : Nat → Prop} {z : Nat} (pool : s.Pool rest) (null : rest z)
      (page : NullPage s z ∨ Spares 3 s.denials ∧ 3 ≤ s.free.length)
      (run : setupkvm.run s = .ok (some d) s') : Reached d s'
  | call {s s' : State} {va size p perm : Nat} {r : Bool} (before : Reached d s)
      (request : Request s d va size perm) (run : (mappages d va size p perm).run s = .ok r s') :
      Reached d s'

/-- The next `n` calls of `kalloc` succeed. -/
def Grants (n : Nat) (s : State) : Prop := Spares n s.denials ∧ n ≤ s.free.length

variable {d v w u t n p perm x : Nat} {s s' : State} {m m' : Nat → Nat → Nat}

theorem Grants.mono {n' : Nat} (h : Grants n s) (hle : n' ≤ n) : Grants n' s :=
  ⟨fun b hb => h.1 b ((List.take_subset_take_left _ hle) hb), Nat.le_trans hle h.2⟩

theorem TableAt.eq (h : TableAt m d v t) (h' : TableAt m d v u) : t = u := h.2.2.symm.trans h'.2.2

theorem TableAt.of_div (h : TableAt m d v t) (hdiv : v / 512 = w / 512) : TableAt m d w t := by
  unfold TableAt at *
  rwa [← hdiv]

theorem lookup_tableAt (h : TableAt m d v t) : lookup m d v =
    if Present (m t (v % 512)) then some (pteAddr (m t (v % 512)), pteFlags (m t (v % 512)))
    else none := by
  rw [lookup, if_pos ⟨h.1, h.2.1⟩, h.2.2]

theorem lookup_noTable (h : ¬HasTable m d v) : lookup m d v = none :=
  if_neg fun hp => h ⟨_, hp.1, hp.2, rfl⟩

theorem tableAt_congr (hdir : ∀ i < 510, m' d i = m d i) : TableAt m' d v t ↔ TableAt m d v t := by
  unfold TableAt
  refine and_congr_right fun hv => ?_
  rw [hdir _ hv]

/-- A store to the entry of page `v`. -/
theorem Apart.store (h : Apart d s) (hv : TableAt s.mem d v t) (pte : Nat) :
    Apart d { s with mem := storeWord s.mem t (v % 512) pte } ∧
    (∀ i, storeWord s.mem t (v % 512) pte d i = s.mem d i) ∧
    lookup (storeWord s.mem t (v % 512) pte) d v =
      (if Present pte then some (pteAddr pte, pteFlags pte) else none) ∧
    ∀ w ≠ v, lookup (storeWord s.mem t (v % 512) pte) d w = lookup s.mem d w := by
  have hdir : ∀ i, storeWord s.mem t (v % 512) pte d i = s.mem d i := fun i =>
    if_neg fun heq => (h.table v t hv).2 heq.1.symm
  have hcov : ∀ w u, TableAt (storeWord s.mem t (v % 512) pte) d w u ↔ TableAt s.mem d w u :=
    fun w u => tableAt_congr fun i _ => hdir i
  refine ⟨?_, hdir, ?_, fun w hne => ?_⟩
  · exact ⟨h.dir, fun w u hw => h.table w u ((hcov w u).1 hw),
      fun w w' u hw hw' => h.inj w w' u ((hcov w u).1 hw) ((hcov w' u).1 hw'), h.nodup,
      fun x hx => ⟨(h.free x hx).1, (h.free x hx).2.1, fun w hw =>
        (h.free x hx).2.2 w ((hcov w x).1 hw)⟩⟩
  · have hself : storeWord s.mem t (v % 512) pte t (v % 512) = pte := if_pos ⟨rfl, rfl⟩
    rw [lookup_tableAt ((hcov v t).2 hv), hself]
  · by_cases hw : HasTable s.mem d w
    · obtain ⟨u, hu⟩ := hw
      have hother : storeWord s.mem t (v % 512) pte u (w % 512) = s.mem u (w % 512) := by
        refine if_neg ?_
        rintro ⟨rfl, hmod⟩
        have := h.inj w v u hu hv
        omega
      rw [lookup_tableAt ((hcov w u).2 hu), lookup_tableAt hu, hother]
    · rw [lookup_noTable hw, lookup_noTable]
      rintro ⟨u, hu⟩
      exact hw ⟨u, (hcov w u).1 hu⟩

/-! ## `walkpgdir` -/

/-- `walkpgdir` without allocation finds the entry of a page that has a page table. -/
theorem walkpgdir_find (h : Apart d s) (hv : v < VPAGES) {Q : Option (Nat × Nat) → State → Prop}
    {E : Stop → State → Prop} (hnone : ¬HasTable s.mem d v → Q none s)
    (hsome : ∀ t, TableAt s.mem d v t → Q (some (t, v % 512)) s) :
    wp (walkpgdir d v false) Q E s := by
  have hdiv : v / 512 < 510 := by
    simp only [VPAGES] at hv
    omega
  unfold walkpgdir
  rw [wp_bind]
  refine wp_load h.dir ?_
  rw [pdx_eq hv, wp_ite]
  refine ⟨fun hp => ?_, fun hp => ?_⟩
  · rw [wp_pure]
    exact hsome _ ⟨hdiv, hp, rfl⟩
  · rw [if_neg (by decide), wp_pure]
    exact hnone fun hc => hp hc.choose_spec.2.1

/-- What a walk with allocation leaves. -/
structure Walked (d v : Nat) (s s' : State) : Prop where
  apart : Apart d s'
  same : ∀ w, lookup s'.mem d w = lookup s.mem d w
  upper : ∀ i, 510 ≤ i → s'.mem d i = s.mem d i
  kept : ∀ w, HasTable s.mem d w → HasTable s'.mem d w
  made : ∀ w, HasTable s'.mem d w → HasTable s.mem d w ∨ w / 512 = v / 512
  grants : ∀ n, Grants (n + 1) s → Grants n s'

theorem Walked.of_mem (h : Apart d s) (hmem : s'.mem = s.mem) (hfree : s'.free = s.free)
    (hgrants : ∀ n, Grants (n + 1) s → Grants n s') : Walked d v s s' := by
  refine ⟨⟨h.dir, ?_, ?_, ?_, ?_⟩, ?_, ?_, ?_, ?_, hgrants⟩
  · rw [hmem]
    exact h.table
  · rw [hmem]
    exact h.inj
  · rw [hfree]
    exact h.nodup
  · rw [hfree, hmem]
    exact h.free
  all_goals rw [hmem]
  · exact fun _ => rfl
  · exact fun _ _ => rfl
  · exact fun _ hw => hw
  · exact fun _ hw => .inl hw

/-- A free page becomes the page table of page `v`. -/
theorem Walked.of_new (h : Apart d s) (hv : v / 512 < 510) (hno : ¬HasTable s.mem d v)
    (hfree : s.free = x :: s'.free)
    (hmem : s'.mem = storeWord (Function.update s.mem x fun _ => 0) d (v / 512) (x * PGSIZE + 7))
    (hgrants : ∀ n, Grants (n + 1) s → Grants n s') :
    Walked d v s s' ∧ TableAt s'.mem d v x := by
  obtain ⟨hlinear, hxd, hxt⟩ := h.free x (by rw [hfree]; exact List.mem_cons_self)
  have hself : s'.mem d (v / 512) = x * PGSIZE + 7 := by
    rw [hmem, storeWord, if_pos ⟨rfl, rfl⟩]
  have hdir : ∀ i, i ≠ v / 512 → s'.mem d i = s.mem d i := fun i hi => by
    rw [hmem, storeWord, if_neg fun heq => hi heq.2, Function.update_of_ne hxd.symm]
  have hblank : s'.mem x = fun _ => 0 := by
    funext j
    rw [hmem, storeWord, if_neg fun heq => hxd heq.1, Function.update_self]
  have hpage : ∀ y, y ≠ d → y ≠ x → s'.mem y = s.mem y := fun y hyd hyx => by
    funext j
    rw [hmem, storeWord, if_neg fun heq => hyd heq.1, Function.update_of_ne hyx]
  have hnew : TableAt s'.mem d v x :=
    ⟨hv, by rw [hself]; exact present_table, by rw [hself]; exact pteAddr_table (by decide)⟩
  have hold : ∀ w u, w / 512 ≠ v / 512 → (TableAt s'.mem d w u ↔ TableAt s.mem d w u) :=
    fun w u hw => by
      unfold TableAt
      rw [hdir _ hw]
  have hcases : ∀ w u, TableAt s'.mem d w u →
      w / 512 = v / 512 ∧ u = x ∨ w / 512 ≠ v / 512 ∧ TableAt s.mem d w u := by
    intro w u hw
    by_cases hdiv : w / 512 = v / 512
    · exact .inl ⟨hdiv, hw.eq (hnew.of_div hdiv.symm)⟩
    · exact .inr ⟨hdiv, (hold w u hdiv).1 hw⟩
  have hnodup : x ∉ s'.free ∧ s'.free.Nodup := by
    rw [← List.nodup_cons, ← hfree]
    exact h.nodup
  refine ⟨⟨⟨h.dir, ?_, ?_, hnodup.2, ?_⟩, ?_, ?_, ?_, ?_, hgrants⟩, hnew⟩
  · intro w u hw
    rcases hcases w u hw with ⟨-, rfl⟩ | ⟨-, hw⟩
    · exact ⟨hlinear, hxd⟩
    · exact h.table w u hw
  · intro w w' u hw hw'
    rcases hcases w u hw with ⟨hdiv, rfl⟩ | ⟨-, hw⟩
    · rcases hcases w' u hw' with ⟨hdiv', -⟩ | ⟨-, hw'⟩
      · exact hdiv.trans hdiv'.symm
      · exact absurd hw' (hxt w')
    · rcases hcases w' u hw' with ⟨-, rfl⟩ | ⟨-, hw'⟩
      · exact absurd hw (hxt w)
      · exact h.inj w w' u hw hw'
  · intro y hy
    obtain ⟨hylinear, hyd, hyt⟩ := h.free y (by rw [hfree]; exact List.mem_cons_of_mem _ hy)
    refine ⟨hylinear, hyd, fun w hw => ?_⟩
    rcases hcases w y hw with ⟨-, rfl⟩ | ⟨-, hw⟩
    · exact hnodup.1 hy
    · exact hyt w hw
  · intro w
    by_cases hdiv : w / 512 = v / 512
    · have hnone : ¬HasTable s.mem d w := by
        rintro ⟨u, hu⟩
        exact hno ⟨u, hu.of_div hdiv⟩
      rw [lookup_noTable hnone, lookup_tableAt (hnew.of_div hdiv.symm), hblank,
        if_neg (by simp)]
    · by_cases hw : HasTable s.mem d w
      · obtain ⟨u, hu⟩ := hw
        have hux : u ≠ x := by
          rintro rfl
          exact hxt w hu
        rw [lookup_tableAt ((hold w u hdiv).2 hu), lookup_tableAt hu,
          hpage u (h.table w u hu).2 hux]
      · rw [lookup_noTable hw, lookup_noTable]
        rintro ⟨u, hu⟩
        exact hw ⟨u, (hold w u hdiv).1 hu⟩
  · exact fun i hi => hdir i (by omega)
  · rintro w ⟨u, hu⟩
    by_cases hdiv : w / 512 = v / 512
    · exact ⟨x, hnew.of_div hdiv.symm⟩
    · exact ⟨u, (hold w u hdiv).2 hu⟩
  · rintro w ⟨u, hu⟩
    rcases hcases w u hu with ⟨hdiv, -⟩ | ⟨-, hw⟩
    · exact .inr hdiv
    · exact .inl ⟨u, hw⟩

/-- `walkpgdir` with allocation. -/
theorem walkpgdir_make (h : Apart d s) (hv : v < VPAGES) {Q : Option (Nat × Nat) → State → Prop}
    {E : Stop → State → Prop} (hnone : ∀ s', Walked d v s s' → ¬Grants 1 s → Q none s')
    (hsome : ∀ t s', Walked d v s s' → TableAt s'.mem d v t → Q (some (t, v % 512)) s') :
    wp (walkpgdir d v true) Q E s := by
  have hdiv : v / 512 < 510 := by
    simp only [VPAGES] at hv
    omega
  unfold walkpgdir
  rw [wp_bind]
  refine wp_load h.dir ?_
  rw [pdx_eq hv, wp_ite]
  refine ⟨fun hp => ?_, fun hp => ?_⟩
  · rw [wp_pure]
    exact hsome _ s (.of_mem h rfl rfl fun n hn => hn.mono (by omega)) ⟨hdiv, hp, rfl⟩
  · have hno : ¬HasTable s.mem d v := by
      rintro ⟨u, hu⟩
      exact hp hu.2.1
    rw [if_pos rfl, wp_bind]
    refine wp_kalloc fun q s₁ h₁ => ?_
    have hmem : s₁.mem = s.mem := by rw [h₁.same]
    cases q with
    | none =>
        rw [wp_pure]
        refine hnone s₁ (.of_mem h hmem h₁.free.symm fun n hn => ⟨?_, ?_⟩) fun hone => ?_
        · rw [h₁.denials]
          exact hn.1.tail
        · have hlen := hn.2
          rw [h₁.free] at hlen
          exact Nat.le_trans (Nat.le_succ n) hlen
        · rcases h₁.isNone rfl with hempty | hdenied
          · have hlen := hone.2
            rw [hempty] at hlen
            cases hlen
          · exact hone.1.head hdenied
    | some q =>
        dsimp only
        rw [wp_bind, fill, wp_modify, wp_bind]
        refine wp_store h.dir ?_
        rw [wp_pure]
        have hwalked : ∀ s₂ : State, s₂.free = s₁.free → s₂.denials = s₁.denials →
            s₂.mem = storeWord (Function.update s₁.mem q fun _ => 0) d (v / 512)
              (mkPte q (PTE_W ||| PTE_U)) →
            Walked d v s s₂ ∧ TableAt s₂.mem d v q := by
          intro s₂ hfree₂ hdenials₂ hmem₂
          refine Walked.of_new h hdiv hno (by rw [hfree₂]; exact h₁.free) ?_ fun n hn => ⟨?_, ?_⟩
          · rw [hmem₂, hmem]
            rfl
          · rw [hdenials₂, h₁.denials]
            exact hn.1.tail
          · have hlen := hn.2
            rw [h₁.free] at hlen
            rw [hfree₂]
            exact Nat.le_of_succ_le_succ hlen
        exact hsome q _ (And.left (hwalked _ rfl rfl rfl)) (And.right (hwalked _ rfl rfl rfl))

/-! ## `mappages` -/

/-- What `mappages` has done to the map when it returns `r`. -/
structure Mapped (d perm v n p : Nat) (s : State) (r : Bool) (s' : State) : Prop where
  apart : Apart d s'
  mapped : r = true → ∀ i < n, lookup s'.mem d (v + i) = some (p + i, perm ||| PTE_P)
  same : ∀ w, w < v ∨ v + n ≤ w → lookup s'.mem d w = lookup s.mem d w
  upper : ∀ i, 510 ≤ i → s'.mem d i = s.mem d i
  kept : ∀ w, HasTable s.mem d w → HasTable s'.mem d w
  made : ∀ w, HasTable s'.mem d w → HasTable s.mem d w ∨ ∃ i < n, w / 512 = (v + i) / 512
  succeeds : Grants n s → r = true

/-- The entry that `mappages` makes. -/
theorem mkPte_entry (hperm : perm < PGSIZE) : Present (mkPte p perm) ∧
    pteAddr (mkPte p perm) = p ∧ pteFlags (mkPte p perm) = perm ||| PTE_P := by
  have hlt : perm ||| PTE_P < 2 ^ 12 := Nat.or_lt_two_pow hperm (by decide)
  have hodd : (perm ||| PTE_P) % 2 = 1 := Nat.or_mod_two_eq_one.2 (.inr rfl)
  simp only [Present, mkPte, pteAddr, pteFlags, PGSIZE] at *
  omega

theorem mappagesLoop_spec (h : Apart d s) (hv : v + n ≤ VPAGES) (hperm : perm < PGSIZE)
    (hnew : ∀ i < n, lookup s.mem d (v + i) = none) :
    wp (mappagesLoop d perm n v p) (Mapped d perm v n p s) (fun _ _ => False) s := by
  induction n generalizing v p s with
  | zero =>
      rw [mappagesLoop, wp_pure]
      exact ⟨h, by simp, fun _ _ => rfl, fun _ _ => rfl, fun _ hw => hw, fun _ hw => .inl hw,
        fun _ => rfl⟩
  | succ n ih =>
      rw [mappagesLoop, wp_bind]
      refine walkpgdir_make h (by omega) (fun s₁ hs₁ hdenied => ?_) fun t s₁ hs₁ ht => ?_
      · rw [wp_pure]
        refine ⟨hs₁.apart, by simp, fun w _ => hs₁.same w, hs₁.upper, hs₁.kept, fun w hw => ?_,
          fun hgrants => absurd (hgrants.mono (by omega)) hdenied⟩
        exact (hs₁.made w hw).imp_right fun hdiv => ⟨0, by omega, hdiv⟩
      · dsimp only
        rw [wp_bind]
        refine wp_load (hs₁.apart.table v t ht).1 ?_
        have habsent : ¬Present (s₁.mem t (v % 512)) := by
          intro hp
          have hnone := (hs₁.same v).trans (hnew 0 (by omega))
          rw [lookup_tableAt ht, if_pos hp] at hnone
          cases hnone
        rw [if_neg habsent, wp_bind]
        refine wp_store (hs₁.apart.table v t ht).1 ?_
        obtain ⟨hpresent, haddr, hflags⟩ := mkPte_entry (p := p) hperm
        obtain ⟨hapart, hdir, hself, hother⟩ := hs₁.apart.store ht (mkPte p perm)
        rw [if_pos hpresent, haddr, hflags] at hself
        have hcov : ∀ w, HasTable (storeWord s₁.mem t (v % 512) (mkPte p perm)) d w ↔
            HasTable s₁.mem d w :=
          fun w => exists_congr fun u => tableAt_congr fun i _ => hdir i
        refine wp_mono (ih hapart (by omega) fun i hi => ?_) (fun r s₃ hs₃ => ?_)
          fun _ _ hE => hE
        · rw [hother _ (by omega), hs₁.same, show v + 1 + i = v + (i + 1) by omega]
          exact hnew _ (by omega)
        · refine ⟨hs₃.apart, fun hr i hi => ?_, fun w hw => ?_, fun i hi => ?_, fun w hw => ?_,
            fun w hw => ?_, fun hgrants => hs₃.succeeds (hs₁.grants n hgrants)⟩
          · cases i with
            | zero =>
                rw [Nat.add_zero, Nat.add_zero, hs₃.same v (by omega)]
                exact hself
            | succ i =>
                rw [show v + (i + 1) = v + 1 + i by omega, show p + (i + 1) = p + 1 + i by omega]
                exact hs₃.mapped hr i (by omega)
          · rw [hs₃.same w (by omega), hother w (by omega), hs₁.same]
          · rw [hs₃.upper i hi]
            exact (hdir i).trans (hs₁.upper i hi)
          · exact hs₃.kept w ((hcov w).2 (hs₁.kept w hw))
          · rcases hs₃.made w hw with hw | ⟨i, hi, hdiv⟩
            · exact (hs₁.made w ((hcov w).1 hw)).imp_right fun hdiv => ⟨0, by omega, hdiv⟩
            · exact .inr ⟨i + 1, by omega, by rw [hdiv]; congr 1; omega⟩

/-- A directory that has just been built has no page tables. -/
theorem setup_apart {rest : Nat → Prop} {z : Nat} (pool : s.Pool rest) (null : rest z)
    (page : NullPage s z ∨ Spares 3 s.denials ∧ 3 ≤ s.free.length)
    (run : setupkvm.run s = .ok (some d) s') :
    Apart d s' ∧ ∀ v, ¬HasTable s'.mem d v := by
  have hspec : wp setupkvm (fun r s' => ∀ d, r = some d →
      Apart d s' ∧ ∀ v, ¬HasTable s'.mem d v) (fun _ _ => True) s := by
    refine setupkvm_spec pool null page (fun s' _ d hd => by cases hd) fun A s' hs' d hd => ?_
    cases hd
    have hnone : ∀ v t, ¬TableAt s'.mem A.dir v t := fun v t ht =>
      hs'.owns.maps.noTable _ ht.1 (hs'.table _) ht.2.1
    have hdir : A.dir ∉ s'.free := (hs'.owns.excl.held .dir hs'.owns.dir).1
    refine ⟨⟨hs'.owns.linear .dir, fun v t ht => absurd ht (hnone v t),
      fun v w t ht => absurd ht (hnone v t), hs'.owns.pool.nodup, fun x hx => ⟨?_, ?_, ?_⟩⟩, ?_⟩
    · have hmanaged := (hs'.owns.pool.free x hx).2.2.2
      simp only [NPAGES, LINEAR] at *
      omega
    · rintro rfl
      exact hdir hx
    · exact fun v => hnone v x
    · rintro v ⟨t, ht⟩
      exact hnone v t ht
  exact ok_of_wp hspec run d rfl

theorem mappages_spec {va size : Nat} (h : Apart d s) (hr : Request s d va size perm) :
    wp (mappages d va size p perm)
      (Mapped d perm (va / PGSIZE) (size / PGSIZE) p s) (fun _ _ => False) s := by
  obtain ⟨hstart, hwhole, hpos, hlimit, hperm, hnew⟩ := hr
  have hcount : (va + size - 1) / PGSIZE - va / PGSIZE + 1 = size / PGSIZE := by
    simp only [PGSIZE] at *
    omega
  rw [mappages, hcount]
  refine mappagesLoop_spec h ?_ hperm fun i hi => hnew _ ?_ ?_
  all_goals
    simp only [PGSIZE, VPAGES] at *
    omega

/-- Every directory that is reached is apart from its tables and the free pages. -/
theorem Reached.apart (h : Reached d s) : Apart d s := by
  induction h with
  | setup pool null page run => exact (setup_apart pool null page run).1
  | call before request run ih => exact (ok_of_wp (mappages_spec ih request) run).apart

/-- A call of `mappages`, after any others, does not panic.  If it succeeds the pages of the range
are mapped, and it does if `kalloc` has a page for each; whether it does or not, the others are
mapped as before, and the last two entries of the directory and the page tables are still there.
`walkpgdir` without allocation finds the entry of a page exactly if there is a page table for it. -/
theorem page_map (h : Reached d s) :
    (∀ va size p perm, Request s d va size perm →
      wp (mappages d va size p perm) (fun r s' => Reached d s' ∧
        (Grants (size / PGSIZE) s → r = true) ∧
        (r = true → ∀ v, va ≤ v * PGSIZE → v * PGSIZE < va + size →
          lookup s'.mem d v = some (p + (v - va / PGSIZE), perm ||| PTE_P)) ∧
        (∀ v, v * PGSIZE < va ∨ va + size ≤ v * PGSIZE →
          lookup s'.mem d v = lookup s.mem d v) ∧
        s'.mem d 510 = s.mem d 510 ∧ s'.mem d 511 = s.mem d 511 ∧
        ∀ v, (HasTable s.mem d v → HasTable s'.mem d v) ∧
          (HasTable s'.mem d v → HasTable s.mem d v ∨
            ∃ w, va ≤ w * PGSIZE ∧ w * PGSIZE < va + size ∧ v / 512 = w / 512))
        (fun _ _ => False) s) ∧
    ∀ v < VPAGES, wp (walkpgdir d v false) (fun r s' => s' = s ∧
      ((∃ e, r = some e) ↔ HasTable s.mem d v) ∧
      ∀ t k, r = some (t, k) → TableAt s.mem d v t ∧ k = v % 512) (fun _ _ => False) s := by
  constructor
  · intro va size p perm hr
    have hspec := mappages_spec (p := p) h.apart hr
    cases hrun : (mappages d va size p perm).run s with
    | fail e s' => exact (fail_of_wp hspec hrun).elim
    | ok r s' =>
        have hs' := ok_of_wp hspec hrun
        have hstart := hr.start
        have hwhole := hr.whole
        refine wp_of_ok hrun ⟨h.call hr hrun, hs'.succeeds, fun hsuccess v hle hlt => ?_,
          fun v hv => ?_,
          hs'.upper 510 (by omega), hs'.upper 511 (by omega), fun v => ⟨hs'.kept v, fun hv => ?_⟩⟩
        · have hlookup := hs'.mapped hsuccess (v - va / PGSIZE)
            (by simp only [PGSIZE] at *; omega)
          rwa [Nat.add_sub_cancel' (by simp only [PGSIZE] at *; omega)] at hlookup
        · exact hs'.same v (by simp only [PGSIZE] at *; omega)
        · refine (hs'.made v hv).imp_right ?_
          rintro ⟨i, hi, hdiv⟩
          refine ⟨va / PGSIZE + i, ?_, ?_, hdiv⟩
          all_goals
            simp only [PGSIZE] at *
            omega
  · intro v hv
    refine walkpgdir_find h.apart hv (fun hno => ?_) fun t ht => ?_
    · exact ⟨rfl, iff_of_false (by simp) hno, by simp⟩
    · refine ⟨rfl, iff_of_true ⟨_, rfl⟩ ⟨t, ht⟩, fun t' k heq => ?_⟩
      cases heq
      exact ⟨ht, rfl⟩

/-- A machine with five free pages, none of which is in use. -/
def small : State := ⟨fun _ _ => 0, [10, 11, 12, 13, 14], [], 1, 5, 2, [], false, false⟩

theorem small_pool : small.Pool (· = 3) := by
  refine ⟨by decide, by decide, fun x hx => ⟨by simp [small], ?_, ?_⟩, by simp [small]⟩
  · rintro rfl
    revert hx
    decide
  · revert x
    decide

/-- The first call on a directory maps a page at address 0x1000. -/
theorem page_map_first : ∃ s, setupkvm.run small = .ok (some 12) s ∧
    wp (mappages 12 PGSIZE PGSIZE 100 PTE_W)
      (fun r s' => r = true ∧ lookup s'.mem 12 1 = some (100, 3)) (fun _ _ => False) s := by
  have hspares : Spares 3 small.denials ∧ 3 ≤ small.free.length :=
    ⟨by simp [Spares, small], by decide⟩
  obtain ⟨s, hs⟩ : ∃ s, setupkvm.run small = .ok (some 12) s := ⟨_, rfl⟩
  have hgrants : Grants (PGSIZE / PGSIZE) s := by
    cases hs
    exact ⟨by simp [Spares, small], by decide⟩
  have hblank := (setup_apart small_pool rfl (.inr hspares) hs).2
  have hreached : Reached 12 s := .setup small_pool rfl (.inr hspares) hs
  refine ⟨s, hs, wp_mono ((page_map hreached).1 PGSIZE PGSIZE 100 PTE_W ?_) ?_ fun _ _ h => h⟩
  · exact ⟨by decide, by decide, by decide, by decide, by decide,
      fun v _ _ => lookup_noTable (hblank v)⟩
  · exact fun r s' h => ⟨h.2.1 hgrants, h.2.2.1 (h.2.1 hgrants) 1 (by decide) (by decide)⟩

end Xv6.Kernel.Vm.PageMap
