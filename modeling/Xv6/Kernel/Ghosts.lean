import Xv6.Kernel.Elf

/-!
# What the allocator remembers

`missed` and `refused` are never taken back, and `allocuvm` goes on without a page table only
if `kalloc` has failed.
-/

namespace Xv6.Kernel.Vm

open Xv6.Verified
open Exec

/-- The two flags only go up, and `missed` not alone. -/
structure Steady (s s' : State) : Prop where
  missed : s.missed = true → s'.missed = true
  refused : s.refused = true → s'.refused = true
  only : (s.missed = true → s.refused = true) → s'.missed = true → s'.refused = true

instance : IsPreorder State Steady where
  refl _ := ⟨fun h => h, fun h => h, fun h => h⟩
  trans _ _ _ h h' :=
    ⟨fun hm => h'.missed (h.missed hm), fun hr => h'.refused (h.refused hr),
      fun hs => h'.only (h.only hs)⟩

/-- Steps that touch neither of the flags. -/
theorem Steady.of_eq {s s' : State} (hm : s'.missed = s.missed) (hr : s'.refused = s.refused) :
    Steady s s' := by
  refine ⟨fun h => hm.trans h, fun h => hr.trans h, fun h h' => ?_⟩
  rw [hr]
  exact h (hm ▸ h')

theorem load_steady (p k : Nat) : Preserves Steady (load p k) :=
  .ite (.stop _) (.bind .get fun _ => .pure _)

theorem store_steady (p k w : Nat) : Preserves Steady (store p k w) :=
  .ite (.stop _) (.modify fun _ => .of_eq rfl rfl)

theorem fill_steady (p : Nat) (c : Nat → Nat) : Preserves Steady (fill p c) :=
  .modify fun _ => .of_eq rfl rfl

theorem lose_steady (p : Nat) : Preserves Steady (lose p) := .modify fun _ => .of_eq rfl rfl

theorem kfree_steady (p : Nat) : Preserves Steady (kfree p) :=
  .bind .get fun _ => .ite (.bind (fill_steady p _) fun _ => .modify fun _ => .of_eq rfl rfl)
    (.stop _)

/-- `kalloc` has failed. -/
theorem Steady.refuse (s : State) (ds : List Bool) :
    Steady s { s with denials := ds, refused := true } :=
  ⟨fun h => h, fun _ => rfl, fun _ _ => rfl⟩

/-- What `kalloc` leaves behind. -/
theorem wp_kalloc_steady {s : State} {Q : Option Nat → State → Prop} {E : Stop → State → Prop}
    (hnone : ∀ s', Steady s s' → s'.refused = true → Q none s')
    (hsome : ∀ p s', Steady s s' → Q (some p) s') : wp kalloc Q E s := by
  unfold kalloc
  rw [wp_bind, wp_get]
  split
  · rw [wp_bind, wp_modify, wp_pure]
    exact hnone _ (.refuse s _) rfl
  · rw [wp_bind, wp_modify, wp_pure]
    exact hnone _ (.refuse s _) rfl
  · rw [wp_bind, wp_modify, wp_pure]
    exact hsome _ _ (.of_eq rfl rfl)

theorem kalloc_steady : Preserves Steady kalloc :=
  ⟨fun _ => wp_kalloc_steady (fun _ h _ => h) fun _ _ h => h⟩

theorem target_steady (p : Option Nat) : Preserves Steady (target p) := by
  cases p with
  | some p => exact .pure p
  | none =>
      exact .bind .get fun s =>
        .ite (.bind (load_steady _ _) fun _ => .ite (.pure _) (.stop _)) (.stop _)

theorem setupTables_steady (pml4 pdpt pgdir : Option Nat) :
    Preserves Steady (setupTables pml4 pdpt pgdir) :=
  .bind (target_steady _) fun _ => .bind (target_steady _) fun _ => .bind (target_steady _) fun _ =>
  .bind (fill_steady _ _) fun _ => .bind (fill_steady _ _) fun _ => .bind (fill_steady _ _) fun _ =>
  .bind .get fun _ => .bind (store_steady _ _ _) fun _ => .bind (store_steady _ _ _) fun _ =>
  .bind (store_steady _ _ _) fun _ => .bind (store_steady _ _ _) fun _ => store_steady _ _ _

theorem setupkvm_steady : Preserves Steady setupkvm :=
  .bind kalloc_steady fun _ => .bind kalloc_steady fun _ => .bind kalloc_steady fun _ =>
  .bind (setupTables_steady _ _ _) fun _ =>
  .ite (.bind (.modify fun _ => .of_eq rfl rfl) fun _ => .pure _) (.pure _)

/-- Moving on from a first part of the computation. -/
theorem wp_steady {α : Type} {m : M α} (hm : Preserves Steady m) {s s₁ : State}
    {Q : α → State → Prop} (hs : Steady s s₁) (hQ : ∀ a s', Steady s s' → Q a s') :
    wp m Q (fun _ s' => Steady s s') s₁ :=
  wp_mono (hm.wp s₁) (fun a s' h => hQ a s' (trans_of Steady hs h)) fun _ _ h =>
    trans_of Steady hs h

/-- A missing page table is the allocator's doing. -/
theorem wp_walkpgdir_steady (pgdir v : Nat) (alloc : Bool) (s : State) :
    wp (walkpgdir pgdir v alloc)
      (fun r s' => Steady s s' ∧ (alloc = true → r = none → s'.refused = true))
      (fun _ s' => Steady s s') s := by
  unfold walkpgdir
  rw [wp_bind]
  refine wp_steady (load_steady _ _) (refl_of Steady s) fun pde s₁ h₁ => ?_
  rw [wp_ite]
  refine ⟨fun _ => ?_, fun _ => ?_⟩
  · rw [wp_pure]
    exact ⟨h₁, fun _ => nofun⟩
  · rw [wp_ite]
    refine ⟨fun _ => ?_, fun hno => ?_⟩
    · rw [wp_bind]
      refine wp_kalloc_steady (fun s₂ h₂ hr => ?_) fun p s₂ h₂ => ?_
      · rw [wp_pure]
        exact ⟨trans_of Steady h₁ h₂, fun _ _ => hr⟩
      · dsimp only
        rw [wp_bind]
        refine wp_steady (fill_steady _ _) (trans_of Steady h₁ h₂) fun _ s₃ h₃ => ?_
        rw [wp_bind]
        refine wp_steady (store_steady _ _ _) h₃ fun _ s₄ h₄ => ?_
        rw [wp_pure]
        exact ⟨h₄, fun _ => nofun⟩
    · rw [wp_pure]
      exact ⟨h₁, fun hyes => absurd hyes hno⟩

theorem walkpgdir_steady (pgdir v : Nat) (alloc : Bool) :
    Preserves Steady (walkpgdir pgdir v alloc) :=
  ⟨fun s => wp_imp (wp_walkpgdir_steady pgdir v alloc s) fun _ _ h => h.1⟩

theorem wp_mappagesLoop_steady (pgdir perm n : Nat) : ∀ (v p : Nat) (s : State),
    wp (mappagesLoop pgdir perm n v p)
      (fun r s' => Steady s s' ∧ (r = false → s'.refused = true)) (fun _ s' => Steady s s') s := by
  induction n with
  | zero =>
      intro v p s
      rw [mappagesLoop, wp_pure]
      exact ⟨refl_of Steady s, nofun⟩
  | succ n ih =>
      intro v p s
      rw [mappagesLoop, wp_bind]
      refine wp_imp (wp_walkpgdir_steady pgdir v true s) ?_
      rintro (- | ⟨t, k⟩) s₁ ⟨h₁, hr⟩
      · dsimp only
        rw [wp_pure]
        exact ⟨h₁, fun _ => hr rfl rfl⟩
      · dsimp only
        rw [wp_bind]
        refine wp_steady (load_steady _ _) h₁ fun pte s₂ h₂ => ?_
        rw [wp_ite]
        refine ⟨fun _ => ?_, fun _ => ?_⟩
        · rw [wp_stop]
          exact h₂
        · rw [wp_bind]
          refine wp_steady (store_steady _ _ _) h₂ fun _ s₃ h₃ => ?_
          exact wp_mono (ih _ _ s₃) (fun _ _ h => ⟨trans_of Steady h₃ h.1, h.2⟩) fun _ _ h =>
            trans_of Steady h₃ h

theorem deallocLoop_steady (pgdir fuel limit : Nat) : ∀ v : Nat,
    Preserves Steady (deallocLoop pgdir fuel v limit) := by
  induction fuel with
  | zero => exact fun v => .pure ()
  | succ fuel ih =>
      intro v
      refine .ite (.pure ()) (.bind (walkpgdir_steady _ _ _) fun r => ?_)
      rcases r with - | ⟨t, k⟩
      · exact ih _
      · refine .bind (load_steady _ _) fun _ => .ite (.ite (.stop _) ?_) (ih _)
        exact .bind (kfree_steady _) fun _ => .bind (store_steady _ _ _) fun _ => ih _

theorem deallocuvm_steady (pgdir oldsz newsz : Nat) :
    Preserves Steady (deallocuvm pgdir oldsz newsz) :=
  .ite (.pure _) (.bind (deallocLoop_steady _ _ _ _) fun _ => .pure _)

theorem allocLoop_steady (pgdir n : Nat) : ∀ v : Nat, Preserves Steady (allocLoop pgdir n v) := by
  induction n with
  | zero => exact fun v => .pure true
  | succ n ih =>
      refine fun v => ⟨fun s => ?_⟩
      rw [allocLoop, wp_bind]
      refine wp_kalloc_steady (fun s₁ h₁ _ => ?_) fun p s₁ h₁ => ?_
      · rw [wp_pure]
        exact h₁
      · dsimp only
        rw [wp_bind]
        refine wp_steady (fill_steady _ _) h₁ fun _ s₂ h₂ => ?_
        rw [wp_bind]
        refine wp_mono (wp_mappagesLoop_steady pgdir _ _ _ p s₂) ?_ fun _ _ h =>
          trans_of Steady h₂ h
        rintro r s₃ ⟨h₃, hr⟩
        have h₃ := trans_of Steady h₂ h₃
        rw [wp_ite]
        refine ⟨fun _ => ?_, fun hfalse => ?_⟩
        · exact wp_steady (ih _) h₃ fun _ _ h => h
        · -- the failed `mappages` has seen `kalloc` fail
          rw [wp_bind]
          refine wp_mono (s := s₃) ((lose_steady p).wp s₃) ?_ fun _ _ h => trans_of Steady h₃ h
          intro _ s₄ h₄
          rw [wp_bind, wp_modify]
          have h₅ : Steady s { s₄ with missed := true } := by
            have hr₄ := h₄.refused (hr (by simpa using hfalse))
            exact ⟨fun _ => rfl, fun h => h₄.refused (h₃.refused h), fun _ _ => hr₄⟩
          exact wp_steady (ih _) h₅ fun _ _ h => h

theorem allocuvm_steady (pgdir oldsz newsz : Nat) :
    Preserves Steady (allocuvm pgdir oldsz newsz) :=
  .ite (.pure _) (.bind (allocLoop_steady _ _ _) fun _ =>
    .ite (.pure _) (.bind (deallocuvm_steady _ _ _) fun _ => .pure _))

theorem freevm_steady (pgdir : Nat) : Preserves Steady (freevm pgdir) := by
  refine .bind (deallocuvm_steady _ _ _) fun _ => .bind (.loopTo (fun i => ?_) _) fun _ =>
    .bind .get fun _ => .bind (.modify fun _ => .of_eq rfl rfl) fun _ => kfree_steady _
  exact .bind (load_steady _ _) fun _ => .ite (kfree_steady _) (.pure _)

theorem clearpteu_steady (pgdir v : Nat) : Preserves Steady (clearpteu pgdir v) := by
  refine .bind (walkpgdir_steady _ _ _) fun r => ?_
  rcases r with - | ⟨t, k⟩
  · exact .stop _
  · exact .bind (load_steady _ _) fun _ => store_steady _ _ _

/-! ## `exec` -/

theorem memmove_steady (p off : Nat) (bs : List UInt8) : Preserves Steady (memmove p off bs) :=
  .ite (.stop _) (.modify fun _ => .of_eq rfl rfl)

theorem loadLoop_steady (pgdir addr : Nat) (file : File) (offset sz n : Nat) : ∀ i : Nat,
    Preserves Steady (loadLoop pgdir addr file offset sz n i) := by
  induction n with
  | zero => exact fun i => .pure true
  | succ n ih =>
      refine fun i => .bind (walkpgdir_steady _ _ _) fun r => ?_
      rcases r with - | ⟨t, k⟩
      · exact .stop _
      · refine .bind (load_steady _ _) fun pte => ?_
        dsimp only
        split
        · exact .pure false
        · exact .bind (memmove_steady _ _ _) fun _ => .ite (ih _) (.pure _)

theorem loaduvm_steady (pgdir addr : Nat) (file : File) (offset sz : Nat) :
    Preserves Steady (loaduvm pgdir addr file offset sz) :=
  .ite (.stop _) (loadLoop_steady _ _ _ _ _ _ _)

theorem uva2ka_steady (pgdir v : Nat) : Preserves Steady (uva2ka pgdir v) := by
  refine .bind (.bind (walkpgdir_steady _ _ _) fun r => ?_) fun _ =>
    .ite (.pure _) (.ite (.pure _) (.pure _))
  rcases r with - | ⟨t, k⟩
  · exact .bind (target_steady _) fun _ => load_steady _ _
  · exact load_steady _ _

theorem copyoutLoop_steady (pgdir fuel : Nat) : ∀ (va : Nat) (bs : List UInt8),
    Preserves Steady (copyoutLoop pgdir fuel va bs) := by
  induction fuel with
  | zero => exact fun _ _ => .pure true
  | succ fuel ih =>
      refine fun va bs => .ite (.pure _) (.bind (uva2ka_steady _ _) fun r => ?_)
      rcases r with - | p
      · exact .pure false
      · exact .bind (memmove_steady _ _ _) fun _ => ih _ _

theorem copyout_steady (pgdir va : Nat) (bs : List UInt8) :
    Preserves Steady (copyout pgdir va bs) :=
  copyoutLoop_steady _ _ _ _

theorem segments_steady (pgdir : Nat) (file : File) (n : Nat) : ∀ off sz : Nat,
    Preserves Steady (segments pgdir file n off sz) := by
  induction n with
  | zero => exact fun _ _ => .pure _
  | succ n ih =>
      intro off sz
      unfold segments
      split
      · exact .pure _
      · refine .ite (.pure _) (.ite (ih _ _) (.ite (.pure _) ?_))
        exact .bind (allocuvm_steady _ _ _) fun _ => .ite (.pure _)
          (.bind (loaduvm_steady _ _ _ _ _) fun _ => .ite (ih _ _) (.pure _))

theorem pushArgs_steady (pgdir : Nat) (args : List Arg) : ∀ argc sp : Nat,
    Preserves Steady (pushArgs pgdir args argc sp) := by
  induction args with
  | nil => exact fun _ _ => .pure _
  | cons a args ih =>
      refine fun argc sp => .ite (.pure _) (.bind (copyout_steady _ _ _) fun _ => .ite ?_ (.pure _))
      refine .bind (ih _ _) fun r => ?_
      rcases r with - | ⟨q, ptrs⟩
      · exact .pure _
      · exact .pure _

theorem arguments_steady (pgdir sz : Nat) (elf : Elfhdr) (argv : List Arg) :
    Preserves Steady (arguments pgdir sz elf argv) := by
  refine .bind (clearpteu_steady _ _) fun _ => .bind (pushArgs_steady _ _ _ _) fun r => ?_
  rcases r with - | ⟨q, ptrs⟩
  · exact .pure _
  · exact .bind (copyout_steady _ _ _) fun _ => .ite (.pure _) (.pure _)

theorem stack_steady (pgdir sz : Nat) (elf : Elfhdr) (argv : List Arg) :
    Preserves Steady (stack pgdir sz elf argv) :=
  .bind (allocuvm_steady _ _ _) fun _ => .ite (.pure _) (arguments_steady _ _ _ _)

theorem build_steady (file : File) (elf : Elfhdr) (argv : List Arg) (pgdir : Nat) :
    Preserves Steady (build file elf argv pgdir) := by
  refine .bind (segments_steady _ _ _ _ _) fun r => ?_
  rcases r with - | sz
  · exact .pure _
  · exact stack_steady _ _ _ _

theorem commit_steady (oldpgdir pgdir : Nat) (image : Option Image) :
    Preserves Steady (commit oldpgdir pgdir image) := by
  rcases image with - | image
  · exact .bind (freevm_steady _) fun _ => .pure _
  · exact .bind (.modify fun _ => .of_eq rfl rfl) fun _ => .bind (freevm_steady _) fun _ => .pure _

theorem launch_steady (oldpgdir : Nat) (file : File) (elf : Elfhdr) (argv : List Arg) :
    Preserves Steady (launch oldpgdir file elf argv) := by
  refine .bind setupkvm_steady fun r => ?_
  rcases r with - | pgdir
  · exact .pure _
  · exact .bind (build_steady _ _ _ _) fun _ => commit_steady _ _ _

theorem exec_steady (oldpgdir : Nat) (ip : Option File) (argv : List Arg) :
    Preserves Steady (exec oldpgdir ip argv) := by
  unfold exec
  split
  · exact .pure _
  · split
    · exact .pure _
    · exact .ite (.pure _) (.ite (.pure _) (launch_steady _ _ _ _))

end Xv6.Kernel.Vm
