import Xv6.Kernel.ArgStack

/-!
# The program that `exec` starts

`exec` of `kernel/exec.c` on a well-formed file, with enough memory: it loads all segments, comes
to the arguments (`execWith_spec`, for anything in the place of `arguments`), and the new program
finds them on its stack (`exec_frames`).
-/

namespace Xv6.Kernel.Vm

open Xv6.Verified
open Exec

section Frames

variable {s s' : State} {A A' : Space} {rest : Nat → Prop} {file : File} {n : Nat}

/-! ## All segments are loaded -/

theorem wp_trivial {α : Type} (m : M α) (s : State) :
    wp m (fun _ _ => True) (fun _ _ => True) s := by
  unfold wp
  split <;> trivial

theorem loaduvm_nothing {addr offset : Nat} (halign : addr % PGSIZE = 0)
    {Q : Bool → State → Prop} {E : Stop → State → Prop} (hQ : Q true s) :
    wp (loaduvm A.dir addr file offset 0) Q E s := by
  unfold loaduvm
  rw [wp_ite]
  refine ⟨fun hno => absurd halign hno, fun _ => ?_⟩
  rw [show pgup 0 = 0 by decide, loadLoop, wp_pure]
  exact hQ

/-- The page tables of directory `pgdir` are for addresses that memory could back. -/
def FewTables (m : Nat → Nat → Nat) (pgdir : Nat) : Prop :=
  ∀ i < 510, Present (m pgdir i) → i * 512 < NPAGES

theorem Owns.fewTables (h : Owns s A rest) :
    FewTables s.mem A.dir ↔ ∀ i, A.table i ≠ 0 → i * 512 < NPAGES := by
  constructor
  · intro hfew i hi
    obtain ⟨hlt, hpde⟩ := h.maps.table i hi
    refine hfew i hlt ?_
    rw [hpde, Present, PGSIZE]
    omega
  · intro hall i hi hpresent
    exact hall i fun h0 => h.maps.noTable i hi h0 hpresent

/-- One loadable header, and those behind it. -/
theorem loadSegment_complete {off sz : Nat} {ph : Proghdr} (h : Owns s A rest)
    (hc : Covers A (pgup sz)) (h1 : A.pml4 ≠ 0) (h2 : A.pdpt ≠ 0) (hsz : sz ≤ NPAGES * PGSIZE)
    (hfew : FewTables s.mem A.dir)
    (hsound : Sound file (if ph.grow sz = 0 then (([], none) : List (Proghdr × Nat) × Option Nat)
      else if ph.InFile file then
        ((ph, ph.grow sz) :: (program file n (uint (off + PROGHDR)) (ph.grow sz)).1,
          (program file n (uint (off + PROGHDR)) (ph.grow sz)).2)
      else ([(ph, ph.grow sz)], none)).1)
    (ih : ∀ {s : State} {A : Space} {off sz : Nat}, Owns s A rest → Covers A (pgup sz) →
      A.pml4 ≠ 0 → A.pdpt ≠ 0 → sz ≤ NPAGES * PGSIZE → FewTables s.mem A.dir →
      Sound file (program file n off sz).1 →
      wp (segments A.dir file n off sz)
        (fun r s' => s'.missed = false → s'.refused = false →
          (program file n off sz).2 ≠ none → r ≠ none ∧ FewTables s'.mem A.dir)
        (fun _ _ => True) s) :
    wp (do
        let r ← allocuvm A.dir (uint sz) (uint (ph.vaddr + ph.memsz))
        if r = 0 then return none
        else if ← loaduvm A.dir ph.vaddr file (uint ph.off) (uint ph.filesz) then
          segments A.dir file n (uint (off + PROGHDR)) (signExtend r)
        else return none)
      (fun r s' => s'.missed = false → s'.refused = false →
        (if ph.grow sz = 0 then (([], none) : List (Proghdr × Nat) × Option Nat)
          else if ph.InFile file then
            ((ph, ph.grow sz) :: (program file n (uint (off + PROGHDR)) (ph.grow sz)).1,
              (program file n (uint (off + PROGHDR)) (ph.grow sz)).2)
          else ([(ph, ph.grow sz)], none)).2 ≠ none → r ≠ none ∧ FewTables s'.mem A.dir)
      (fun _ _ => True) s := by
  have husz : uint sz = sz := uint_eq (by simp only [NPAGES, PGSIZE] at *; omega)
  rw [wp_bind, husz]
  refine wp_mono (allocuvm_covers h hc h2) ?_ fun _ _ _ => trivial
  rintro r s₁ ⟨A₁, h₁⟩
  by_cases hgrow : ph.grow sz = 0
  · rw [if_pos hgrow]
    refine wp_mono (Q := fun _ _ => True) (E := fun _ _ => True) ?_ (fun _ _ _ _ _ hno => ?_)
      fun _ _ _ => trivial
    · exact wp_trivial _ _
    · exact absurd rfl hno
  · rw [if_neg hgrow] at hsound ⊢
    rw [wp_ite]
    refine ⟨fun hr0 => ?_, fun hr0 => ?_⟩
    · rw [wp_pure]
      intro _ hrefused
      rw [h₁.short hr0 hgrow] at hrefused
      cases hrefused
    · have hr : r = ph.grow sz := h₁.result.resolve_left hr0
      by_cases hm₁ : s₁.missed = true
      · have hrest : Preserves Steady (do
            if ← loaduvm A.dir ph.vaddr file (uint ph.off) (uint ph.filesz) then
              segments A.dir file n (uint (off + PROGHDR)) (signExtend r)
            else return none : M (Option Nat)) :=
          .bind (loaduvm_steady _ _ _ _ _) fun _ => .ite (segments_steady _ _ _ _ _) (.pure _)
        exact wp_missed hrest hm₁ fun _ _ _ => trivial
      · have hc₁ : Covers A₁ (pgup r) := h₁.grown hc hr0 (by simpa using hm₁)
        have hpages := hc₁.small h₁.owns
        have hrsz : r ≤ NPAGES * PGSIZE := by
          simp only [pgup, NPAGES, PGSIZE] at *
          omega
        have hext : signExtend r = r := signExtend_eq (by simp only [NPAGES, PGSIZE] at *; omega)
        have hseg : (ph, r) ∈ (if ph.InFile file then
            ((ph, ph.grow sz) :: (program file n (uint (off + PROGHDR)) (ph.grow sz)).1,
              (program file n (uint (off + PROGHDR)) (ph.grow sz)).2)
            else (([(ph, ph.grow sz)], none) : List (Proghdr × Nat) × Option Nat)).1 := by
          rw [hr]
          split <;> exact List.mem_cons_self
        obtain ⟨halign, hpages'⟩ := hsound _ hseg
        have hback : Backed A₁ file ph.vaddr (uint ph.off) (uint ph.filesz) :=
          fun j hj htouch => (hc₁ _).2 (hpages' j hj htouch)
        rw [wp_bind, ← h₁.dir]
        by_cases hfile : ph.InFile file
        · rw [if_pos hfile] at hsound ⊢
          have hsound' : Sound file (program file n (uint (off + PROGHDR)) r).1 := by
            rw [hr]
            exact fun seg hmem => hsound seg (List.mem_cons_of_mem _ hmem)
          -- `loaduvm` succeeds
          have hload : wp (loaduvm A₁.dir ph.vaddr file (uint ph.off) (uint ph.filesz))
              (fun b s' => b = true ∧ Owns s' A₁ rest) (fun _ _ => True) s₁ := by
            by_cases hzero : uint ph.filesz = 0
            · rw [hzero]
              exact loaduvm_nothing halign ⟨rfl, h₁.owns⟩
            · refine wp_mono (loaduvm_spec h₁.owns (uint_lt _) (h₁.pml4 ▸ h1) (h₁.pdpt ▸ h2)) ?_
                fun _ _ _ => trivial
              rintro b s₂ ⟨hload, -, hstored⟩
              refine ⟨?_, hload.owns⟩
              cases b with
              | true => rfl
              | false =>
                  have := (hstored hback).short rfl
                  exact absurd (hfile.resolve_left hzero) (by omega)
          refine wp_mono hload ?_ fun _ _ _ => trivial
          rintro b s₂ ⟨rfl, howns⟩
          rw [wp_ite]
          refine ⟨fun _ => ?_, fun hfalse => absurd rfl hfalse⟩
          rw [hext, ← hr]
          refine ih howns hc₁ (h₁.pml4 ▸ h1) (h₁.pdpt ▸ h2) hrsz (howns.fewTables.2 ?_) hsound'
          intro i hi
          refine (h₁.tables i hi).elim (h.fewTables.1 hfew i) fun hlt => ?_
          rw [hr, Proghdr.grow] at hpages
          simp only [pgup, PGSIZE] at hpages hlt
          omega
        · rw [if_neg hfile]
          refine wp_mono (Q := fun _ _ => True) (E := fun _ _ => True) (wp_trivial _ _) ?_
            fun _ _ _ => trivial
          intro b s₂ _
          refine wp_mono (Q := fun _ _ => True) (E := fun _ _ => True) (wp_trivial _ _) ?_
            fun _ _ _ => trivial
          exact fun _ _ _ _ _ hno => absurd rfl hno

/-- With enough memory, the loop over the program headers gives up only where `program` does. -/
theorem segments_complete (n : Nat) : ∀ {s : State} {A : Space} {off sz : Nat}, Owns s A rest →
    Covers A (pgup sz) → A.pml4 ≠ 0 → A.pdpt ≠ 0 → sz ≤ NPAGES * PGSIZE →
    FewTables s.mem A.dir → Sound file (program file n off sz).1 →
    wp (segments A.dir file n off sz)
      (fun r s' => s'.missed = false → s'.refused = false → (program file n off sz).2 ≠ none →
        r ≠ none ∧ FewTables s'.mem A.dir)
      (fun _ _ => True) s := by
  induction n with
  | zero =>
      intro s A off sz _ _ _ _ _ hfew _
      rw [segments, wp_pure]
      exact fun _ _ _ => ⟨by simp, hfew⟩
  | succ n ih =>
      intro s A off sz h hc h1 h2 hsz hfew hsound
      rw [segments, program] at *
      cases hread : readi file off PROGHDR with
      | none =>
          dsimp only
          rw [wp_pure]
          exact fun _ _ hno => absurd rfl hno
      | some bs =>
          rw [hread] at hsound
          dsimp only at hsound ⊢
          rw [wp_ite]
          refine ⟨fun hlen => ?_, fun hlen => ?_⟩
          · rw [wp_pure, if_pos hlen]
            exact fun _ _ hno => absurd rfl hno
          · rw [if_neg hlen] at hsound ⊢
            rw [wp_ite]
            refine ⟨fun htype => ?_, fun htype => ?_⟩
            · rw [if_pos htype] at hsound ⊢
              exact ih h hc h1 h2 hsz hfew hsound
            · rw [if_neg htype] at hsound ⊢
              rw [wp_ite]
              refine ⟨fun hmem => ?_, fun hmem => ?_⟩
              · rw [wp_pure, if_pos hmem]
                exact fun _ _ hno => absurd rfl hno
              · rw [if_neg hmem] at hsound ⊢
                exact loadSegment_complete h hc h1 h2 hsz hfew hsound ih

/-! ## The new program -/

variable {P : Space} {argv : List Arg}

/-- The process runs an image with the arguments on its stack. -/
abbrev Framed (argv : List Arg) (r : Option Image) (s' : State) : Prop :=
  ∃ i ptrs, r = some i ∧ s'.cr3 = i.pgdir ∧ Frame argv i ptrs s'.mem

/-- A run that ran out of memory stays one. -/
theorem wp_spoilt {α : Type} {m : M α} (hm : Preserves Steady m)
    (hs : ¬(s.missed = false ∧ s.refused = false)) {Q : α → State → Prop}
    {E : Stop → State → Prop} :
    wp m (fun r s' => s'.missed = false → s'.refused = false → Q r s')
      (fun e s' => s'.missed = false → s'.refused = false → E e s') s := by
  have hno : ∀ s', Steady s s' → s'.missed = false → s'.refused = false → False := by
    intro s' hs' hmissed hrefused
    refine hs ⟨?_, ?_⟩
    · by_contra h
      rw [hs'.missed (by simpa using h)] at hmissed
      cases hmissed
    · by_contra h
      rw [hs'.refused (by simpa using h)] at hrefused
      cases hrefused
  exact wp_mono (hm.wp s) (fun _ s' hs' h1 h2 => (hno s' hs' h1 h2).elim)
    fun _ s' hs' h1 h2 => (hno s' hs' h1 h2).elim

/-- `exec` from the allocation of the stack on, with `args` in the place of `arguments`. -/
def stackWith (args : Nat → Nat → Elfhdr → List Arg → M (Option Image)) (pgdir sz : Nat)
    (elf : Elfhdr) (argv : List Arg) : M (Option Image) := do
  let sz := uintp (pgup sz * PGSIZE)
  let r ← allocuvm pgdir (uint sz) (uint (sz + 2 * PGSIZE))
  if r = 0 then return none
  else args pgdir (signExtend r) elf argv

/-- The new address space when `exec` comes to the arguments: `k` pages of the program, and two for
the stack. -/
structure Ready (rest : Nat → Prop) (k : Nat) (A : Space) (s : State) : Prop where
  owns : Owns s A rest
  covers : Covers A (k + 2)
  writable : A.flags (k + 1) = 7
  few : FewTables s.mem A.dir

theorem stackWith_spec {sz : Nat} {elf : Elfhdr}
    {args : Nat → Nat → Elfhdr → List Arg → M (Option Image)} (h : Owns s A rest)
    (hc : Covers A (pgup sz)) (hpdpt : A.pdpt ≠ 0) (hfew : FewTables s.mem A.dir)
    (hsteady : ∀ pgdir sz, Preserves Steady (args pgdir sz elf argv))
    {Q : Option Image → State → Prop} {E : Stop → State → Prop}
    (hargs : ∀ A₁ s₁, Built rest A s A₁ s₁ → Ready rest (pgup sz) A₁ s₁ →
      wp (args A₁.dir (withStack sz) elf argv) Q E s₁) :
    wp (stackWith args A.dir sz elf argv)
      (fun r s' => s'.missed = false → s'.refused = false → Q r s')
      (fun e s' => s'.missed = false → s'.refused = false → E e s') s := by
  rw [withStack] at hargs
  generalize hk : pgup sz = k at *
  have hkn : k ≤ NPAGES := hc.small h
  have hup : pgup (k * PGSIZE) = k := by
    simp only [pgup, PGSIZE]
    omega
  have h1 : uintp (k * PGSIZE) = k * PGSIZE := by
    simp only [uintp, PGSIZE, NPAGES] at *
    omega
  have h2 : uint (k * PGSIZE : Nat) = k * PGSIZE := by
    simp only [uint, PGSIZE, NPAGES] at *
    omega
  have h3 : uint ((k * PGSIZE : Nat) + 2 * PGSIZE) = k * PGSIZE + 2 * PGSIZE := by
    simp only [uint, PGSIZE, NPAGES] at *
    omega
  have hpg : pgup (k * PGSIZE + 2 * PGSIZE) = k + 2 := by
    simp only [pgup, PGSIZE]
    omega
  have hc' : Covers A (pgup (k * PGSIZE)) := by
    rw [hup]
    exact hc
  unfold stackWith
  dsimp only
  rw [hk, h1, h2, h3, wp_bind]
  refine wp_mono (allocuvm_covers h hc' hpdpt) ?_ ?_
  · rintro r s₁ ⟨A₁, h₁⟩
    rw [wp_ite]
    refine ⟨fun hr0 => ?_, fun hr0 => ?_⟩
    · rw [wp_pure]
      intro _ hrefused
      rw [h₁.short hr0 (by simp only [PGSIZE]; omega)] at hrefused
      cases hrefused
    · by_cases hgood : s₁.missed = false ∧ s₁.refused = false
      · have hm₁ := hgood.1
        have hr : r = k * PGSIZE + 2 * PGSIZE := by
          rw [h₁.result.resolve_left hr0]
          omega
        have hc₁ : Covers A₁ (k + 2) := by
          rw [← hpg, ← hr]
          exact h₁.grown hc' hr0 hm₁
        have hpages := hc₁.small h₁.owns
        have hflags : A₁.flags (k + 1) = 7 := by
          refine h₁.writable hc' hr0 hm₁ (k + 1) ?_ ?_
          · rw [hup]
            omega
          · rw [hr, hpg]
            omega
        have hfew₁ : FewTables s₁.mem A₁.dir := by
          refine h₁.owns.fewTables.2 fun i hi => ?_
          refine (h₁.tables i hi).elim (h.fewTables.1 hfew i) fun hlt => ?_
          rw [hpg] at hlt
          omega
        have hext : signExtend r = r := by
          refine signExtend_eq ?_
          rw [hr]
          simp only [NPAGES, PGSIZE] at *
          omega
        rw [hext, hr, ← h₁.dir]
        exact wp_mono (hargs A₁ s₁ h₁.built ⟨h₁.owns, hc₁, hflags, hfew₁⟩)
          (fun _ _ hq _ _ => hq) fun _ _ he _ _ => he
      · exact wp_spoilt (hsteady _ _) hgood
  · rintro e s' ⟨-, -, hr⟩ _ hr'
    rw [hr] at hr'
    cases hr'

/-- `build`, with `args` in the place of `arguments`. -/
def buildWith (args : Nat → Nat → Elfhdr → List Arg → M (Option Image)) (file : File)
    (elf : Elfhdr) (argv : List Arg) (pgdir : Nat) : M (Option Image) := do
  match ← segments pgdir file elf.phnum (uint elf.phoff) 0 with
  | none => return none
  | some sz => stackWith args pgdir sz elf argv

/-- `launch`, with `args` in the place of `arguments`. -/
def launchWith (args : Nat → Nat → Elfhdr → List Arg → M (Option Image)) (oldpgdir : Nat)
    (file : File) (elf : Elfhdr) (argv : List Arg) : M (Option Image) := do
  match ← setupkvm with
  | none => return none
  | some pgdir => do
      let image ← buildWith args file elf argv pgdir
      commit oldpgdir pgdir image

/-- `exec`, with `args` in the place of `arguments`. -/
def execWith (args : Nat → Nat → Elfhdr → List Arg → M (Option Image)) (oldpgdir : Nat)
    (ip : Option File) (argv : List Arg) : M (Option Image) :=
  match ip with
  | none => return none
  | some file =>
      match readi file 0 ELFHDR with
      | none => return none
      | some bs =>
          if bs.length < ELFHDR then return none
          else if (elfhdr bs).magic ≠ ELF_MAGIC then return none
          else launchWith args oldpgdir file (elfhdr bs) argv

theorem execWith_arguments : execWith arguments = exec := rfl

/-- A well-formed executable: `exec` finds the headers and room for the segments. -/
structure Executable (file : File) : Prop where
  header : ELFHDR ≤ file.bytes.length
  magic : file.header.magic = ELF_MAGIC
  sound : Sound file file.program.1
  loaded : file.program.2 ≠ none

section With

variable {args : Nat → Nat → Elfhdr → List Arg → M (Option Image)}
  (hsteady : ∀ pgdir sz elf, Preserves Steady (args pgdir sz elf argv))
include hsteady

theorem stackWith_steady (pgdir sz : Nat) (elf : Elfhdr) :
    Preserves Steady (stackWith args pgdir sz elf argv) :=
  .bind (allocuvm_steady _ _ _) fun _ => .ite (.pure _) (hsteady _ _ _)

theorem buildWith_steady (elf : Elfhdr) (pgdir : Nat) :
    Preserves Steady (buildWith args file elf argv pgdir) :=
  .bind (segments_steady _ _ _ _ _) fun r => by
    cases r with
    | none => exact .pure _
    | some sz => exact stackWith_steady hsteady _ _ _

theorem launchWith_steady (oldpgdir : Nat) (elf : Elfhdr) :
    Preserves Steady (launchWith args oldpgdir file elf argv) :=
  .bind setupkvm_steady fun r => by
    cases r with
    | none => exact .pure _
    | some pgdir => exact .bind (buildWith_steady hsteady _ _) fun _ => commit_steady _ _ _

variable {Q : Option Image → State → Prop} {E : Stop → State → Prop}

/-- The segments are loaded and the stack is there. -/
theorem buildWith_spec (h : Owns s A rest) (hblank : ∀ v, A.leaf v = 0)
    (hnone : ∀ i, A.table i = 0) (h1 : A.pml4 ≠ 0) (h2 : A.pdpt ≠ 0)
    (hsound : Sound file file.program.1) (hsome : file.program.2 ≠ none)
    (hargs : ∀ A₁ s₁ sz, file.program.2 = some sz → Built rest A s A₁ s₁ →
      Ready rest (pgup sz) A₁ s₁ → wp (args A₁.dir (withStack sz) file.header argv) Q E s₁) :
    wp (buildWith args file file.header argv A.dir)
      (fun r s' => s'.missed = false → s'.refused = false → Q r s')
      (fun e s' => s'.missed = false → s'.refused = false → E e s') s := by
  have hc : Covers A (pgup 0) := by
    intro v
    rw [show pgup 0 = 0 by decide]
    exact iff_of_false (fun hv => hv (hblank v)) (Nat.not_lt_zero v)
  have hfew : FewTables s.mem A.dir := h.fewTables.2 fun i hi => absurd (hnone i) hi
  unfold buildWith
  rw [wp_bind]
  refine wp_mono (wp_and (segments_spec _ h hc h1 h2 (Nat.zero_le _) hsound)
    (segments_complete _ h hc h1 h2 (Nat.zero_le _) hfew hsound)) ?_ ?_
  · rintro r s₁ ⟨hs₁, hcomplete⟩
    cases r with
    | none =>
        dsimp only
        rw [wp_pure]
        exact fun hm hr => absurd rfl (hcomplete hm hr hsome).1
    | some sz =>
        dsimp only
        by_cases hgood : s₁.missed = false ∧ s₁.refused = false
        · obtain ⟨A₁, h₁⟩ := hs₁ hgood.1
          obtain ⟨hprog, hc₁⟩ := h₁.done sz rfl
          have hfew₁ := (hcomplete hgood.1 hgood.2 hsome).2
          rw [← h₁.dir] at hfew₁ ⊢
          exact stackWith_spec h₁.owns hc₁ (h₁.pdpt ▸ h2) hfew₁ (fun _ _ => hsteady _ _ _)
            fun A₂ s₂ h₂ hready => hargs A₂ s₂ sz hprog (h₁.toBuilt.trans h₂) hready
        · exact wp_spoilt (stackWith_steady hsteady _ _ _) hgood
  · rintro e s' ⟨hm | ⟨-, hr⟩, -⟩ hm' hr'
    · rw [hm] at hm'
      cases hm'
    · rw [hr] at hr'
      cases hr'

/-- With enough memory, `exec` of a program comes to its arguments. -/
theorem launchWith_spec (h : Owns s P rest) (hcr3 : s.cr3 = P.dir) (h0 : P.leaf 0 ≠ 0)
    (hsound : Sound file file.program.1) (hsome : file.program.2 ≠ none)
    (hargs : ∀ A₁ s₁ A₂ s₂ sz, file.program.2 = some sz →
      Fresh (withSpace rest P) (P.leaf 0) s A₁ s₁ → Built (withSpace rest P) A₁ s₁ A₂ s₂ →
      Ready (withSpace rest P) (pgup sz) A₂ s₂ →
      wp (args A₂.dir (withStack sz) file.header argv)
        (fun r s' => wp (commit P.dir A₁.dir r) Q E s') E s₂) :
    wp (launchWith args P.dir file file.header argv)
      (fun r s' => s'.missed = false → s'.refused = false → Q r s')
      (fun e s' => s'.missed = false → s'.refused = false → E e s') s := by
  have hz : withSpace rest P (P.leaf 0) := .inr ⟨h0, .leaf 0, rfl⟩
  unfold launchWith
  rw [wp_bind]
  refine setupkvm_spec h.poolWith hz (.inl (h.lives.nullPage hcr3 h0)) (fun s' hs' => ?_)
    fun A₁ s₁ h₁ => ?_
  · dsimp only
    rw [wp_pure]
    intro _ hrefused
    rw [hs'.isRefused] at hrefused
    cases hrefused
  · dsimp only
    by_cases hgood : s₁.missed = false ∧ s₁.refused = false
    · obtain ⟨hpml4, hpdpt⟩ := h₁.upper hgood.2
      rw [wp_bind]
      refine wp_imp (buildWith_spec hsteady h₁.owns h₁.leaf h₁.table hpml4 hpdpt hsound hsome
        fun A₂ s₂ sz hsz h₂ hready => hargs A₁ s₁ A₂ s₂ sz hsz h₁ h₂ hready) fun r s₂ hcommit => ?_
      by_cases hgood₂ : s₂.missed = false ∧ s₂.refused = false
      · exact wp_mono (hcommit hgood₂.1 hgood₂.2) (fun _ _ hq _ _ => hq) fun _ _ he _ _ => he
      · exact wp_spoilt (commit_steady _ _ _) hgood₂
    · exact wp_spoilt (.bind (buildWith_steady hsteady _ _) fun _ => commit_steady _ _ _) hgood

theorem execWith_spec (h : Owns s P rest) (hcr3 : s.cr3 = P.dir) (h0 : P.leaf 0 ≠ 0)
    (hfile : Executable file)
    (hargs : ∀ A₁ s₁ A₂ s₂ sz, file.program.2 = some sz →
      Fresh (withSpace rest P) (P.leaf 0) s A₁ s₁ → Built (withSpace rest P) A₁ s₁ A₂ s₂ →
      Ready (withSpace rest P) (pgup sz) A₂ s₂ →
      wp (args A₂.dir (withStack sz) file.header argv)
        (fun r s' => wp (commit P.dir A₁.dir r) Q E s') E s₂)
    (hmissed : s.missed = false) (henough : Enough (execWith args P.dir (some file) argv) s) :
    wp (execWith args P.dir (some file) argv) Q E s := by
  have hread : readi file 0 ELFHDR = some (file.bytes.take ELFHDR) := by
    rw [readi, if_neg (by simp), List.drop_zero]
  have hheader : elfhdr (file.bytes.take ELFHDR) = file.header := by
    rw [File.header, hread]
    rfl
  have hlaunch : execWith args P.dir (some file) argv =
      launchWith args P.dir file file.header argv := by
    unfold execWith
    dsimp only
    rw [hread]
    dsimp only
    rw [if_neg (by rw [List.length_take]; have := hfile.header; omega), hheader,
      if_neg (not_not.2 hfile.magic)]
  have honly : ∀ s', Steady s s' → s'.refused = false → s'.missed = false := by
    intro s' hs' hr
    by_contra hm
    rw [hs'.only (fun hm' => by rw [hmissed] at hm'; cases hm') (by simpa using hm)] at hr
    cases hr
  rw [hlaunch] at henough ⊢
  refine wp_mono (wp_and (launchWith_spec hsteady h hcr3 h0 hfile.sound hfile.loaded hargs)
    (wp_and henough ((launchWith_steady hsteady _ _).wp s))) ?_ ?_
  · rintro r s' ⟨hq, hr, hs'⟩
    exact hq (honly s' hs' hr) hr
  · rintro e s' ⟨he, hr, hs'⟩
    exact he (honly s' hs' hr) hr

end With

/-- The same bytes, in the same space. -/
theorem Holds.congr {m m' : Nat → Nat → Nat} {a : Nat} {bs : List UInt8} (hmaps : Maps m A)
    (hmaps' : Maps m' A) (hmem : ∀ v, A.leaf v ≠ 0 → m' (A.leaf v) = m (A.leaf v))
    (h : Holds m A.dir a bs) : Holds m' A.dir a bs := by
  intro j hj
  obtain ⟨p, f, hlookup, hbyte⟩ := h j hj
  refine ⟨p, f, ?_, ?_⟩
  · rw [hmaps'.lookup, ← hmaps.lookup, hlookup]
  · rw [hmaps.lookup] at hlookup
    split at hlookup
    · cases hlookup
    · rename_i hl
      cases hlookup
      rw [hmem _ hl]
      exact hbyte

theorem Frame.congr {m m' : Nat → Nat → Nat} {i : Image} {ptrs : List Nat} (hmaps : Maps m A)
    (hmaps' : Maps m' A) (hmem : ∀ v, A.leaf v ≠ 0 → m' (A.leaf v) = m (A.leaf v))
    (hdir : i.pgdir = A.dir) (h : Frame argv i ptrs m) : Frame argv i ptrs m' := by
  have hlookup : ∀ v, lookup m' i.pgdir v = lookup m i.pgdir v := by
    intro v
    rw [hdir, hmaps'.lookup, hmaps.lookup]
  have hholds : ∀ {a bs}, Holds m i.pgdir a bs → Holds m' i.pgdir a bs := by
    intro a bs hb
    rw [hdir] at hb ⊢
    exact hb.congr hmaps hmaps' hmem
  exact { h with
    words := hholds h.words
    array := hholds h.array
    strings := fun x hx => hholds (h.strings x hx)
    stack := by
      rw [hlookup]
      exact h.stack
    guard := by
      rw [hlookup]
      exact h.guard }

theorem commit_framed (h : Owns s P rest) {A₁ A₂ : Space} {s₁ s₂ : State}
    {i : Image} {ptrs : List Nat} (h₁ : Fresh (withSpace rest P) (P.leaf 0) s A₁ s₁)
    (h₂ : Built (withSpace rest P) A₁ s₁ A₂ s₂) (hdir : i.pgdir = A₂.dir)
    (hframe : Frame argv i ptrs s₂.mem) :
    wp (commit P.dir A₁.dir (some i)) (Framed argv) (fun _ _ => False) s₂ := by
  have hlives₂ : Lives s₂ P (withSpace rest P) := by
    refine h.lives.congr (h₂.kend.trans h₁.kend) fun x hx hr hdata => ?_
    rw [h₂.mem x hx hr, h₁.mem x hx hr (.inl (hdata 0))]
  have hswap : Owns { s₂ with cr3 := A₁.dir } P (withSpace rest A₂) :=
    (h₂.owns.swap hlives₂ h.notRest).congr rfl rfl rfl rfl
  have hlives : Lives { s₂ with cr3 := A₁.dir } A₂ (withSpace rest A₂) :=
    h₂.owns.livesWith.congr rfl fun _ _ _ _ => rfl
  have hA₂ : ∀ r, A₂.page r ≠ 0 → ¬rest (A₂.page r) :=
    fun r hr hin => h₂.owns.notRest r hr (.inl hin)
  unfold commit
  dsimp only
  rw [wp_bind, wp_modify, wp_bind]
  refine wp_imp (freevm_spec hswap) fun _ s₃ h₃ => ?_
  rw [wp_pure]
  refine ⟨i, ptrs, rfl, ?_, ?_⟩
  · rw [h₃.cr3, hdir, h₂.dir]
  · refine hframe.congr h₂.owns.maps (h₃.owns hlives hA₂).maps (fun v hv => ?_) hdir
    exact h₃.mem _ hv (.inr ⟨hv, .leaf v, rfl⟩)

/-- `exec` succeeds, and the new program finds its arguments on its stack. -/
theorem exec_frames (h : Owns s P rest) (hcr3 : s.cr3 = P.dir) (h0 : P.leaf 0 ≠ 0)
    (hmissed : s.missed = false) (henough : Enough (exec P.dir (some file) argv) s)
    (hfile : Executable file) (hfit : Fit argv 0 PGSIZE) :
    ∃ i ptrs s', (exec P.dir (some file) argv).run s = .ok (some i) s' ∧
      s'.cr3 = i.pgdir ∧ Frame argv i ptrs s'.mem := by
  have hframed : wp (exec P.dir (some file) argv) (Framed argv) (fun _ _ => False) s := by
    rw [← execWith_arguments] at henough ⊢
    refine execWith_spec (fun _ _ _ => arguments_steady _ _ _ _) h hcr3 h0 hfile
      (fun A₁ s₁ A₂ s₂ sz hsz h₁ h₂ hready => ?_) hmissed henough
    refine wp_mono (wp_and (arguments_page hready.owns hready.covers hready.writable
      (hfit.page sz)) (arguments_spec file hready.owns hready.covers (hfit.page sz))) ?_ ?_
    · rintro _ s₃ ⟨⟨i, ptrs, rfl, hframe⟩, A₃, h₃, -, himage, -⟩
      exact commit_framed h h₁ (h₂.trans h₃) (himage i rfl).1 hframe
    · exact fun _ _ hno => hno.1
  cases hrun : (exec P.dir (some file) argv).run s with
  | ok r s' =>
      obtain ⟨i, ptrs, rfl, hframe⟩ := ok_of_wp hframed hrun
      exact ⟨i, ptrs, s', rfl, hframe⟩
  | fail e s' => exact (fail_of_wp hframed hrun).elim

end Frames

/-- A program without segments. -/
def noSegments : File where
  bytes := [0x7F, 0x45, 0x4C, 0x46] ++ List.replicate 60 0
  small := by decide

theorem program_noSegments : noSegments.program = ([], some 0) := by
  have hphnum : noSegments.header.phnum = 0 := by decide +kernel
  rw [File.program, hphnum]
  rfl

theorem executable_noSegments : Executable noSegments := by
  refine ⟨by decide, by decide +kernel, ?_, ?_⟩
  · rw [program_noSegments]
    exact nofun
  · rw [program_noSegments]
    exact nofun

/-- A string of `n` letters. -/
def letters (n : Nat) : Arg where
  bytes := List.replicate n 97
  nonzero := by
    intro b hb
    rw [List.eq_of_mem_replicate hb]
    decide

/-- It is called with the arguments `a`, `aaaaaaaa` and `aaa`. -/
theorem exec_frames_three : ∃ i ptrs s',
    (exec onePage.dir (some noSegments) [letters 1, letters 8, letters 3]).run
      (onePageState [20, 21, 22, 23, 24, 25]) = .ok (some i) s' ∧ s'.cr3 = i.pgdir ∧
        Frame [letters 1, letters 8, letters 3] i ptrs s'.mem :=
  exec_frames (owns_onePage (by decide) (by decide)) rfl (by decide) rfl
    (enough_of (by decide +kernel)) executable_noSegments
    ⟨by decide, 4064, by decide, by decide⟩

end Xv6.Kernel.Vm
