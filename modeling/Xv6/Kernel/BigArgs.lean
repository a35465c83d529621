import Xv6.Kernel.ExecStack
import Xv6.Verified.Cuts

/-!
# Arguments that do not fit

`exec` of `kernel/exec.c` lets `sp` run down by the lengths of the arguments, and leaves it to
`copyout` to refuse what is not on the stack page.  That works while `sp` does not pass below
address 0: the argument that leaves the page runs into the guard page.  Below 0, `copyout` gets an
address near 4 GB, and `uva2ka` looks where there is no page table.

* `uva2kaChecked`: `uva2ka`, stopped where it would do that.
* `rejects_iff`: when `exec` never does, and fails whenever the arguments do not fit.
-/

namespace Xv6.Kernel.Vm

open Xv6.Verified
open Xv6.Verified.Bytes
open Exec

/-! ## `uva2ka` under watch -/

section Watch

/-- `uva2ka`, stopped where it would go through a back pointer or a page table that is not
there. -/
def uva2kaChecked (pgdir v : Nat) : M (Option Nat) := do
  let pde ← load pgdir (pdx v)
  if 510 ≤ pdx v ∨ ¬Present pde then stop .fault
  else uva2ka pgdir v

variable (look : Nat → Nat → M (Option Nat))

/-- `copyoutLoop`, with `look` in the place of `uva2ka`. -/
def copyoutLoopWith (pgdir : Nat) : Nat → Nat → List UInt8 → M Bool
  | 0, _, _ => return true
  | fuel + 1, va, bs => do
      if bs = [] then return true
      else
        match ← look pgdir (va / PGSIZE) with
        | none => return false
        | some p => do
            let n := min (PGSIZE - va % PGSIZE) bs.length
            memmove p (va % PGSIZE) (bs.take n)
            copyoutLoopWith pgdir fuel (uint (va / PGSIZE * PGSIZE + PGSIZE)) (bs.drop n)

/-- `copyout`, with `look` in the place of `uva2ka`. -/
def copyoutWith (pgdir va : Nat) (bs : List UInt8) : M Bool :=
  copyoutLoopWith look pgdir bs.length (uint va) bs

/-- `pushArgs`, with `look` in the place of `uva2ka`. -/
def pushArgsWith (pgdir : Nat) : List Arg → Nat → Nat → M (Option (Nat × List Nat))
  | [], _, sp => return some (sp, [])
  | a :: args, argc, sp => do
      if MAXARG ≤ argc then return none
      else
        let sp := uintp ((sp : Int) - (a.bytes.length + 1)) / 8 * 8
        if ← copyoutWith look pgdir sp (a.bytes ++ [0]) then
          match ← pushArgsWith pgdir args (argc + 1) sp with
          | none => return none
          | some (sp', ptrs) => return some (sp', sp :: ptrs)
        else return none

/-- `arguments`, with `look` in the place of `uva2ka`. -/
def argumentsWith (pgdir sz : Nat) (elf : Elfhdr) (argv : List Arg) : M (Option Image) := do
  clearpteu pgdir (uintp (sz - 2 * PGSIZE) / PGSIZE)
  match ← pushArgsWith look pgdir argv 0 sz with
  | none => return none
  | some (sp, ptrs) => do
      let argc := argv.length
      let rsi := uintp (sp - (argc + 1) * 8)
      let ustack := [0xffffffff, argc, rsi] ++ ptrs ++ [0]
      let esp := uintp (sp - (3 + argc + 1) * 8)
      if ← copyoutWith look pgdir esp (ustack.flatMap wordBytes) then
        return some ⟨pgdir, sz, elf.entry, esp, argc, rsi⟩
      else return none

theorem copyoutLoopWith_uva2ka (pgdir fuel va : Nat) (bs : List UInt8) :
    copyoutLoopWith uva2ka pgdir fuel va bs = copyoutLoop pgdir fuel va bs := by
  induction fuel generalizing va bs with
  | zero => rfl
  | succ fuel ih =>
      refine if_congr .rfl rfl (bind_congr fun r => ?_)
      cases r with
      | none => rfl
      | some p => exact bind_congr fun _ => ih _ _

theorem copyoutWith_uva2ka (pgdir va : Nat) (bs : List UInt8) :
    copyoutWith uva2ka pgdir va bs = copyout pgdir va bs := copyoutLoopWith_uva2ka _ _ _ _

theorem pushArgsWith_uva2ka (pgdir : Nat) (args : List Arg) (argc sp : Nat) :
    pushArgsWith uva2ka pgdir args argc sp = pushArgs pgdir args argc sp := by
  induction args generalizing argc sp with
  | nil => rfl
  | cons a args ih =>
      rw [pushArgsWith, pushArgs]
      refine if_congr .rfl rfl ?_
      dsimp only
      rw [copyoutWith_uva2ka]
      refine bind_congr fun r => if_congr .rfl ?_ rfl
      refine (congrArg (· >>= _) (ih _ _)).trans (bind_congr fun r => ?_)
      rcases r with - | ⟨q, ptrs⟩
      · rfl
      · rfl

theorem argumentsWith_uva2ka (pgdir sz : Nat) (elf : Elfhdr) (argv : List Arg) :
    argumentsWith uva2ka pgdir sz elf argv = arguments pgdir sz elf argv := by
  unfold argumentsWith arguments
  refine bind_congr fun _ => ?_
  rw [pushArgsWith_uva2ka]
  refine bind_congr fun r => ?_
  rcases r with - | ⟨q, ptrs⟩
  · rfl
  · dsimp only
    rw [copyoutWith_uva2ka]

variable {look}

theorem copyoutLoopWith_steady (hlook : ∀ pgdir v, Preserves Steady (look pgdir v))
    (pgdir fuel va : Nat) (bs : List UInt8) :
    Preserves Steady (copyoutLoopWith look pgdir fuel va bs) := by
  induction fuel generalizing va bs with
  | zero => exact .pure _
  | succ fuel ih =>
      refine .ite (.pure _) (.bind (hlook _ _) fun r => ?_)
      cases r with
      | none => exact .pure _
      | some p => exact .bind (memmove_steady _ _ _) fun _ => ih _ _

theorem copyoutWith_steady (hlook : ∀ pgdir v, Preserves Steady (look pgdir v)) (pgdir va : Nat)
    (bs : List UInt8) : Preserves Steady (copyoutWith look pgdir va bs) :=
  copyoutLoopWith_steady hlook _ _ _ _

theorem pushArgsWith_steady (hlook : ∀ pgdir v, Preserves Steady (look pgdir v)) (pgdir : Nat)
    (args : List Arg) (argc sp : Nat) :
    Preserves Steady (pushArgsWith look pgdir args argc sp) := by
  induction args generalizing argc sp with
  | nil => exact .pure _
  | cons a args ih =>
      refine .ite (.pure _) (.bind (copyoutWith_steady hlook _ _ _) fun r =>
        .ite (.bind (ih _ _) fun r => ?_) (.pure _))
      rcases r with - | ⟨q, ptrs⟩
      · exact .pure _
      · exact .pure _

theorem argumentsWith_steady (hlook : ∀ pgdir v, Preserves Steady (look pgdir v)) (pgdir sz : Nat)
    (elf : Elfhdr) (argv : List Arg) : Preserves Steady (argumentsWith look pgdir sz elf argv) := by
  refine .bind (clearpteu_steady _ _) fun _ => .bind (pushArgsWith_steady hlook _ _ _ _) fun r => ?_
  rcases r with - | ⟨q, ptrs⟩
  · exact .pure _
  · exact .bind (copyoutWith_steady hlook _ _ _) fun _ => .ite (.pure _) (.pure _)

theorem load_run (p k : Nat) (s : State) :
    (load p k).run s = if LINEAR ≤ p then .fail .fault s else .ok (s.mem p k) s := by
  unfold load
  rw [run_ite]
  rfl

theorem uva2kaChecked_steady (pgdir v : Nat) : Preserves Steady (uva2kaChecked pgdir v) :=
  .bind (load_steady _ _) fun _ => .ite (.stop _) (uva2ka_steady _ _)

theorem cuts_uva2ka (pgdir v : Nat) : Cuts Steady (uva2kaChecked pgdir v) (uva2ka pgdir v) := by
  intro s
  have hfinal := (uva2ka_steady pgdir v).final s
  unfold uva2kaChecked
  have hload := load_run pgdir (pdx v) s
  split at hload
  · exact .inr ⟨_, s, run_bind_fail hload, hfinal⟩
  · rw [run_bind_ok hload, run_ite]
    split
    · exact .inr ⟨_, s, rfl, hfinal⟩
    · exact .inl rfl

theorem cuts_copyoutLoop (pgdir fuel va : Nat) (bs : List UInt8) :
    Cuts Steady (copyoutLoopWith uva2kaChecked pgdir fuel va bs)
      (copyoutLoopWith uva2ka pgdir fuel va bs) := by
  induction fuel generalizing va bs with
  | zero => exact .refl _
  | succ fuel ih =>
      refine .ite (.refl _) (.bind (cuts_uva2ka _ _) (fun r => ?_) fun r => ?_)
      · cases r with
        | none => exact .refl _
        | some p =>
            exact .bind (.refl _) (fun _ => ih _ _) fun _ =>
              copyoutLoopWith_steady uva2ka_steady _ _ _ _
      · cases r with
        | none => exact .pure _
        | some p =>
            exact .bind (memmove_steady _ _ _) fun _ =>
              copyoutLoopWith_steady uva2ka_steady _ _ _ _

theorem cuts_copyout (pgdir va : Nat) (bs : List UInt8) :
    Cuts Steady (copyoutWith uva2kaChecked pgdir va bs) (copyoutWith uva2ka pgdir va bs) :=
  cuts_copyoutLoop _ _ _ _

theorem cuts_pushArgs (pgdir : Nat) (args : List Arg) (argc sp : Nat) :
    Cuts Steady (pushArgsWith uva2kaChecked pgdir args argc sp)
      (pushArgsWith uva2ka pgdir args argc sp) := by
  induction args generalizing argc sp with
  | nil => exact .refl _
  | cons a args ih =>
      have hrest : ∀ sp r, Preserves Steady (match r with
          | none => return none
          | some (sp', ptrs) => return some (sp', sp :: ptrs) :
          M (Option (Nat × List Nat))) := by
        intro sp r
        rcases r with - | ⟨q, ptrs⟩
        · exact .pure _
        · exact .pure _
      refine .ite (.refl _) (.bind (cuts_copyout _ _ _)
        (fun _ => .ite (.bind (ih _ _) (fun r => .refl _) (hrest _)) (.refl _)) fun _ => ?_)
      exact .ite (.bind (pushArgsWith_steady uva2ka_steady _ _ _ _) (hrest _)) (.pure _)

theorem cuts_arguments (pgdir sz : Nat) (elf : Elfhdr) (argv : List Arg) :
    Cuts Steady (argumentsWith uva2kaChecked pgdir sz elf argv) (arguments pgdir sz elf argv) := by
  rw [← argumentsWith_uva2ka]
  refine .bind (.refl _) (fun _ => .bind (cuts_pushArgs _ _ _ _) (fun r => ?_) fun r => ?_)
    fun _ => .bind (pushArgsWith_steady uva2ka_steady _ _ _ _) fun r => ?_
  · rcases r with - | ⟨q, ptrs⟩
    · exact .refl _
    · exact .bind (cuts_copyout _ _ _) (fun _ => .refl _) fun _ => .ite (.pure _) (.pure _)
  all_goals
    rcases r with - | ⟨q, ptrs⟩
    · exact .pure _
    · exact .bind (copyoutWith_steady uva2ka_steady _ _ _) fun _ => .ite (.pure _) (.pure _)

end Watch

section Cuts

variable {argv : List Arg} {args args' : Nat → Nat → Elfhdr → List Arg → M (Option Image)}
  (hcuts : ∀ pgdir sz elf, Cuts Steady (args pgdir sz elf argv) (args' pgdir sz elf argv))
  (hsteady : ∀ pgdir sz elf, Preserves Steady (args' pgdir sz elf argv))
include hcuts hsteady

theorem cuts_stackWith (pgdir sz : Nat) (elf : Elfhdr) :
    Cuts Steady (stackWith args pgdir sz elf argv) (stackWith args' pgdir sz elf argv) := by
  unfold stackWith
  exact .bind (.refl _) (fun _ => .ite (.refl _) (hcuts _ _ _)) fun _ =>
    .ite (.pure _) (hsteady _ _ _)

theorem cuts_buildWith (file : File) (elf : Elfhdr) (pgdir : Nat) :
    Cuts Steady (buildWith args file elf argv pgdir) (buildWith args' file elf argv pgdir) := by
  unfold buildWith
  refine .bind (.refl _) (fun r => ?_) fun r => ?_
  · cases r with
    | none => exact .refl _
    | some sz => exact cuts_stackWith hcuts hsteady _ _ _
  · cases r with
    | none => exact .pure _
    | some sz => exact stackWith_steady hsteady _ _ _

theorem cuts_launchWith (oldpgdir : Nat) (file : File) (elf : Elfhdr) :
    Cuts Steady (launchWith args oldpgdir file elf argv)
      (launchWith args' oldpgdir file elf argv) := by
  unfold launchWith
  refine .bind (.refl _) (fun r => ?_) fun r => ?_
  · cases r with
    | none => exact .refl _
    | some pgdir =>
        exact .bind (cuts_buildWith hcuts hsteady _ _ _) (fun _ => .refl _) fun _ =>
          commit_steady _ _ _
  · cases r with
    | none => exact .pure _
    | some pgdir => exact .bind (buildWith_steady hsteady _ _) fun _ => commit_steady _ _ _

theorem cuts_execWith (oldpgdir : Nat) (ip : Option File) :
    Cuts Steady (execWith args oldpgdir ip argv) (execWith args' oldpgdir ip argv) := by
  cases ip with
  | none => exact .refl _
  | some file =>
      unfold execWith
      dsimp only
      cases readi file 0 ELFHDR with
      | none => exact .refl _
      | some bs => exact .ite (.refl _) (.ite (.refl _) (cuts_launchWith hcuts hsteady _ _ _))

end Cuts


/-! ## Inside of the space, and far above it -/

section Inside

variable {s s' : State} {A : Space} {rest : Nat → Prop} {n v k sp sp' : Nat} {args : List Arg}

theorem uva2kaChecked_inside (h : Owns s A rest) (hl : A.leaf v ≠ 0)
    {Q : Option Nat → State → Prop} {E : Stop → State → Prop}
    (hnone : ¬User (A.flags v) → Q none s) (hsome : User (A.flags v) → Q (some (A.leaf v)) s) :
    wp (uva2kaChecked A.dir v) Q E s := by
  obtain ⟨ht, -⟩ := h.maps.leaf v hl
  obtain ⟨hlt, hpde⟩ := h.maps.table _ ht
  have hpdx : pdx v = v / 512 := pdx_eq (h.leaf_lt hl)
  unfold uva2kaChecked
  rw [wp_bind]
  refine wp_load (h.linear .dir) ?_
  rw [wp_ite, hpdx]
  refine ⟨fun hbad => ?_, fun _ => ?_⟩
  · rcases hbad with hbig | hmissing
    · omega
    · rw [hpde] at hmissing
      simp only [Present, PGSIZE] at hmissing
      omega
  · exact uva2ka_inside h hl hnone hsome

/-- No page table is anywhere near 4 GB. -/
theorem uva2kaChecked_wild (h : Owns s A rest) (hfew : FewTables s.mem A.dir)
    (hlo : 1048576 - NPAGES ≤ v) (hhi : v < 1048576) {Q : Option Nat → State → Prop} :
    wp (uva2kaChecked A.dir v) Q (fun _ _ => True) s := by
  unfold uva2kaChecked
  rw [wp_bind]
  refine wp_load (h.linear .dir) ?_
  rw [wp_ite]
  refine ⟨fun _ => (wp_stop _).2 trivial, fun hok => ?_⟩
  rw [not_or, not_not] at hok
  have := hfew (pdx v) (by omega) hok.2
  simp only [pdx, NPTENTRIES, NPAGES] at *
  omega

/-- `copyout` in the pages of the space, under watch: it gets through exactly if the pages are the
user's. -/
theorem copyoutLoopChecked_inside (hc : Covers A n) (hn : n ≤ VPAGES) (fuel : Nat) :
    ∀ {s : State} {va : Nat} {bs : List UInt8}, Owns s A rest → bs.length ≤ fuel →
    va + bs.length ≤ n * PGSIZE →
    wp (copyoutLoopWith uva2kaChecked A.dir fuel va bs)
      (fun r s' => Wrote A rest 0 n s s' ∧
        (r = true ↔ ∀ j < bs.length, User (A.flags ((va + j) / PGSIZE))))
      (fun _ _ => False) s := by
  induction fuel with
  | zero =>
      intro s va bs h hfuel _
      rw [copyoutLoopWith, wp_pure]
      exact ⟨.refl h 0 n, iff_of_true rfl fun j hj => by omega⟩
  | succ fuel ih =>
      intro s va bs h hfuel hroom
      rw [copyoutLoopWith, wp_ite]
      refine ⟨fun hnil => ?_, fun hne => ?_⟩
      · rw [wp_pure, hnil]
        exact ⟨.refl h 0 n, iff_of_true rfl fun j hj => by simp at hj⟩
      · have hpos := List.length_pos_iff.2 hne
        have hpage : va / PGSIZE < n := by
          simp only [PGSIZE] at *
          omega
        rw [wp_bind]
        refine uva2kaChecked_inside h ((hc _).2 hpage) (fun hnot => ?_) fun huser => ?_
        · dsimp only
          rw [wp_pure]
          refine ⟨.refl h 0 n, iff_of_false (by decide) fun hall => hnot ?_⟩
          exact hall 0 hpos
        · have hmod : va % PGSIZE < PGSIZE := Nat.mod_lt _ (by decide)
          have hva := Nat.div_add_mod va PGSIZE
          rw [Nat.mul_comm] at hva
          generalize hm : min (PGSIZE - va % PGSIZE) bs.length = m
          have hstep := Loaded.write h (p := A.leaf (va / PGSIZE)) (fun _ => ⟨_, rfl⟩)
            (write (s.mem (A.leaf (va / PGSIZE))) (va % PGSIZE) (bs.take m))
          have hnext : uint (va / PGSIZE * PGSIZE + PGSIZE) = va / PGSIZE * PGSIZE + PGSIZE := by
            simp only [uint, PGSIZE, VPAGES] at *
            omega
          have hlen : (bs.drop m).length = bs.length - m := List.length_drop
          have hadd : m < bs.length → va / PGSIZE * PGSIZE + PGSIZE = va + m := by
            intro hlt
            have hm' : m = PGSIZE - va % PGSIZE := by omega
            omega
          have hsame : ∀ j < m, (va + j) / PGSIZE = va / PGSIZE := by
            intro j hj
            simp only [PGSIZE] at *
            omega
          dsimp only
          rw [wp_bind]
          refine wp_memmove (h.linear (.leaf _)) ?_
          rw [hnext]
          refine wp_imp (ih hstep.owns (by omega) ?_) ?_
          · rw [hlen]
            simp only [PGSIZE] at *
            omega
          · rintro r s' ⟨hwrote, hr⟩
            refine ⟨⟨hstep.trans hwrote.toLoaded, fun x hx => ?_⟩, ?_⟩
            · rw [hwrote.range x hx]
              exact Function.update_of_ne (hx _ (Nat.zero_le _) hpage).symm _ _
            · rw [hr, hlen]
              constructor
              · intro hall j hj
                by_cases hjm : j < m
                · rw [hsame j hjm]
                  exact huser
                · have := hall (j - m) (by omega)
                  rwa [hadd (by omega), Nat.add_assoc, Nat.add_sub_cancel' (by omega)] at this
              · intro hall j hj
                have := hall (m + j) (by omega)
                rwa [← Nat.add_assoc, ← hadd (by omega)] at this

theorem copyoutChecked_inside (va : Nat) {bs : List UInt8} (hc : Covers A n) (hn : n ≤ VPAGES)
    (h : Owns s A rest) (hroom : va + bs.length ≤ n * PGSIZE) :
    wp (copyoutWith uva2kaChecked A.dir va bs)
      (fun r s' => Wrote A rest 0 n s s' ∧
        (r = true ↔ ∀ j < bs.length, User (A.flags ((va + j) / PGSIZE))))
      (fun _ _ => False) s := by
  have hva : uint va = va := by
    simp only [uint, PGSIZE, VPAGES] at *
    omega
  unfold copyoutWith
  rw [hva]
  exact copyoutLoopChecked_inside hc hn _ h (Nat.le_refl _) hroom

/-- The new address space, with its guard page: `k` pages of the program, the guard page, and the
stack page. -/
structure Guarded (rest : Nat → Prop) (k : Nat) (A : Space) (s : State) : Prop where
  owns : Owns s A rest
  covers : Covers A (k + 2)
  user : User (A.flags (k + 1))
  guard : ¬User (A.flags k)
  few : FewTables s.mem A.dir

theorem Guarded.small (h : Guarded rest k A s) : k + 2 ≤ NPAGES := h.covers.small h.owns

theorem Guarded.wrote (h : Guarded rest k A s) (hw : Wrote A rest 0 (k + 2) s s') :
    Guarded rest k A s' :=
  ⟨hw.owns, h.covers, h.user, h.guard, hw.owns.fewTables.2 (h.owns.fewTables.1 h.few)⟩

/-- `copyout` on the stack page. -/
theorem Guarded.copyout_stack (h : Guarded rest k A s) (va : Nat) {bs : List UInt8}
    (hlo : (k + 1) * PGSIZE ≤ va) (hhi : va + bs.length ≤ (k + 2) * PGSIZE) :
    wp (copyoutWith uva2kaChecked A.dir va bs)
      (fun r s' => r = true ∧ Wrote A rest 0 (k + 2) s s') (fun _ _ => False) s := by
  have hsmall := h.small
  refine wp_imp (copyoutChecked_inside va h.covers (by simp only [NPAGES, VPAGES] at *; omega)
    h.owns hhi) ?_
  rintro r s' ⟨hw, hr⟩
  refine ⟨hr.2 fun j hj => ?_, hw⟩
  rw [show (va + j) / PGSIZE = k + 1 by simp only [PGSIZE] at *; omega]
  exact h.user

/-- `copyout` across the guard page. -/
theorem Guarded.copyout_guard (h : Guarded rest k A s) (va : Nat) {bs : List UInt8}
    (hlo : va < (k + 1) * PGSIZE) (hend : k * PGSIZE < va + bs.length) (hne : bs ≠ [])
    (hhi : va + bs.length ≤ (k + 2) * PGSIZE) :
    wp (copyoutWith uva2kaChecked A.dir va bs)
      (fun r s' => r = false ∧ Wrote A rest 0 (k + 2) s s') (fun _ _ => False) s := by
  have hsmall := h.small
  have hpos := List.length_pos_iff.2 hne
  refine wp_imp (copyoutChecked_inside va h.covers (by simp only [NPAGES, VPAGES] at *; omega)
    h.owns hhi) ?_
  rintro r s' ⟨hw, hr⟩
  refine ⟨?_, hw⟩
  cases r with
  | false => rfl
  | true =>
      refine absurd ?_ h.guard
      have := hr.1 rfl (k * PGSIZE - va) (by omega)
      rwa [show (va + (k * PGSIZE - va)) / PGSIZE = k by simp only [PGSIZE] at *; omega] at this

/-- `copyout` of less than a page, just below an address of the stack page. -/
theorem Guarded.copyout_below (h : Guarded rest k A s) {q : Nat} {bs : List UInt8}
    (hlo : (k + 1) * PGSIZE ≤ q) (hhi : q ≤ (k + 2) * PGSIZE) (hne : bs ≠ [])
    (hlen : bs.length < PGSIZE) :
    wp (copyoutWith uva2kaChecked A.dir (q - bs.length) bs)
      (fun r s' => (r = true → (k + 1) * PGSIZE + bs.length ≤ q) ∧ Wrote A rest 0 (k + 2) s s')
      (fun _ _ => False) s := by
  have hpage : (k + 1) * PGSIZE = k * PGSIZE + PGSIZE := Nat.succ_mul k PGSIZE
  have hpos := List.length_pos_iff.2 hne
  have hback : q - bs.length + bs.length = q := Nat.sub_add_cancel (by omega)
  by_cases hin : (k + 1) * PGSIZE + bs.length ≤ q
  · refine wp_imp (h.copyout_stack (q - bs.length) (Nat.le_sub_of_add_le hin) (by omega)) ?_
    rintro r s' ⟨-, hw⟩
    exact ⟨fun _ => hin, hw⟩
  · refine wp_imp (h.copyout_guard (q - bs.length) (by omega) (by omega) hne (by omega)) ?_
    rintro r s' ⟨rfl, hw⟩
    exact ⟨nofun, hw⟩

/-- `copyout` to an address near 4 GB. -/
theorem Guarded.copyout_wild (h : Guarded rest k A s) (va : Nat) {bs : List UInt8} (hne : bs ≠ [])
    (hlo : 1048576 - NPAGES ≤ uint va / PGSIZE) {Q : Bool → State → Prop} :
    wp (copyoutWith uva2kaChecked A.dir va bs) Q (fun _ _ => True) s := by
  have hpos := List.length_pos_iff.2 hne
  obtain ⟨fuel, hfuel⟩ := Nat.exists_eq_succ_of_ne_zero (Nat.ne_of_gt hpos)
  unfold copyoutWith
  rw [hfuel, copyoutLoopWith, wp_ite]
  refine ⟨fun hnil => absurd hnil hne, fun _ => ?_⟩
  rw [wp_bind]
  refine uva2kaChecked_wild h.owns h.few hlo ?_
  have := uint_lt va
  simp only [PGSIZE]
  omega

/-! ## The arguments -/

/-- The first argument that leaves the page above address `lo`, if there is one, does not take the
stack pointer below address 0. -/
def Stoppable (lo : Nat) : List Arg → Nat → Prop
  | [], _ => True
  | a :: args, sp =>
      a.bytes.length + 1 ≤ sp ∧ (lo ≤ pointer a sp → Stoppable lo args (pointer a sp))

theorem uintp_pointer {a : Arg} (hle : a.bytes.length + 1 ≤ sp) (hsp : sp ≤ (k + 2) * PGSIZE)
    (hk : k + 2 ≤ NPAGES) : uintp ((sp : Int) - (a.bytes.length + 1)) / 8 * 8 = pointer a sp := by
  have := uintp_sub hle (by simp only [PGSIZE, NPAGES] at *; omega)
  push_cast at this
  rw [this]
  rfl

theorem pushArgs_stoppable (args : List Arg) : ∀ {s : State} {argc sp : Nat},
    Guarded rest k A s → Stoppable ((k + 1) * PGSIZE) args sp → (k + 1) * PGSIZE ≤ sp →
    sp ≤ (k + 2) * PGSIZE → sp % 8 = 0 →
    wp (pushArgsWith uva2kaChecked A.dir args argc sp)
      (fun r s' => Wrote A rest 0 (k + 2) s s' ∧ ∀ q ptrs, r = some (q, ptrs) →
        room args sp = some q ∧ (k + 1) * PGSIZE ≤ q ∧ ptrs.length = args.length)
      (fun _ _ => False) s := by
  induction args with
  | nil =>
      intro s argc sp h _ hlo _ _
      rw [pushArgsWith, wp_pure]
      refine ⟨.refl h.owns _ _, ?_⟩
      rintro q ptrs ⟨⟩
      exact ⟨rfl, hlo, rfl⟩
  | cons a args ih =>
      intro s argc sp h hstop hlo hhi hmod
      obtain ⟨hle, hrest⟩ := hstop
      have hptr : pointer a sp % 8 = 0 ∧ pointer a sp + (a.bytes.length + 1) ≤ sp ∧
          sp < pointer a sp + (a.bytes.length + 1) + 8 := by
        unfold pointer
        omega
      have hlen : (a.bytes ++ [0]).length = a.bytes.length + 1 := by
        rw [List.length_append, List.length_singleton]
      have hpage : (k + 1) * PGSIZE = k * PGSIZE + PGSIZE := Nat.succ_mul k PGSIZE
      rw [pushArgsWith, wp_ite]
      refine ⟨fun _ => ?_, fun _ => ?_⟩
      · rw [wp_pure]
        exact ⟨.refl h.owns _ _, nofun⟩
      · dsimp only
        rw [uintp_pointer hle hhi h.small, wp_bind]
        by_cases hin : (k + 1) * PGSIZE ≤ pointer a sp
        · -- it is on the stack page
          refine wp_imp (h.copyout_stack (pointer a sp) hin (by omega)) ?_
          rintro r s₁ ⟨rfl, hw⟩
          rw [wp_ite]
          refine ⟨fun _ => ?_, fun hfalse => absurd rfl hfalse⟩
          rw [wp_bind]
          refine wp_imp (ih (h.wrote hw) (hrest hin) hin (by omega) hptr.1) ?_
          rintro r s₂ ⟨hw₂, hr⟩
          rcases r with - | ⟨q, ptrs⟩
          · dsimp only
            rw [wp_pure]
            exact ⟨hw.trans hw₂, nofun⟩
          · obtain ⟨hroom, hq, hptrs⟩ := hr q ptrs rfl
            dsimp only
            rw [wp_pure]
            refine ⟨hw.trans hw₂, ?_⟩
            rintro q' ptrs' ⟨⟩
            refine ⟨?_, hq, ?_⟩
            · rw [room, if_pos hle]
              exact hroom
            · rw [List.length_cons, List.length_cons, hptrs]
        · -- it runs into the guard page
          refine wp_imp (h.copyout_guard (pointer a sp) (by omega) ?_ (by simp) (by omega)) ?_
          · simp only [PGSIZE] at *
            omega
          · rintro r s₁ ⟨rfl, hw⟩
            rw [wp_ite]
            refine ⟨fun htrue => absurd htrue (by decide), fun _ => ?_⟩
            rw [wp_pure]
            exact ⟨hw, nofun⟩

theorem pushArgs_wild (args : List Arg) : ∀ {s : State} {argc sp : Nat},
    Guarded rest k A s → ¬Stoppable ((k + 1) * PGSIZE) args sp → sp ≤ (k + 2) * PGSIZE →
    (∀ a ∈ args, a.bytes.length + 1 ≤ NPAGES * PGSIZE) → argc + args.length ≤ MAXARG →
    wp (pushArgsWith uva2kaChecked A.dir args argc sp) (fun _ _ => False) (fun _ _ => True) s := by
  induction args with
  | nil =>
      intro s argc sp _ hstop _ _ _
      exact absurd trivial hstop
  | cons a args ih =>
      intro s argc sp h hstop hhi hlong hmax
      have hlen : (a.bytes ++ [0]).length = a.bytes.length + 1 := by
        rw [List.length_append, List.length_singleton]
      rw [List.length_cons] at hmax
      rw [pushArgsWith, wp_ite]
      refine ⟨fun hno => by omega, fun _ => ?_⟩
      dsimp only
      rw [wp_bind]
      by_cases hle : a.bytes.length + 1 ≤ sp
      · have hin : (k + 1) * PGSIZE ≤ pointer a sp := by
          by_contra hout
          exact hstop ⟨hle, fun hin => absurd hin hout⟩
        have hptr : pointer a sp + (a.bytes.length + 1) ≤ sp := by
          unfold pointer
          omega
        rw [uintp_pointer hle hhi h.small]
        refine wp_mono (h.copyout_stack (pointer a sp) hin (by omega)) ?_ fun _ _ _ => trivial
        rintro r s₁ ⟨rfl, hw⟩
        rw [wp_ite]
        refine ⟨fun _ => ?_, fun hfalse => absurd rfl hfalse⟩
        rw [wp_bind]
        refine wp_imp (ih (h.wrote hw) (fun hgood => hstop ⟨hle, fun _ => hgood⟩) (by omega)
          (fun b hb => hlong b (List.mem_cons_of_mem _ hb)) (by omega)) ?_
        exact fun _ _ hno => hno.elim
      · -- the stack pointer wraps around
        refine h.copyout_wild _ (by simp) ?_
        have := hlong a List.mem_cons_self
        simp only [uintp, uint, PGSIZE, NPAGES] at *
        omega

/-! ## From the guard page on -/

theorem Ready.guarded (h : Ready rest k A s) {m : Nat → Nat → Nat}
    (howns : Owns { s with mem := m } (A.guard k) rest) :
    Guarded rest k (A.guard k) { s with mem := m } where
  owns := howns
  covers := h.covers
  user := by
    simp only [Space.guard]
    rw [Function.update_of_ne (by omega), h.writable]
    decide
  guard := by
    simp only [Space.guard, Function.update_self]
    exact not_user_withoutUser _
  few := howns.fewTables.2 (h.owns.fewTables.1 h.few)

/-- `clearpteu` on the guard page. -/
theorem Ready.clearpteu (h : Ready rest k A s) {Q : Unit → State → Prop}
    {E : Stop → State → Prop}
    (hQ : ∀ s', Built rest A s (A.guard k) s' → Guarded rest k (A.guard k) s' → Q () s') :
    wp (clearpteu A.dir (uintp (((k + 2) * PGSIZE : Nat) - 2 * PGSIZE) / PGSIZE)) Q E s := by
  have hpages := h.covers.small h.owns
  have hl : A.leaf k ≠ 0 := (h.covers k).2 (by omega)
  have hguard : uintp (((k + 2) * PGSIZE : Nat) - 2 * PGSIZE) / PGSIZE = k := by
    simp only [uintp, PGSIZE, NPAGES] at *
    omega
  rw [hguard]
  refine clearpteu_spec h.owns (h.owns.leaf_lt hl) (h.owns.maps.leaf k hl).1
    fun m howns hzero hmem => ?_
  exact hQ _ ⟨(Runs.refl s).setMem hzero, howns, rfl, rfl, rfl, fun x hx hr => hmem x hx (.inl hr)⟩
    (h.guarded howns)

theorem argumentsChecked_stoppable {elf : Elfhdr} {argv : List Arg} (h : Ready rest k A s)
    (hstop : Stoppable ((k + 1) * PGSIZE) argv ((k + 2) * PGSIZE)) (hargc : argv.length < MAXARG) :
    wp (argumentsWith uva2kaChecked A.dir ((k + 2) * PGSIZE) elf argv)
      (fun r s' => (∃ A', Built rest A s A' s') ∧
        (r ≠ none → Fit argv ((k + 1) * PGSIZE) ((k + 2) * PGSIZE)))
      (fun _ _ => False) s := by
  have hpage : (k + 1) * PGSIZE = k * PGSIZE + PGSIZE := Nat.succ_mul k PGSIZE
  have hpage₂ : (k + 2) * PGSIZE = (k + 1) * PGSIZE + PGSIZE := Nat.succ_mul (k + 1) PGSIZE
  unfold argumentsWith
  rw [wp_bind]
  refine h.clearpteu fun s₁ hb hg => ?_
  rw [wp_bind, show A.dir = (A.guard k).dir from rfl]
  refine wp_imp (pushArgs_stoppable argv hg hstop (by omega) (Nat.le_refl _) ?_) ?_
  · simp only [PGSIZE]
    omega
  · rintro r s₂ ⟨hw, hr⟩
    have hb₂ := hb.trans (hw.built hg.covers)
    rcases r with - | ⟨q, ptrs⟩
    · dsimp only
      rw [wp_pure]
      exact ⟨⟨_, hb₂⟩, fun hno => absurd rfl hno⟩
    · obtain ⟨hroom, hq, hptrs⟩ := hr q ptrs rfl
      have hq' := room_le hroom
      have hsmall := hg.small
      have hesp : uintp ((q : Int) - (3 + argv.length + 1) * 8) =
          q - (3 + argv.length + 1) * 8 := by
        simp only [uintp, PGSIZE, NPAGES, MAXARG] at *
        omega
      dsimp only
      rw [hesp, wp_bind]
      generalize hbs : List.flatMap wordBytes _ = bs
      have hlen : bs.length = (3 + argv.length + 1) * 8 := by
        rw [← hbs, length_flatMap_wordBytes]
        simp only [List.length_append, List.length_cons, List.length_nil, hptrs]
      have hless : bs.length < PGSIZE := by
        rw [hlen]
        simp only [MAXARG, PGSIZE] at *
        omega
      have hne : bs ≠ [] := by
        rintro rfl
        rw [List.length_nil] at hlen
        omega
      rw [← hlen]
      refine wp_imp ((hg.wrote hw).copyout_below hq hq' hne hless) ?_
      rintro r s₃ ⟨hin, hw₃⟩
      have hb₃ := hb₂.trans (hw₃.built hg.covers)
      rw [wp_ite]
      refine ⟨fun hr => ?_, fun _ => ?_⟩
      · rw [wp_pure]
        refine ⟨⟨_, hb₃⟩, fun _ => ⟨hargc, q, hroom, ?_⟩⟩
        rw [← hlen]
        exact hin hr
      · rw [wp_pure]
        exact ⟨⟨_, hb₃⟩, fun hno => absurd rfl hno⟩

theorem argumentsChecked_wild {elf : Elfhdr} {argv : List Arg} (h : Ready rest k A s)
    (hstop : ¬Stoppable ((k + 1) * PGSIZE) argv ((k + 2) * PGSIZE))
    (hlong : ∀ a ∈ argv, a.bytes.length + 1 ≤ NPAGES * PGSIZE) (hargc : argv.length < MAXARG) :
    wp (argumentsWith uva2kaChecked A.dir ((k + 2) * PGSIZE) elf argv)
      (fun _ _ => False) (fun _ _ => True) s := by
  unfold argumentsWith
  rw [wp_bind]
  refine h.clearpteu fun s₁ _ hg => ?_
  rw [wp_bind, show A.dir = (A.guard k).dir from rfl]
  refine wp_imp (pushArgs_wild argv hg hstop (Nat.le_refl _) hlong (by omega)) ?_
  exact fun _ _ hno => hno.elim

end Inside

/-! ## Main result -/

section Rejects

variable {s : State} {P : Space} {rest : Nat → Prop} {file : File} {argv : List Arg} {sz : Nat}

/-- A string of a process is no longer than memory. -/
theorem Holds.length_le {addr : Nat} {bs : List UInt8} (h : Owns s P rest)
    (hb : Holds s.mem P.dir addr bs) : bs.length ≤ NPAGES * PGSIZE := by
  by_contra hlong
  have hleaf : ∀ i : Fin (NPAGES + 1), P.leaf (addr / PGSIZE + i) ≠ 0 := by
    intro i hl
    have hi := i.2
    obtain ⟨p, f, hlookup, -⟩ := hb (i * PGSIZE) (by simp only [PGSIZE, NPAGES] at *; omega)
    rw [show (addr + i * PGSIZE) / PGSIZE = addr / PGSIZE + i by simp only [PGSIZE]; omega,
      h.maps.lookup, if_pos hl] at hlookup
    cases hlookup
  let f : Fin (NPAGES + 1) → Fin NPAGES := fun i =>
    ⟨P.leaf (addr / PGSIZE + i), (h.managed (.leaf _) (hleaf i)).2⟩
  have hf : Function.Injective f := by
    intro i j hij
    have hpage : P.page (.leaf (addr / PGSIZE + i)) = P.page (.leaf (addr / PGSIZE + j)) :=
      congrArg Fin.val hij
    have := Role.leaf.inj (h.excl.inj _ _ (hleaf i) hpage)
    exact Fin.ext (by omega)
  have := Fintype.card_le_of_injective f hf
  rw [Fintype.card_fin, Fintype.card_fin] at this
  omega

theorem room_unshift {c x q : Nat} (hc : c % 8 = 0) (h : room argv (c + x) = some q)
    (hq : c ≤ q) : room argv x = some (q - c) := by
  induction argv generalizing x with
  | nil =>
      cases h
      rw [room, Nat.add_sub_cancel_left]
  | cons a argv ih =>
      obtain ⟨hle, hroom⟩ := room_cons h
      have hptr := room_le hroom
      have hx : a.bytes.length + 1 ≤ x := by
        unfold pointer at hptr
        omega
      rw [room, if_pos hx]
      refine ih ?_
      rw [← hroom, pointer]
      congr 1
      omega

/-- Arguments that fit into the stack page fit into a page. -/
theorem Fit.anywhere {k : Nat} (h : Fit argv ((k + 1) * PGSIZE) ((k + 2) * PGSIZE)) :
    Fit argv 0 PGSIZE := by
  obtain ⟨hargc, q, hroom, hq⟩ := h
  rw [show (k + 2) * PGSIZE = (k + 1) * PGSIZE + PGSIZE from Nat.succ_mul (k + 1) PGSIZE] at hroom
  have hle : (k + 1) * PGSIZE ≤ q := Nat.le_trans (Nat.le_add_right _ _) hq
  refine ⟨hargc, q - (k + 1) * PGSIZE, room_unshift ?_ hroom hle, ?_⟩
  · simp only [PGSIZE]
    omega
  · rw [Nat.zero_add]
    exact Nat.le_sub_of_add_le' hq

/-- The end of `exec` returns what it is given. -/
theorem commit_returns (h : Owns s P rest) {A₁ A₂ : Space} {s₁ s₂ : State} (r : Option Image)
    (h₁ : Fresh (withSpace rest P) (P.leaf 0) s A₁ s₁)
    (h₂ : Built (withSpace rest P) A₁ s₁ A₂ s₂) :
    wp (commit P.dir A₁.dir r) (fun r' _ => r' = r) (fun _ _ => False) s₂ := by
  cases r with
  | none =>
      unfold commit
      rw [wp_bind, ← h₂.dir]
      refine wp_imp (freevm_spec h₂.owns) fun _ s₃ _ => ?_
      rw [wp_pure]
  | some i =>
      have hlives₂ : Lives s₂ P (withSpace rest P) := by
        refine h.lives.congr (h₂.kend.trans h₁.kend) fun x hx hr hdata => ?_
        rw [h₂.mem x hx hr, h₁.mem x hx hr (.inl (hdata 0))]
      have hswap : Owns { s₂ with cr3 := A₁.dir } P (withSpace rest A₂) :=
        (h₂.owns.swap hlives₂ h.notRest).congr rfl rfl rfl rfl
      unfold commit
      dsimp only
      rw [wp_bind, wp_modify, wp_bind]
      refine wp_imp (freevm_spec hswap) fun _ s₃ _ => ?_
      rw [wp_pure]

/-- What `sys_exec` lets through: fewer than `MAXARG` strings of the process. -/
structure Accepted (s : State) (P : Space) (argv : List Arg) : Prop where
  count : argv.length < MAXARG
  strings : ∀ a ∈ argv, ∃ addr, Holds s.mem P.dir addr (a.bytes ++ [0])

theorem Accepted.length_le (h : Accepted s P argv) (howns : Owns s P rest) :
    ∀ a ∈ argv, a.bytes.length + 1 ≤ NPAGES * PGSIZE := by
  intro a ha
  obtain ⟨addr, hb⟩ := h.strings a ha
  have := hb.length_le howns
  rwa [List.length_append, List.length_singleton] at this

/-- `exec` comes to its end without a look at a page table that is not there, and fails if the
arguments do not fit into the stack page. -/
def Rejects (P : Space) (file : File) (argv : List Arg) (s : State) : Prop :=
  ∃ r s', (execWith (argumentsWith uva2kaChecked) P.dir (some file) argv).run s = .ok r s' ∧
    (exec P.dir (some file) argv).run s = .ok r s' ∧ (¬Fit argv 0 PGSIZE → r = none)

/-- `exec` under watch does what `exec` does, or stops on the way. -/
theorem cuts_exec (oldpgdir : Nat) (ip : Option File) (argv : List Arg) :
    Cuts Steady (execWith (argumentsWith uva2kaChecked) oldpgdir ip argv)
      (exec oldpgdir ip argv) := by
  rw [← execWith_arguments]
  exact cuts_execWith (fun _ _ _ => cuts_arguments _ _ _ _)
    (fun _ _ _ => arguments_steady _ _ _ _) _ _

theorem enough_checked (h : Enough (exec P.dir (some file) argv) s) :
    Enough (execWith (argumentsWith uva2kaChecked) P.dir (some file) argv) s := by
  have hfinal : (Final (exec P.dir (some file) argv) s).refused = false := by
    unfold Enough wp at h
    unfold Final
    split at h <;> simp_all
  rcases cuts_exec P.dir (some file) argv s with heq | ⟨e, s', hfail, hsteady⟩
  · unfold Enough wp at h ⊢
    rw [heq]
    exact h
  · unfold Enough wp
    rw [hfail]
    by_contra hr
    rw [hsteady.refused (by simpa using hr)] at hfinal
    cases hfinal

theorem withStack_eq (sz : Nat) : withStack sz = (pgup sz + 2) * PGSIZE :=
  (Nat.add_mul (pgup sz) 2 PGSIZE).symm

theorem withStack_sub (sz : Nat) : withStack sz - PGSIZE = (pgup sz + 1) * PGSIZE := by
  rw [withStack_eq, Nat.succ_mul (pgup sz + 1), Nat.add_sub_cancel]

theorem rejects_of_stoppable (h : Owns s P rest) (hcr3 : s.cr3 = P.dir) (h0 : P.leaf 0 ≠ 0)
    (hmissed : s.missed = false) (henough : Enough (exec P.dir (some file) argv) s)
    (hfile : Executable file) (hsz : file.program.2 = some sz) (hargv : Accepted s P argv)
    (hstop : Stoppable (withStack sz - PGSIZE) argv (withStack sz)) : Rejects P file argv s := by
  have hspec : wp (execWith (argumentsWith uva2kaChecked) P.dir (some file) argv)
      (fun r _ => ¬Fit argv 0 PGSIZE → r = none) (fun _ _ => False) s := by
    refine execWith_spec (fun _ _ _ => argumentsWith_steady uva2kaChecked_steady _ _ _ _) h hcr3 h0
      hfile (fun A₁ s₁ A₂ s₂ sz' hsz' h₁ h₂ hready => ?_) hmissed (enough_checked henough)
    rw [hsz] at hsz'
    cases hsz'
    rw [withStack_sub, withStack_eq] at hstop
    rw [withStack_eq]
    refine wp_imp (argumentsChecked_stoppable hready hstop hargv.count) ?_
    rintro r s₃ ⟨⟨A₃, h₃⟩, hfit⟩
    refine wp_imp (commit_returns h r h₁ (h₂.trans h₃)) ?_
    rintro r' s₄ rfl hno
    by_contra hne
    exact hno (hfit hne).anywhere
  cases hrun : (execWith (argumentsWith uva2kaChecked) P.dir (some file) argv).run s with
  | ok r s' =>
      refine ⟨r, s', hrun, ?_, ok_of_wp hspec hrun⟩
      exact (cuts_exec _ _ _).run hrun
  | fail e s' => exact (fail_of_wp hspec hrun).elim

theorem not_rejects (h : Owns s P rest) (hcr3 : s.cr3 = P.dir) (h0 : P.leaf 0 ≠ 0)
    (hmissed : s.missed = false) (henough : Enough (exec P.dir (some file) argv) s)
    (hfile : Executable file) (hsz : file.program.2 = some sz) (hargv : Accepted s P argv)
    (hstop : ¬Stoppable (withStack sz - PGSIZE) argv (withStack sz)) : ¬Rejects P file argv s := by
  have hspec : wp (execWith (argumentsWith uva2kaChecked) P.dir (some file) argv)
      (fun _ _ => False) (fun _ _ => True) s := by
    refine execWith_spec (fun _ _ _ => argumentsWith_steady uva2kaChecked_steady _ _ _ _) h hcr3 h0
      hfile (fun A₁ s₁ A₂ s₂ sz' hsz' h₁ h₂ hready => ?_) hmissed (enough_checked henough)
    rw [hsz] at hsz'
    cases hsz'
    rw [withStack_sub, withStack_eq] at hstop
    rw [withStack_eq]
    refine wp_imp (argumentsChecked_wild hready hstop (hargv.length_le h) hargv.count) ?_
    exact fun _ _ hno => hno.elim
  rintro ⟨r, s', hrun, -⟩
  exact ok_of_wp hspec hrun

/-- With enough memory: `exec` rejects what does not fit, exactly if no argument that leaves the
stack page takes the stack pointer below address 0. -/
theorem rejects_iff (h : Owns s P rest) (hcr3 : s.cr3 = P.dir) (h0 : P.leaf 0 ≠ 0)
    (hmissed : s.missed = false) (henough : Enough (exec P.dir (some file) argv) s)
    (hfile : Executable file) (hsz : file.program.2 = some sz) (hargv : Accepted s P argv) :
    Rejects P file argv s ↔ Stoppable (withStack sz - PGSIZE) argv (withStack sz) := by
  constructor
  · intro hrejects
    by_contra hstop
    exact not_rejects h hcr3 h0 hmissed henough hfile hsz hargv hstop hrejects
  · exact rejects_of_stoppable h hcr3 h0 hmissed henough hfile hsz hargv

end Rejects

/-! ## A process with a long string -/

/-- Three pages of memory. -/
def threePages : Space where
  dir := 10
  pml4 := 11
  pdpt := 12
  table i := if i = 0 then 13 else 0
  leaf v := if v < 3 then 14 + v else 0
  flags _ := 7

/-- The memory that holds it: the first two pages are full of `a`s. -/
def threePagesMem (p k : Nat) : Nat :=
  if p = 10 ∧ k = 0 then 13 * PGSIZE + 7
  else if p = 10 ∧ k = 511 then back (some 11)
  else if p = 10 ∧ k = 510 then back (some 12)
  else if p = 13 ∧ k < 3 then (14 + k) * PGSIZE + 7
  else if p = 14 ∨ p = 15 then 0x6161616161616161
  else 0

/-- It runs, and there are other pages. -/
def threePagesState (free : List Nat) : State :=
  { mem := threePagesMem, free, denials := [], cr3 := 10, kend := 10, kpdpt := 5, lost := [],
    missed := false, refused := false }

theorem threePages_page (r : Role) :
    threePages.page r ≠ 0 → 10 ≤ threePages.page r ∧ threePages.page r < 17 := by
  cases r <;> simp only [Space.page, threePages] <;> (try split) <;> omega

theorem owns_threePages {free : List Nat} (hnodup : free.Nodup)
    (hfree : ∀ x ∈ free, 17 ≤ x ∧ x < NPAGES) :
    Owns (threePagesState free) threePages fun x => x < 10 := by
  have htable : ∀ {i}, threePages.table i ≠ 0 → i = 0 := by
    intro i ht
    by_contra hi0
    exact ht (if_neg hi0)
  have hleaf : ∀ {v}, threePages.leaf v ≠ 0 → v < 3 := by
    intro v hv
    by_contra hv3
    exact hv (if_neg hv3)
  refine ⟨⟨?_, ?_, ?_, ?_, ?_, rfl, rfl⟩, ⟨?_, ?_⟩, by decide, Nat.succ_pos 9, hnodup, ?_,
    by rintro _ ⟨⟩⟩
  · intro i hi ht
    have hi0 : i ≠ 0 := by
      rintro rfl
      cases ht
    show ¬Present (threePagesMem 10 i)
    rw [threePagesMem, if_neg (by omega), if_neg (by omega), if_neg (by omega), if_neg (by omega),
      if_neg (by omega)]
    decide
  · intro i ht
    obtain rfl := htable ht
    exact ⟨by decide, rfl⟩
  · intro v ht hv
    have hdiv := htable ht
    have hv3 : ¬v < 3 := by
      intro hlt
      rw [show threePages.leaf v = 14 + v from if_pos hlt] at hv
      omega
    show threePagesMem (if v / 512 = 0 then 13 else 0) (v % 512) = 0
    rw [if_pos hdiv, threePagesMem, if_neg (by omega), if_neg (by omega), if_neg (by omega),
      if_neg (by omega), if_neg (by omega)]
  · intro v hv
    have hv3 := hleaf hv
    have hdiv : v / 512 = 0 := by omega
    show (if v / 512 = 0 then 13 else 0) ≠ 0 ∧ threePagesMem (if v / 512 = 0 then 13 else 0)
      (v % 512) = (if v < 3 then 14 + v else 0) * PGSIZE + 7
    rw [if_pos hdiv, if_pos hv3, threePagesMem, if_neg (by omega), if_neg (by omega),
      if_neg (by omega), if_pos (by omega), Nat.mod_eq_of_lt (by omega)]
    exact ⟨by decide, rfl⟩
  · exact fun v _ => ⟨show 7 % 2 = 1 by decide, show 7 < PGSIZE by decide⟩
  · intro r r' hr heq
    cases r <;> cases r' <;> simp only [Space.page, threePages] at hr heq ⊢ <;> grind
  · intro r hr
    obtain ⟨h1, h2⟩ := threePages_page r hr
    exact ⟨fun hmem => by have := hfree _ hmem; omega, by rintro ⟨⟩, by omega, h1, by
      simp only [NPAGES]; omega⟩
  · intro x hx
    have := hfree x hx
    exact ⟨by rintro ⟨⟩, by omega, by show 10 ≤ x; omega, this.2⟩

theorem byteAt_letters {p b : Nat} (hp : p = 14 ∨ p = 15) : byteAt (threePagesMem p) b = 97 := by
  have hbytes : ∀ r < 8, 0x6161616161616161 / 256 ^ r % 256 = 97 := by decide
  rw [byteAt, threePagesMem, if_neg (by omega), if_neg (by omega), if_neg (by omega),
    if_neg (by omega), if_pos hp]
  exact hbytes _ (Nat.mod_lt _ (by decide))

/-- They end with the second page. -/
theorem accepted_letters {n : Nat} (hn : n ≤ 8192) (free : List Nat) :
    Accepted (threePagesState free) threePages [letters n] := by
  have hmaps : Maps threePagesMem threePages := (owns_threePages .nil nofun).maps
  refine ⟨show 1 < MAXARG by decide, ?_⟩
  rintro a ha
  rw [List.mem_singleton] at ha
  subst ha
  refine ⟨8192 - n, fun j hj => ?_⟩
  rw [letters, List.length_append, List.length_replicate, List.length_singleton] at hj
  have hpage : (8192 - n + j) / PGSIZE < 3 := by
    simp only [PGSIZE]
    omega
  have hleaf : threePages.leaf ((8192 - n + j) / PGSIZE) = 14 + (8192 - n + j) / PGSIZE :=
    if_pos hpage
  have hne : threePages.leaf ((8192 - n + j) / PGSIZE) ≠ 0 := by
    rw [hleaf]
    exact Nat.ne_of_gt (Nat.add_pos_left (Nat.succ_pos 13) _)
  refine ⟨threePages.leaf ((8192 - n + j) / PGSIZE), 7, ?_, ?_⟩
  · show lookup threePagesMem threePages.dir _ = _
    rw [hmaps.lookup, if_neg hne]
    rfl
  · rw [hleaf]
    by_cases hlast : j < n
    · have hbyte : ((letters n).bytes ++ [0]).getD j 0 = 97 := by
        simp [letters, List.getD_eq_getElem?_getD, List.getElem?_append, hlast]
      rw [hbyte]
      refine byteAt_letters ?_
      simp only [PGSIZE]
      omega
    · obtain rfl : j = n := by omega
      have hbyte : ((letters j).bytes ++ [0]).getD j 0 = 0 := by
        simp [letters, List.getD_eq_getElem?_getD]
      have hzero : byteAt (threePagesMem 16) 0 = 0 := by decide
      rw [hbyte, Nat.sub_add_cancel hn]
      exact hzero

theorem length_letters (n : Nat) : (letters n).bytes.length = n := List.length_replicate

/-- A string of one page is rejected. -/
theorem rejects_page :
    Rejects threePages noSegments [letters 4096] (threePagesState [20, 21, 22, 23, 24, 25]) := by
  refine (rejects_iff (owns_threePages (by decide) (by decide)) rfl (by decide) rfl
    (enough_of (by decide +kernel)) executable_noSegments (congrArg Prod.snd program_noSegments)
    (accepted_letters (by omega) _)).2 ⟨?_, fun hin => ?_⟩
  · rw [length_letters]
    decide
  · rw [pointer, length_letters] at hin
    simp only [withStack, pgup, PGSIZE] at hin
    omega

/-- With a string of two pages, `uva2ka` looks through a back pointer. -/
theorem twoPages_wild : Owns (threePagesState [20, 21, 22, 23, 24, 25]) threePages (· < 10) ∧
    Executable noSegments ∧
    Accepted (threePagesState [20, 21, 22, 23, 24, 25]) threePages [letters 8192] ∧
    ¬Rejects threePages noSegments [letters 8192] (threePagesState [20, 21, 22, 23, 24, 25]) := by
  have howns : Owns (threePagesState [20, 21, 22, 23, 24, 25]) threePages (· < 10) :=
    owns_threePages (by decide) (by decide)
  have haccepted := accepted_letters (Nat.le_refl _) [20, 21, 22, 23, 24, 25]
  refine ⟨howns, executable_noSegments, haccepted, ?_⟩
  refine not_rejects howns rfl (by decide) rfl (enough_of (by decide +kernel))
    executable_noSegments (congrArg Prod.snd program_noSegments) haccepted ?_
  rintro ⟨hle, -⟩
  rw [length_letters] at hle
  exact absurd hle (by decide)

end Xv6.Kernel.Vm
