import Xv6.Kernel.ExecFiles
import Xv6.Kernel.Memories

/-!
# Every process has a memory of its own

The system of `Memories` next to one in which every process has a memory to itself.  No page of the
physical memory ever has two uses, so no process sees what another does; and as long as `kalloc`
has pages, `fork` is a copy, `sbrk` adds zeros or takes away, `exec` loads a program.

* `Private.Step`: what acts do to memories.
* `Effect`: an act keeps the invariant, leaves the other processes alone and is such a step.
-/

namespace Xv6.Kernel.Vm.Memories

open Xv6.Verified
open Xv6.Verified.Bytes
open Xv6.Verified.Ownership
open Exec

/-! ## Memories of their own -/

/-- The memory of a process: its size, and the permissions and contents of its pages. -/
structure Private where
  sz : Nat
  page : Nat → Option (Nat × (Nat → Nat))
  zombie : Bool

/-- The memory grows by zeros, or shrinks. -/
def Private.resize (x : Private) (sz : Nat) : Private :=
  { x with
    sz
    page := fun v => if v < pgup sz then some ((x.page v).getD (7, fun _ => 0)) else none }

/-- A user may store there. -/
def Private.Writable (x : Private) (v : Nat) : Prop :=
  ∃ e, x.page v = some e ∧ e.1 / PTE_W % 2 = 1 ∧ e.1 / PTE_U % 2 = 1

/-- One word is stored. -/
def Private.write (x : Private) (v k w : Nat) : Private :=
  { x with
    page := Function.update x.page v
      ((x.page v).map fun e => (e.1, Function.update e.2 k w)) }

/-- A program has been loaded from `file`: where its segments agree, their bytes are in place. -/
def Private.Loaded (x : Private) (file : File) : Prop :=
  ∃ sz, file.program.2 = some sz ∧ x.sz = withStack sz ∧ (∀ v, x.page v ≠ none ↔ v < pgup x.sz) ∧
    ((file.program.1.map Prod.fst).Pairwise (Agree file) → ∀ seg ∈ file.program.1,
      ∀ a < uint seg.1.filesz, ∃ e, x.page ((seg.1.vaddr + a) / PGSIZE) = some e ∧
        byteAt e.2 ((seg.1.vaddr + a) % PGSIZE) =
          (file.bytes.getD (uint seg.1.off + a) 0).toNat)

/-- What acts do to the memories. -/
inductive Private.Step (m : Nat → Option Private) : Act → (Nat → Option Private) → Prop
  | idle {a : Act} (h : ∀ x, m a.proc = some x → x.zombie = true) : Step m a m
  | full {p : Nat} (h : ∀ q < NPROC, m q ≠ none) : Step m (.fork p) m
  | fork {p q : Nat} {x : Private} (hp : m p = some x) (hx : x.zombie = false) (hq : m q = none) :
      Step m (.fork p) (Function.update m q (some x))
  | sbrk {p sz : Nat} {n : Int} {x : Private} (hp : m p = some x) (hx : x.zombie = false)
      (hsz : (sz : Int) = x.sz + n) : Step m (.sbrk p n) (Function.update m p (some (x.resize sz)))
  | noExec {p : Nat} {ip : Option File} {argv : List Arg} : Step m (.exec p ip argv) m
  | exec {p : Nat} {file : File} {argv : List Arg} {x : Private} (hx : x.zombie = false)
      (hfile : x.Loaded file) : Step m (.exec p (some file) argv) (Function.update m p (some x))
  | exit {p : Nat} {x : Private} (hp : m p = some x) (hx : x.zombie = false) :
      Step m (.exit p) (Function.update m p (some { x with zombie := true }))
  | noZombie {p q : Nat} (h : ∀ x, m q = some x → x.zombie = false) : Step m (.wait p q) m
  | wait {p q : Nat} {x : Private} (hq : m q = some x) (hx : x.zombie = true) :
      Step m (.wait p q) (Function.update m q none)
  | noStore {p v k w : Nat} {x : Private} (hp : m p = some x) (hv : ¬x.Writable v) :
      Step m (.store p v k w) m
  | store {p v k w : Nat} {x : Private} (hp : m p = some x) (hx : x.zombie = false)
      (hv : x.Writable v) : Step m (.store p v k w) (Function.update m p (some (x.write v k w)))

/-- The pages that a page directory leads to. -/
def pages (m : Nat → Nat → Nat) (pgdir v : Nat) : Option (Nat × (Nat → Nat)) :=
  (lookup m pgdir v).map fun e => (e.2, m e.1)

/-- What the processes see. -/
def Machine.memory (y : Machine) (p : Nat) : Option Private :=
  (y.proc p).map fun me => ⟨me.sz, pages y.vm.mem me.pgdir, me.zombie⟩

section Effects

variable {y y' : Machine} {A A' : Nat → Space} {kern : Nat → Prop} {p q v : Nat} {me me' : Proc}
  {s s' : State} {B : Space} {rest : Nat → Prop} {a : Act}

/-- The memory of a process with this address space. -/
def Proc.memory (me : Proc) (m : Nat → Nat → Nat) (B : Space) : Private :=
  ⟨me.sz, fun v => if v < pgup me.sz then some (B.flags v, m (B.leaf v)) else none, me.zombie⟩

theorem Lodged.pages {m : Nat → Nat → Nat} (h : Lodged m me B) (v : Nat) :
    pages m me.pgdir v = if v < pgup me.sz then some (B.flags v, m (B.leaf v)) else none := by
  rw [Memories.pages, ← h.dir, h.maps.lookup]
  by_cases hv : v < pgup me.sz
  · rw [if_pos hv, if_neg ((h.covers v).2 hv)]
    rfl
  · rw [if_neg hv, if_pos (by_contra fun hl => hv ((h.covers v).1 hl))]
    rfl

theorem Lodged.memory (hp : y.proc p = some me) (h : Lodged y.vm.mem me B) :
    y.memory p = some (me.memory y.vm.mem B) := by
  rw [Machine.memory, hp, Option.map_some, Proc.memory]
  exact congrArg (fun f => some (Private.mk me.sz f me.zombie)) (funext h.pages)

theorem memory_eq_none : y.memory p = none ↔ y.proc p = none := Option.map_eq_none_iff

/-- The memory is the same when the pages are. -/
theorem Proc.memory_congr {m m' : Nat → Nat → Nat} {B' : Space} (hsz : me'.sz = me.sz)
    (hzombie : me'.zombie = me.zombie)
    (hpage : ∀ v < pgup me.sz, B'.flags v = B.flags v ∧ m' (B'.leaf v) = m (B.leaf v)) :
    me'.memory m' B' = me.memory m B := by
  rw [Proc.memory, Proc.memory, hsz, hzombie]
  refine congrArg (fun f => Private.mk me.sz f me.zombie) (funext fun v => ?_)
  by_cases hv : v < pgup me.sz
  · rw [if_pos hv, if_pos hv, (hpage v hv).1, (hpage v hv).2]
  · rw [if_neg hv, if_neg hv]

theorem memory_frame (hq : y.proc q = some me) (hq' : y'.proc q = some me)
    (h : Lodged y.vm.mem me B) (h' : Lodged y'.vm.mem me B)
    (hmem : ∀ v, B.leaf v ≠ 0 → y'.vm.mem (B.leaf v) = y.vm.mem (B.leaf v)) :
    y'.memory q = y.memory q := by
  rw [h.memory hq, h'.memory hq']
  exact congrArg some (Proc.memory_congr rfl rfl fun v hv => ⟨rfl, hmem v ((h.covers v).2 hv)⟩)

/-- What an act does: the system stays in order, no other process sees anything of it, and if there
are enough pages it is what the process would do to a memory of its own. -/
structure Effect (kern : Nat → Prop) (y : Machine) (a : Act) (y' : Machine) : Prop where
  inv : ∃ A', Inv kern y' A'
  apart : ∀ q, q ≠ a.proc → y.proc q ≠ none → y'.proc q ≠ none → y'.memory q = y.memory q
  refines : y'.vm.refused = false → Private.Step y.memory a y'.memory

theorem Effect.refl (h : Inv kern y A)
    (hstep : y.vm.refused = false → Private.Step y.memory a y.memory) : Effect kern y a y :=
  ⟨⟨A, h⟩, fun _ _ _ _ => rfl, hstep⟩

/-- The address space of the process that acts is replaced. -/
theorem Effect.replace (h : Inv kern y A) (hp : y.proc p = some me) (ha : a.proc = p)
    (hs : Owns s' B (Others kern y A p)) (hkend : s'.kend = y.vm.kend)
    (hmem : ∀ x, x ≠ 0 → Others kern y A p x → s'.mem x = y.vm.mem x)
    (hk : me'.kstack = me.kstack) (hdir : B.dir = me'.pgdir) (hc : Covers B (pgup me'.sz))
    (hsize : 0 < pgup me'.sz)
    (hstep : s'.refused = false → Private.Step y.memory a
      (Function.update y.memory p (some (me'.memory s'.mem B)))) :
    Effect kern y a ⟨s', Function.update y.proc p (some me')⟩ := by
  have hinv := h.replace hp hs hkend hmem hk hdir hc hsize
  have hother : ∀ q, q ≠ p → Machine.memory ⟨s', Function.update y.proc p (some me')⟩ q =
      y.memory q := by
    intro q hq
    cases hproc : y.proc q with
    | none =>
        rw [memory_eq_none.2 hproc, memory_eq_none]
        dsimp only
        rw [Function.update_of_ne hq, hproc]
    | some me₁ =>
        have hproc' : Function.update y.proc p (some me') q = some me₁ := by
          rw [Function.update_of_ne hq, hproc]
        have hl := hinv.lodged q me₁ hproc'
        rw [Function.update_of_ne hq] at hl
        exact memory_frame hproc hproc' (h.lodged q me₁ hproc) hl fun v hv =>
          hmem _ hv (others_page (r := .leaf v) hproc hq hv)
  refine ⟨⟨_, hinv⟩, fun q hq _ _ => hother q (ha ▸ hq), fun hr => ?_⟩
  have hmemory : Machine.memory ⟨s', Function.update y.proc p (some me')⟩ =
      Function.update y.memory p (some (me'.memory s'.mem B)) := by
    funext q
    by_cases hq : q = p
    · subst hq
      have hl := hinv.lodged q me' (Function.update_self _ _ _)
      rw [Function.update_self] at hl
      rw [Function.update_self]
      exact hl.memory (Function.update_self _ _ _)
    · rw [Function.update_of_ne hq, hother q hq]
  rw [hmemory]
  exact hstep hr

/-- The process that acts keeps its memory. -/
theorem Effect.keep (h : Inv kern y A) (hp : y.proc p = some me) (ha : a.proc = p)
    (hs : Owns s' B (Others kern y A p)) (hkend : s'.kend = y.vm.kend)
    (hmem : ∀ x, x ≠ 0 → Others kern y A p x → s'.mem x = y.vm.mem x)
    (hdir : B.dir = me.pgdir) (hc : Covers B (pgup me.sz))
    (hdata : s'.refused = false → Private.Step y.memory a y.memory ∧
      ∀ v < pgup me.sz, B.flags v = (A p).flags v ∧
        s'.mem (B.leaf v) = y.vm.mem ((A p).leaf v)) :
    Effect kern y a { y with vm := s' } := by
  have hl := h.lodged p me hp
  have heffect : Effect kern y a ⟨s', Function.update y.proc p (some me)⟩ := by
    refine .replace h hp ha hs hkend hmem rfl hdir hc hl.size fun hr => ?_
    obtain ⟨hstep, hpage⟩ := hdata hr
    rwa [Proc.memory_congr rfl rfl hpage, ← hl.memory hp, Function.update_eq_self]
  rwa [← hp, Function.update_eq_self] at heffect

end Effects

/-! ## The flags of the allocator -/

section Flags

theorem wp_lift {α : Type} {m : M α} {y : Machine} {Q : α → Machine → Prop}
    {E : Stop → Machine → Prop}
    (h : wp m (fun r s => Q r { y with vm := s }) (fun e s => E e { y with vm := s }) y.vm) :
    wp (lift m) Q E y := by
  cases hm : m.run y.vm with
  | ok r s =>
      have hrun : (lift m).run y = .ok r { y with vm := s } := by
        simp only [lift, hm]
      exact wp_of_ok hrun (ok_of_wp h hm)
  | fail e s =>
      have hrun : (lift m).run y = .fail e { y with vm := s } := by
        simp only [lift, hm]
      exact wp_of_fail hrun (fail_of_wp h hm)

theorem copyLoop_steady (pgdir d n : Nat) : ∀ v : Nat, Preserves Steady (copyLoop pgdir d n v) := by
  induction n with
  | zero => exact fun v => .pure true
  | succ n ih =>
      refine fun v => .bind (walkpgdir_steady _ _ _) fun r => ?_
      rcases r with - | ⟨t, k⟩
      · exact .stop _
      · refine .bind (load_steady _ _) fun pte => .ite (.bind kalloc_steady fun p => ?_) (.stop _)
        cases p with
        | none => exact .pure false
        | some p =>
            refine .bind .get fun s => .bind (fill_steady _ _) fun _ => .bind ?_ fun done => ?_
            · exact ⟨fun s => wp_imp (wp_mappagesLoop_steady d _ _ _ p s) fun _ _ h => h.1⟩
            · exact .ite (ih _) (.bind (lose_steady p) fun _ => .pure false)

theorem copyuvm_steady (pgdir sz : Nat) : Preserves Steady (copyuvm pgdir sz) := by
  refine .bind setupkvm_steady fun d => ?_
  cases d with
  | none => exact .pure none
  | some d =>
      exact .bind (copyLoop_steady _ _ _ _) fun _ =>
        .ite (.pure _) (.bind (freevm_steady _) fun _ => .pure _)

/-- The same for the whole system. -/
def Onward (y y' : Machine) : Prop := Steady y.vm y'.vm

instance : IsPreorder Machine Onward where
  refl y := refl_of Steady y.vm
  trans _ _ _ h h' := trans_of Steady h h'

theorem lift_onward {α : Type} {m : M α} (h : Preserves Steady m) : Preserves Onward (lift m) :=
  ⟨fun y => wp_lift (h.wp y.vm)⟩

theorem setProc_onward (p : Nat) (x : Option Proc) : Preserves Onward (setProc p x) :=
  .modify fun y => refl_of Steady y.vm

theorem body_onward (a : Act) (me : Proc) : Preserves Onward (a.body me) := by
  cases a with
  | fork p =>
      refine .bind (.bind .get fun y => ?_) fun _ => .pure ()
      cases y.slot with
      | none => exact .pure none
      | some np =>
          refine .bind (lift_onward kalloc_steady) fun k => ?_
          cases k with
          | none => exact .pure none
          | some k =>
              refine .bind (lift_onward (copyuvm_steady _ _)) fun d => ?_
              cases d with
              | none => exact .bind (lift_onward (kfree_steady k)) fun _ => .pure none
              | some d => exact .bind (setProc_onward _ _) fun _ => .pure _
  | sbrk p n =>
      refine .bind (.ite (.pure 0) (.bind (lift_onward ?_) fun sz =>
        .ite (.pure (-1)) (.bind (setProc_onward _ _) fun _ => .pure 0))) fun _ => .pure ()
      exact .ite (allocuvm_steady _ _ _) (deallocuvm_steady _ _ _)
  | exec p ip argv =>
      refine .bind (.bind (lift_onward (exec_steady _ _ _)) fun i => ?_) fun _ => .pure ()
      cases i with
      | none => exact .pure (-1)
      | some i => exact .bind (setProc_onward _ _) fun _ => .pure 0
  | exit p => exact setProc_onward _ _
  | wait p q =>
      refine .bind .get fun y => ?_
      cases y.proc q with
      | none => exact .pure ()
      | some child =>
          refine .ite (.bind (lift_onward (kfree_steady _)) fun _ =>
            .bind (lift_onward (freevm_steady _)) fun _ => setProc_onward _ _) (.pure ())
  | store p v k w =>
      refine .bind .get fun y => ?_
      cases lookup y.vm.mem me.pgdir v with
      | none => exact .pure ()
      | some e => exact .ite (.modify fun y' => .of_eq rfl rfl) (.pure ())

theorem code_onward (a : Act) : Preserves Onward a.code := by
  refine .bind .get fun y => ?_
  cases y.proc a.proc with
  | none => exact .pure ()
  | some me =>
      have hswitch : Preserves Onward (switchuvm me) :=
        .bind .get fun _ => .ite (.stop _) (.modify fun y' => .of_eq rfl rfl)
      exact .ite (.pure ()) (.bind hswitch fun _ => body_onward a me)

end Flags

/-! ## What the calls do -/

section Calls

variable {y : Machine} {A : Nat → Space} {kern : Nat → Prop} {p q k : Nat} {me : Proc}
  {s₁ s' : State} {B : Space}

/-- The pages of the others and of the space are the pages in use. -/
theorem others_or_space (hp : y.proc p = some me) (x : Nat) :
    Others kern y A p x ∨ x ≠ 0 ∧ (A p).Has x ↔ kern x ∨ x ≠ 0 ∧ ∃ i, y.ref A i = x := by
  constructor
  · rintro ((hk | ⟨hx, i, rfl⟩) | ⟨hx, r, rfl⟩)
    · exact .inl hk
    · refine .inr ⟨hx, i, ?_⟩
      by_cases hi : i.1 = p ∧ i.2 ≠ none
      · exact absurd (if_pos hi) hx
      · exact (others_of_ne hi).symm
    · exact .inr ⟨hx, (p, some r), ref_some hp r⟩
  · rintro (hk | ⟨hx, ⟨q, o⟩, rfl⟩)
    · exact .inl (.inl hk)
    · by_cases hi : q = p ∧ o ≠ none
      · obtain ⟨rfl, ho⟩ := hi
        obtain ⟨r, rfl⟩ := Option.ne_none_iff_exists'.1 ho
        exact .inr ⟨hx, r, (ref_some hp r).symm⟩
      · exact .inl (.inr ⟨hx, (q, o), others_of_ne hi⟩)

theorem slot_none (h : y.slot = none) {q : Nat} (hq : q < NPROC) : y.memory q ≠ none := by
  have := List.find?_eq_none.1 h q (List.mem_range.2 hq)
  rwa [Option.isNone_iff_eq_none, ← memory_eq_none] at this

theorem slot_some (h : y.slot = some q) : y.proc q = none := by
  have hfound := List.find?_some h
  exact Option.isNone_iff_eq_none.1 hfound

/-- The child has a copy of the memory. -/
theorem Effect.child (h : Inv kern y A) (hp : y.proc p = some me) (hx : me.zombie = false)
    (hq : y.proc q = none) (hk : Got (A p) (Others kern y A p) y.vm k s₁)
    (hcopy : Copy (withSpace (withPage (Others kern y A p) k) (A p)) (A p) (pgup me.sz)
      ((A p).leaf 0) s₁ B s') :
    Effect kern y (.fork p) ⟨s', Function.update y.proc q (some ⟨B.dir, me.sz, k, false⟩)⟩ := by
  have hl := h.lodged p me hp
  have hne : p ≠ q := by
    rintro rfl
    rw [hp] at hq
    cases hq
  have hk0 := hk.ne_zero
  have hkfree : k ∈ y.vm.free := by
    rw [hk.free]
    exact List.mem_cons_self
  have h0 : (A p).leaf 0 ≠ 0 := (hl.covers 0).2 hl.size
  have hmem : ∀ x, x ≠ 0 → Others kern y A p x ∨ (A p).Has x →
      x ≠ (A p).leaf 0 ∨ s'.refused = false → s'.mem x = y.vm.mem x := by
    intro x hx0 hin hcase
    rw [hcopy.mem x hx0 (hin.imp .inl fun hhas => ⟨hx0, hhas⟩) hcase, hk.mem]
  have hother : ∀ x, x ≠ 0 → Others kern y A p x → s'.mem x = y.vm.mem x := by
    intro x hx0 hin
    refine hmem x hx0 (.inl hin) (.inl ?_)
    rintro rfl
    exact (h.owns hp).notRest (.leaf 0) h0 hin
  have hinv : Inv kern ⟨s', Function.update y.proc q (some ⟨B.dir, me.sz, k, false⟩)⟩
      (Function.update A q B) := by
    refine h.add hq hk0 hkfree ?_ (hcopy.kend.trans hk.grows.kend) ?_ rfl hcopy.covers hl.size
    · refine cast (congrArg (Owns s' B) (funext fun x => propext ?_)) hcopy.owns
      have hiff : Others kern y A p x ∨ x ≠ 0 ∧ (A p).Has x ↔
          kern x ∨ x ≠ 0 ∧ ∃ i, y.ref A i = x := others_or_space hp x
      simp only [withSpace, withPage]
      grind
    · intro q' me₁ hq' r hr hdata
      by_cases hqp : q' = p
      · subst hqp
        exact hmem _ hr (.inr ⟨r, rfl⟩) (.inl (hdata 0))
      · exact hother _ hr (others_page hq' hqp hr)
  have hlodged : ∀ q' me₁, y.proc q' = some me₁ → Lodged s'.mem me₁ (A q') := by
    intro q' me₁ hq'
    have hqq : q' ≠ q := by
      rintro rfl
      rw [hq] at hq'
      cases hq'
    have hl' := hinv.lodged q' me₁ (by rw [← hq']; exact Function.update_of_ne hqq _ _)
    rwa [Function.update_of_ne hqq] at hl'
  have hsame : ∀ q' me₁, y.proc q' = some me₁ → q' ≠ p ∨ s'.refused = false →
      Machine.memory ⟨s', Function.update y.proc q (some ⟨B.dir, me.sz, k, false⟩)⟩ q' =
        y.memory q' := by
    intro q' me₁ hq' hcase
    have hqq : q' ≠ q := by
      rintro rfl
      rw [hq] at hq'
      cases hq'
    refine memory_frame hq' (by rw [← hq']; exact Function.update_of_ne hqq _ _)
      (h.lodged q' me₁ hq') (hlodged q' me₁ hq') fun v hv => ?_
    by_cases hqp : q' = p
    · subst hqp
      exact hmem _ hv (.inr ⟨.leaf v, rfl⟩) (.inr (hcase.resolve_left fun hne => hne rfl))
    · exact hother _ hv (others_page (r := .leaf v) hq' hqp hv)
  refine ⟨⟨_, hinv⟩, fun q' hqp hq' _ => ?_, fun hr => ?_⟩
  · obtain ⟨me₁, hme⟩ := Option.ne_none_iff_exists'.1 hq'
    exact hsame q' me₁ hme (.inl hqp)
  · have hmemory : Machine.memory ⟨s', Function.update y.proc q (some ⟨B.dir, me.sz, k, false⟩)⟩ =
        Function.update y.memory q (some (me.memory y.vm.mem (A p))) := by
      funext q'
      by_cases hqq : q' = q
      · subst hqq
        have hl' := hinv.lodged q' _ (Function.update_self _ _ _)
        rw [Function.update_self] at hl'
        rw [Function.update_self, hl'.memory (Function.update_self _ _ _)]
        refine congrArg some (Proc.memory_congr rfl hx.symm fun v hv => ?_)
        obtain ⟨hflags, hpage⟩ := hcopy.same v hv
        refine ⟨hflags, ?_⟩
        dsimp only
        rw [hpage (.inr hr), hk.mem]
      · rw [Function.update_of_ne hqq]
        cases hq' : y.proc q' with
        | none =>
            rw [memory_eq_none.2 hq', memory_eq_none]
            dsimp only
            rw [Function.update_of_ne hqq, hq']
        | some me₁ => exact hsame q' me₁ hq' (.inr hr)
    rw [hmemory]
    exact .fork (hl.memory hp) hx (memory_eq_none.2 hq)

/-- There is no child. -/
theorem Effect.noChild (h : Inv kern y A) (hp : y.proc p = some me)
    (hk : Got (A p) (Others kern y A p) y.vm k s₁)
    (hno : NoSpace (withSpace (withPage (Others kern y A p) k) (A p)) ((A p).leaf 0) s₁ s')
    (c : Nat → Nat) :
    Effect kern y (.fork p)
      { y with vm := { s' with mem := Function.update s'.mem k c, free := k :: s'.free } } := by
  have hl := h.lodged p me hp
  have h0 : (A p).leaf 0 ≠ 0 := (hl.covers 0).2 hl.size
  have hrest : ¬Others kern y A p k := hk.taken.2.2.1
  have hmanaged : s'.Managed k := by
    rw [State.Managed, hno.kend]
    exact hk.taken.2.2.2
  have howns : Owns s' (A p) (withPage (Others kern y A p) k) :=
    hk.owns.intact hno.pool hno.kend hno.mem
  refine .keep h hp rfl (howns.giveBack hrest hmanaged c) (hno.kend.trans hk.grows.kend)
    (fun x hx0 hin => ?_) hl.dir hl.covers fun hr => ?_
  · have hxk : x ≠ k := fun heq => hrest (heq ▸ hin)
    dsimp only
    rw [Function.update_of_ne hxk, hno.mem x hx0 (.inl (.inl hin)), hk.mem]
    rintro rfl
    exact (h.owns hp).notRest (.leaf 0) h0 hin
  · have hr : s'.refused = false := hr
    rw [hno.isRefused] at hr
    cases hr

/-- The effect of an act, if every `allocuvm` has mapped its pages. -/
abbrev Does (kern : Nat → Prop) (y : Machine) (a : Act) (y' : Machine) : Prop :=
  y'.vm.missed = false → Effect kern y a y'

/-- No stop. -/
abbrev Never (_ : Stop) (_ : Machine) : Prop := False

/-- `exec` may stop for want of pages. -/
abbrev Short (a : Act) (_ : Stop) (y' : Machine) : Prop :=
  (∃ p ip argv, a = .exec p ip argv) ∧ (y'.vm.missed = true ∨ y'.vm.refused = true)

theorem fork_spec (h : Inv kern y A) (hp : y.proc p = some me) (hx : me.zombie = false)
    (hcr3 : y.vm.cr3 = me.pgdir) :
    wp (fork me) (fun _ y' => Does kern y (.fork p) y') Never y := by
  have hl := h.lodged p me hp
  unfold fork
  rw [wp_bind, wp_get]
  cases hslot : y.slot with
  | none =>
      dsimp only
      rw [wp_pure]
      exact fun _ => .refl h fun _ => .full fun q hq => slot_none hslot hq
  | some np =>
      have hnp := slot_some hslot
      dsimp only
      rw [wp_bind]
      refine wp_lift (kalloc_spec (h.owns hp) (fun s₁ h₁ => ?_) fun k s₁ h₁ => ?_)
      · dsimp only
        rw [wp_pure]
        refine fun _ => .keep h hp rfl h₁.owns h₁.grows.kend
          (fun x hx0 hin => h₁.grows.mem x hx0 (.inl hin)) hl.dir hl.covers fun hr => ?_
        rw [h₁.refused] at hr
        cases hr
      · dsimp only
        rw [wp_bind, ← hl.dir]
        refine wp_lift (copyuvm_spec h₁.owns.poolWith h₁.owns.lives ?_ hl.covers hl.size
          (fun s₂ h₂ => ?_) fun B s₂ h₂ => ?_)
        · exact h₁.grows.cr3.trans (hcr3.trans hl.dir.symm)
        · dsimp only
          rw [wp_bind]
          refine wp_lift (wp_kfree ?_ ?_)
          · show s₂.Managed k
            rw [State.Managed, h₂.kend]
            exact h₁.taken.2.2.2
          · rw [wp_pure]
            exact fun _ => .noChild h hp h₁ h₂ _
        · dsimp only
          unfold setProc
          rw [wp_bind, wp_modify, wp_pure]
          exact fun _ => .child h hp hx hnp h₁ h₂

theorem Proc.memory_resize {m m' : Nat → Nat → Nat} {B' : Space} {sz : Nat}
    (hold : ∀ v < pgup sz, v < pgup me.sz →
      B'.flags v = B.flags v ∧ m' (B'.leaf v) = m (B.leaf v))
    (hnew : ∀ v < pgup sz, pgup me.sz ≤ v → B'.flags v = 7 ∧ m' (B'.leaf v) = fun _ => 0) :
    Proc.memory { me with sz } m' B' = (me.memory m B).resize sz := by
  refine congrArg (fun f => Private.mk sz f me.zombie) (funext fun v => ?_)
  dsimp only [Proc.memory]
  by_cases hv : v < pgup sz
  · rw [if_pos hv, if_pos hv]
    by_cases hv' : v < pgup me.sz
    · rw [if_pos hv', (hold v hv hv').1, (hold v hv hv').2]
      rfl
    · rw [if_neg hv', (hnew v hv (Nat.not_lt.1 hv')).1, (hnew v hv (Nat.not_lt.1 hv')).2]
      rfl
  · rw [if_neg hv, if_neg hv]

theorem pgup_pos {sz : Nat} (h : 0 < sz) : 0 < pgup sz := by
  simp only [pgup, PGSIZE]
  omega

/-- The size that `growproc` asks for. -/
theorem uint_size {sz : Nat} {n : Int} (h0 : 0 < (sz : Int) + n)
    (hle : (sz : Int) + n ≤ (VPAGES * PGSIZE : Nat)) : (uint (sz + n) : Int) = sz + n := by
  simp only [uint, VPAGES, PGSIZE] at *
  omega

theorem growproc_spec {n : Int} (h : Inv kern y A) (hp : y.proc p = some me)
    (hx : me.zombie = false) (h0 : 0 < (me.sz : Int) + n)
    (hle : (me.sz : Int) + n ≤ (VPAGES * PGSIZE : Nat)) :
    wp (growproc p me n) (fun _ y' => Does kern y (.sbrk p n) y') Never y := by
  have hl := h.lodged p me hp
  have hsmall : pgup me.sz ≤ NPAGES := hl.covers.small (h.owns hp)
  have hpages : NPAGES < VPAGES := by decide
  have hsize := uint_size h0 hle
  have hnew : pgup (uint (me.sz + n)) ≤ VPAGES := by
    simp only [pgup, VPAGES, PGSIZE] at *
    omega
  have hpos : 0 < pgup (uint (me.sz + n)) := pgup_pos (by omega)
  unfold growproc
  rw [wp_ite]
  refine ⟨?_, fun hn => ?_⟩
  · rintro rfl
    rw [wp_pure]
    refine fun _ => .refl h fun _ => ?_
    have hsame : Proc.memory { me with sz := me.sz } y.vm.mem (A p) =
        (me.memory y.vm.mem (A p)).resize me.sz :=
      Proc.memory_resize (fun _ _ _ => ⟨rfl, rfl⟩) fun v hv hge => absurd hv (Nat.not_lt.2 hge)
    have hstep : Private.Step y.memory (.sbrk p 0) (Function.update y.memory p
        (some ((me.memory y.vm.mem (A p)).resize me.sz))) :=
      .sbrk (hl.memory hp) hx (Int.add_zero _).symm
    rwa [← hsame, ← hl.memory hp, Function.update_eq_self] at hstep
  · rw [wp_bind]
    refine wp_lift ?_
    by_cases hgrow : 0 < n
    · have hspec := allocuvm_cleared (h.owns hp) hl.covers.below
        (show pgup me.sz + min (pgup (uint (me.sz + n)) - pgup me.sz) y.vm.free.length ≤ VPAGES by
          omega) fun hlt => absurd hlt (by omega)
      rw [hl.dir] at hspec
      rw [if_pos hgrow]
      refine wp_mono hspec ?_ fun _ _ hE => absurd hE.2.1 (by omega)
      rintro r s' ⟨B, hB, hclear⟩
      rw [wp_ite]
      refine ⟨fun hr => ?_, fun hr => ?_⟩
      · rw [wp_pure]
        refine fun _ => .keep h hp rfl hB.owns hB.kend (fun x hx0 hin => hB.mem x hx0 (.inl hin))
          (hB.dir.trans hl.dir) (hB.restored hl.covers hr) fun hno => ?_
        have hno : s'.refused = false := hno
        rw [hB.short hr (by omega)] at hno
        cases hno
      · unfold setProc
        rw [wp_bind, wp_modify, wp_pure]
        intro hm
        have hrsz : r = uint (me.sz + n) := by
          have := hB.result
          omega
        refine .replace h hp rfl hB.owns hB.kend (fun x hx0 hin => hB.mem x hx0 (.inl hin)) rfl
          (hB.dir.trans hl.dir) (hB.grown hl.covers hr hm) (hrsz ▸ hpos) fun _ => ?_
        rw [Proc.memory_resize (B := A p) (m := y.vm.mem) (fun v _ hold => ?_)
          fun v hv hge => ⟨hB.writable hl.covers hr hm v hge hv, ?_⟩]
        · exact .sbrk (hl.memory hp) hx (by rw [hrsz]; exact hsize)
        · obtain ⟨hleaf, hflags⟩ := hB.keeps v hold
          rw [hleaf]
          exact ⟨hflags, hB.mem _ ((hl.covers v).2 hold) (.inr ⟨v, hold, rfl⟩)⟩
        · exact hclear hr (by omega) v hge (by rw [hrsz] at hv; omega)
            ((hB.grown hl.covers hr hm v).2 hv)
    · have hspec := deallocuvm_spec (h.owns hp) (show uint (me.sz + n) < me.sz by omega)
        (by omega) fun hlt => absurd hlt (by omega)
      rw [hl.dir] at hspec
      rw [if_neg hgrow]
      refine wp_mono hspec ?_ fun _ _ hE => absurd hE.2 (by omega)
      rintro r s' ⟨rfl, B, hB⟩
      rw [wp_ite]
      refine ⟨fun hr => absurd hr (by omega), fun _ => ?_⟩
      unfold setProc
      rw [wp_bind, wp_modify, wp_pure]
      intro _
      have hkeep : ∀ v < pgup (uint (me.sz + n)), v < pgup me.sz := fun v hv =>
        Nat.lt_of_lt_of_le hv (pgup_mono (by omega))
      have hcovers : Covers B (pgup (uint (me.sz + n))) := by
        intro v
        by_cases hv : v < pgup (uint (me.sz + n))
        · rw [(hB.outside v (.inl hv)).1]
          exact iff_of_true ((hl.covers v).2 (hkeep v hv)) hv
        · refine iff_of_false (fun hleaf => hleaf ?_) hv
          by_cases hold : v < pgup me.sz
          · refine hB.inside (.inl ?_) v (by omega) hold
            exact (hl.maps.leaf _ ((hl.covers _).2 (by omega))).1
          · rw [(hB.outside v (.inr (by omega))).1]
            by_contra hno
            exact hold ((hl.covers v).1 hno)
      refine .replace h hp rfl hB.owns hB.kend (fun x hx0 hin => hB.mem x hx0 (.inl hin)) rfl
        (hB.dir.trans hl.dir) hcovers hpos fun _ => ?_
      rw [Proc.memory_resize (B := A p) (m := y.vm.mem) (fun v hv _ => ?_)
        fun v hv hge => absurd (hkeep v hv) (Nat.not_lt.2 hge)]
      · exact .sbrk (hl.memory hp) hx hsize
      · obtain ⟨hleaf, hflags⟩ := hB.outside v (.inl hv)
        refine ⟨hflags, ?_⟩
        rw [hB.mem _ ((hcovers v).2 hv) (.inr ⟨v, rfl⟩), hleaf]

theorem exec_effect {ip : Option File} {argv : List Arg} (h : Inv kern y A)
    (hp : y.proc p = some me) (hx : me.zombie = false) (hcr3 : y.vm.cr3 = me.pgdir)
    (hlegal : Spares 3 y.vm.denials ∧
      ∀ file, ip = some file → Sound file file.program.1 ∧ Fit argv 0 PGSIZE) :
    wp (exec p me ip argv) (fun _ y' => Does kern y (.exec p ip argv) y')
      (Short (.exec p ip argv)) y := by
  have hl := h.lodged p me hp
  have h0 : (A p).leaf 0 ≠ 0 := (hl.covers 0).2 hl.size
  have hspec : wp (Vm.exec (A p).dir ip argv) (ExecPost (Others kern y A p) (A p) ip
      (fun sz => pgup sz * PGSIZE + PGSIZE) y.vm) (ExecStop y.vm) y.vm :=
    exec_spec (h.owns hp) (hcr3.trans hl.dir.symm) h0 (fun file hfile => (hlegal.2 file hfile).1)
      fun file hfile sz _ => (hlegal.2 file hfile).2.page sz
  unfold exec
  rw [wp_bind, ← hl.dir]
  refine wp_lift (wp_mono hspec (fun r s' hpost => ?_)
    fun _ _ hE => ⟨⟨p, ip, argv, rfl⟩, hE.imp_right fun hE => hE.1⟩)
  cases r with
  | none =>
      dsimp only
      rw [wp_pure]
      intro hm
      have hfailed := (hpost hm (.inl hlegal.1)).1 rfl
      exact .keep h hp rfl hfailed.owns hfailed.kend hfailed.mem hl.dir hl.covers fun hr =>
        ⟨.noExec, fun v hv => ⟨rfl, hfailed.data v ((hl.covers v).2 hv) (.inr hr)⟩⟩
  | some i =>
      dsimp only
      unfold setProc
      rw [wp_bind, wp_modify, wp_pure]
      intro hm
      obtain ⟨file, B, rfl, hexec⟩ := (hpost hm (.inl hlegal.1)).2 i rfl
      obtain ⟨sz, hprog, hdir, hsz, -, hcovers, hplaced⟩ := hexec.image
      have hpos : 0 < pgup i.sz := pgup_pos (by rw [hsz, withStack, PGSIZE]; omega)
      refine .replace h hp rfl hexec.owns hexec.kend hexec.mem rfl hdir.symm hcovers hpos
        fun _ => ?_
      refine .exec hx ⟨sz, hprog, hsz, fun v => ?_, fun hagree seg hseg a ha => ?_⟩
      · by_cases hv : v < pgup i.sz
        · simp [Proc.memory, hv]
        · simp [Proc.memory, hv]
      · obtain ⟨hleaf, hbyte⟩ := hplaced (Nat.le_add_right _ _) hagree seg hseg a ha
        exact ⟨_, if_pos ((hcovers _).1 hleaf), hbyte⟩

theorem exit_spec (h : Inv kern y A) (hp : y.proc p = some me) (hx : me.zombie = false) :
    wp (setProc p (some { me with zombie := true })) (fun _ y' => Does kern y (.exit p) y')
      Never y := by
  have hl := h.lodged p me hp
  unfold setProc
  rw [wp_modify]
  exact fun _ => .replace h hp rfl (h.owns hp) rfl (fun _ _ _ => rfl) rfl hl.dir hl.covers hl.size
    fun _ => .exit (hl.memory hp) hx

/-- A `ZOMBIE` is gone. -/
theorem Effect.reaped {child : Proc} (h : Inv kern y A) (hq : y.proc q = some child)
    (hz : child.zombie = true) (hpool : s'.Pool fun x => kern x ∨ x ≠ 0 ∧ ∃ i : Use,
      i.1 ≠ q ∧ y.ref A i = x) (hkend : s'.kend = y.vm.kend)
    (hmem : ∀ x, x ≠ 0 → (∃ i : Use, i.1 ≠ q ∧ y.ref A i = x) → s'.mem x = y.vm.mem x) :
    Effect kern y (.wait p q) ⟨s', Function.update y.proc q none⟩ := by
  have hinv := h.remove hpool hkend hmem
  have hother : ∀ q', q' ≠ q → Machine.memory ⟨s', Function.update y.proc q none⟩ q' =
      y.memory q' := by
    intro q' hne
    have hproc : Function.update y.proc q none q' = y.proc q' := Function.update_of_ne hne _ _
    cases hq' : y.proc q' with
    | none =>
        rw [memory_eq_none.2 hq', memory_eq_none]
        exact hproc.trans hq'
    | some me₁ =>
        refine memory_frame hq' (hproc.trans hq') (h.lodged q' me₁ hq')
          (hinv.lodged q' me₁ (hproc.trans hq')) fun v hv => ?_
        exact hmem _ hv ⟨(q', some (.leaf v)), hne, ref_some hq' _⟩
  refine ⟨⟨A, hinv⟩, fun q' _ _ hq' => hother q' ?_, fun _ => ?_⟩
  · rintro rfl
    exact hq' (Function.update_self _ _ _)
  · have hmemory : Machine.memory ⟨s', Function.update y.proc q none⟩ =
        Function.update y.memory q none := by
      funext q'
      by_cases hne : q' = q
      · subst hne
        rw [Function.update_self, memory_eq_none]
        exact Function.update_self _ _ _
      · rw [Function.update_of_ne hne, hother q' hne]
    rw [hmemory]
    exact .wait ((h.lodged q child hq).memory hq) hz

theorem reap_spec {child : Proc} (h : Inv kern y A) (hq : y.proc q = some child)
    (hz : child.zombie = true) :
    wp (reap q child) (fun _ y' => Does kern y (.wait p q) y') Never y := by
  have hl := h.lodged q child hq
  let rest : Nat → Prop := fun x => kern x ∨ x ≠ 0 ∧ ∃ i : Use, i.1 ≠ q ∧ y.ref A i = x
  have hstack : y.vm.Taken kern child.kstack := by
    rw [← ref_none (A := A) hq]
    exact h.excl.held (q, none) (by rw [ref_none hq]; exact hl.kstack)
  have hnew : ¬rest child.kstack := by
    rintro (hk | ⟨hx0, i, hiq, hi⟩)
    · exact hstack.2.2.1 hk
    · rw [← ref_none (A := A) hq] at hi hx0
      exact hiq (congrArg Prod.fst (h.excl.inj i (q, none) (by rw [hi]; exact hx0) hi))
  have howns : Owns y.vm (A q) (withPage rest child.kstack) := by
    refine cast (congrArg (Owns y.vm (A q)) (funext fun x => propext ?_)) (h.owns hq)
    constructor
    · rintro (hk | ⟨hx0, ⟨q', o⟩, rfl⟩)
      · exact .inl (.inl hk)
      · by_cases hi : q' = q ∧ o ≠ none
        · exact absurd (if_pos hi) hx0
        · rw [others_of_ne hi] at hx0 ⊢
          by_cases hqq : q' = q
          · subst hqq
            obtain rfl : o = none := by
              by_contra ho
              exact hi ⟨rfl, ho⟩
            exact .inr (ref_none hq)
          · exact .inl (.inr ⟨hx0, (q', o), hqq, rfl⟩)
    · rintro ((hk | ⟨hx0, i, hiq, rfl⟩) | rfl)
      · exact .inl hk
      · exact .inr ⟨hx0, i, others_of_ne fun hi => hiq hi.1⟩
      · exact .inr ⟨hl.kstack, (q, none), (others_of_ne fun hi => hi.2 rfl).trans (ref_none hq)⟩
  unfold reap
  rw [wp_bind]
  refine wp_lift (wp_kfree hstack.2.2.2 ?_)
  rw [wp_bind, ← hl.dir]
  refine wp_lift (wp_mono (freevm_spec (howns.giveBack hnew hstack.2.2.2 _)) (fun _ s' hs' => ?_)
    fun _ _ hno => hno.elim)
  unfold setProc
  rw [wp_modify]
  refine fun _ => .reaped h hq hz hs'.pool hs'.kend fun x hx0 hin => ?_
  rw [hs'.mem x hx0 (.inr ⟨hx0, hin⟩)]
  refine Function.update_of_ne ?_ _ _
  rintro rfl
  exact hnew (.inr ⟨hx0, hin⟩)

theorem userStore_spec {v k w : Nat} (h : Inv kern y A) (hp : y.proc p = some me)
    (hx : me.zombie = false) :
    wp (userStore me v k w) (fun _ y' => Does kern y (.store p v k w) y') Never y := by
  have hl := h.lodged p me hp
  have hmemory := hl.memory hp
  unfold userStore
  rw [wp_bind, wp_get, ← hl.dir, hl.maps.lookup]
  by_cases hv : (A p).leaf v = 0
  · rw [if_pos hv]
    dsimp only
    rw [wp_pure]
    refine fun _ => .refl h fun _ => .noStore hmemory ?_
    rintro ⟨e, he, -⟩
    dsimp only [Proc.memory] at he
    rw [if_neg fun hlt => (hl.covers v).2 hlt hv] at he
    cases he
  · have hlt := (hl.covers v).1 hv
    rw [if_neg hv]
    dsimp only
    rw [wp_ite]
    refine ⟨fun hmay => ?_, fun hmay => ?_⟩
    · rw [wp_modify]
      intro _
      have howns := h.owns hp
      have hframe : ∀ r, (A p).page r ≠ 0 → r ≠ .leaf v →
          storeWord y.vm.mem ((A p).leaf v) k w ((A p).page r) = y.vm.mem ((A p).page r) :=
        fun r hr hne => storeWord_of_ne fun heq => hne (howns.excl.inj r (.leaf v) hr heq)
      have hs : Owns { y.vm with mem := storeWord y.vm.mem ((A p).leaf v) k w } (A p)
          (Others kern y A p) :=
        ⟨hl.maps.congr (hframe .dir howns.dir nofun) fun i hi => hframe (.table i) hi nofun,
          howns.excl, howns.dir, howns.pool.kend, howns.pool.nodup, howns.pool.free,
          howns.pool.lost⟩
      have heffect : Effect kern y (.store p v k w)
          ⟨{ y.vm with mem := storeWord y.vm.mem ((A p).leaf v) k w },
            Function.update y.proc p (some me)⟩ := by
        refine .replace h hp rfl hs rfl (fun x _ hin => storeWord_of_ne ?_) rfl hl.dir hl.covers
          hl.size fun _ => ?_
        · rintro rfl
          exact howns.notRest (.leaf v) hv hin
        · have hwrite : me.memory (storeWord y.vm.mem ((A p).leaf v) k w) (A p) =
              (me.memory y.vm.mem (A p)).write v k w := by
            refine congrArg (fun f => Private.mk me.sz f me.zombie) (funext fun u => ?_)
            dsimp only [Proc.memory]
            by_cases huv : u = v
            · subst huv
              rw [Function.update_self, if_pos hlt, if_pos hlt, Option.map_some]
              refine congrArg (fun c => some ((A p).flags u, c)) (funext fun j => ?_)
              rw [storeWord, Function.update_apply]
              simp only [true_and]
            · rw [Function.update_of_ne huv]
              by_cases hu : u < pgup me.sz
              · rw [if_pos hu, if_pos hu, storeWord_of_ne fun heq => huv ?_]
                exact Role.leaf.inj (howns.excl.inj (.leaf u) (.leaf v) ((hl.covers u).2 hu) heq)
              · rw [if_neg hu, if_neg hu]
          rw [hwrite]
          exact .store hmemory hx ⟨_, if_pos hlt, hmay⟩
      rwa [← hp, Function.update_eq_self] at heffect
    · rw [wp_pure]
      refine fun _ => .refl h fun _ => .noStore hmemory ?_
      rintro ⟨e, he, hmay'⟩
      dsimp only [Proc.memory] at he
      rw [if_pos hlt] at he
      cases he
      exact hmay hmay'

/-- Another directory in use. -/
theorem Inv.switch (h : Inv kern y A) (c : Nat) :
    Inv kern { y with vm := { y.vm with cr3 := c } } A :=
  ⟨h.lodged, h.excl, h.pool.kend, h.pool.nodup, h.pool.free, h.pool.lost⟩

theorem body_spec {a : Act} (h : Inv kern y A) (hp : y.proc a.proc = some me)
    (hx : me.zombie = false) (hcr3 : y.vm.cr3 = me.pgdir) (hlegal : Legal y a) :
    wp (a.body me) (fun _ y' => Does kern y a y') (Short a) y := by
  cases a with
  | fork p =>
      rw [Act.body, wp_bind]
      exact wp_mono (fork_spec h hp hx hcr3) (fun _ _ hy' => (wp_pure ()).2 hy')
        fun _ _ hno => hno.elim
  | sbrk p n =>
      obtain ⟨h0, hle⟩ := hlegal me hp
      rw [Act.body, wp_bind]
      exact wp_mono (growproc_spec h hp hx h0 hle) (fun _ _ hy' => (wp_pure ()).2 hy')
        fun _ _ hno => hno.elim
  | exec p ip argv =>
      rw [Act.body, wp_bind]
      exact wp_imp (exec_effect h hp hx hcr3 hlegal) fun _ _ hy' => (wp_pure ()).2 hy'
  | exit p => exact wp_mono (exit_spec h hp hx) (fun _ _ hy' => hy') fun _ _ hno => hno.elim
  | wait p q =>
      rw [Act.body, wp_bind, wp_get]
      have hbusy : (∀ child, y.proc q = some child → child.zombie = false) →
          Effect kern y (.wait p q) y := by
        refine fun hno => .refl h fun _ => .noZombie fun x hq => ?_
        obtain ⟨child, hchild, rfl⟩ := Option.map_eq_some_iff.1 hq
        exact hno child hchild
      cases hq : y.proc q with
      | none =>
          dsimp only
          rw [wp_pure]
          exact fun _ => hbusy fun child hchild => by rw [hq] at hchild; cases hchild
      | some child =>
          dsimp only
          rw [wp_ite]
          refine ⟨fun hz => ?_, fun hz => ?_⟩
          · exact wp_mono (reap_spec h hq hz) (fun _ _ hy' => hy') fun _ _ hno => hno.elim
          · rw [wp_pure]
            refine fun _ => hbusy fun child' hchild => ?_
            rw [hq] at hchild
            cases hchild
            simpa using hz
  | store p v k w =>
      exact wp_mono (userStore_spec h hp hx) (fun _ _ hy' => hy') fun _ _ hno => hno.elim

/-- The process that acts was given no root of its page tables. -/
def Rootless (y : Machine) (a : Act) : Prop :=
  ∃ me, y.proc a.proc = some me ∧ y.vm.mem me.pgdir 511 = back none

theorem code_spec {a : Act} (h : Inv kern y A) (hlegal : Legal y a) :
    wp a.code (fun _ y' => Does kern y a y') (fun e y' => Short a e y' ∨ Rootless y a) y := by
  unfold Act.code
  rw [wp_bind, wp_get]
  cases hp : y.proc a.proc with
  | none =>
      dsimp only
      rw [wp_pure]
      refine fun _ => .refl h fun _ => .idle fun x hx => ?_
      rw [memory_eq_none.2 hp] at hx
      cases hx
  | some me =>
      dsimp only
      rw [wp_ite]
      refine ⟨fun hz => ?_, fun hz => ?_⟩
      · rw [wp_pure]
        refine fun _ => .refl h fun _ => .idle fun x hx => ?_
        rw [(h.lodged _ me hp).memory hp] at hx
        cases hx
        exact hz
      · unfold switchuvm
        rw [wp_bind, wp_bind, wp_get, wp_ite]
        refine ⟨fun hnull => (wp_stop _).2 (.inr ⟨me, hp, hnull⟩), fun _ => ?_⟩
        rw [wp_modify]
        refine wp_mono (body_spec (h.switch me.pgdir) hp (by simpa using hz) rfl ?_)
          (fun _ y' hy' hm => ?_) fun _ _ hshort => .inl hshort
        · cases a <;> exact hlegal
        · obtain ⟨hinv, hapart, hrefines⟩ := hy' hm
          exact ⟨hinv, hapart, hrefines⟩

end Calls

/-! ## Runs -/

section Run

variable {y y' y'' : Machine} {A : Nat → Space} {kern : Nat → Prop} {a : Act}

theorem next_onward (h : next y a = some y') : Onward y y' := by
  unfold next at h
  split at h
  · rename_i hrun
    cases h
    exact ok_of_wp ((code_onward a).wp y) hrun
  · cases h

theorem next_effect (h : Inv kern y A) (hlegal : Legal y a) (hnext : next y a = some y')
    (hm : y'.vm.missed = false) : Effect kern y a y' := by
  unfold next at hnext
  split at hnext
  · rename_i hrun
    cases hnext
    exact ok_of_wp (code_spec h hlegal) hrun hm
  · cases hnext

theorem Reaches.onward (hr : Reaches next Legal y y') : Onward y y' :=
  hr.inv (fun _ _ _ ht _ hnext => trans_of Onward ht (next_onward hnext)) (refl_of Onward y)

/-- In every state that processes reach, the invariant holds. -/
theorem Reaches.memories (h : Inv kern y A) (hr : Reaches next Legal y y')
    (hm : y'.vm.missed = false) : ∃ A', Inv kern y' A' := by
  refine hr.inv (I := fun t => t.vm.missed = false → ∃ A', Inv kern t A') ?_ (fun _ => ⟨A, h⟩) hm
  intro t a t' ht hlegal hnext hm'
  have hmt : t.vm.missed = false := by
    by_contra hmt
    rw [(next_onward hnext).missed (by simpa using hmt)] at hm'
    cases hm'
  obtain ⟨A', hA'⟩ := ht hmt
  exact (next_effect hA' hlegal hnext hm').inv

/-- The pages of a process, as the memory has them. -/
inductive Frame (m : Nat → Nat → Nat) (me : Proc) : Option Role → Nat → Prop
  | stack : Frame m me none me.kstack
  | dir : Frame m me (some .dir) me.pgdir
  | table {i : Nat} (hi : i < 510) (hpde : Present (m me.pgdir i)) :
      Frame m me (some (.table i)) (pteAddr (m me.pgdir i))
  | leaf {v : Nat} {e : Nat × Nat} (hv : lookup m me.pgdir v = some e) :
      Frame m me (some (.leaf v)) e.1

/-- No page has two uses, or is free at the same time, or the kernel's. -/
structure Separate (kern : Nat → Prop) (y : Machine) : Prop where
  one : ∀ p q me me' i j x, y.proc p = some me → y.proc q = some me' →
    Frame y.vm.mem me i x → Frame y.vm.mem me' j x → p = q ∧ i = j
  taken : ∀ p me i x, y.proc p = some me → Frame y.vm.mem me i x → y.vm.Taken kern x
  whole : ∀ p me v, y.proc p = some me →
    ((lookup y.vm.mem me.pgdir v).isSome ↔ v < pgup me.sz)

/-- The page is the one that the invariant speaks of. -/
theorem Inv.frame {p : Nat} {me : Proc} {i : Option Role} {x : Nat} (h : Inv kern y A)
    (hp : y.proc p = some me) (hx : Frame y.vm.mem me i x) : y.ref A (p, i) = x ∧ x ≠ 0 := by
  have hl := h.lodged p me hp
  cases hx with
  | stack => exact ⟨ref_none hp, hl.kstack⟩
  | dir => exact ⟨(ref_some hp _).trans hl.dir, hl.ne_zero⟩
  | @table i hi hpde =>
      rw [← hl.dir] at hpde ⊢
      have ht : (A p).table i ≠ 0 := fun h0 => hl.maps.noTable i hi h0 hpde
      rw [(hl.maps.table i ht).2, pteAddr_table (by decide)]
      exact ⟨ref_some hp _, ht⟩
  | @leaf v e hv =>
      rw [← hl.dir, hl.maps.lookup] at hv
      split at hv
      · cases hv
      · rename_i h0
        cases hv
        exact ⟨ref_some hp _, h0⟩

theorem Inv.separate (h : Inv kern y A) : Separate kern y := by
  refine ⟨fun p q me me' i j x hp hq hi hj => ?_, fun p me i x hp hi => ?_, fun p me v hp => ?_⟩
  · obtain ⟨hi, hx⟩ := h.frame hp hi
    obtain ⟨hj, -⟩ := h.frame hq hj
    have hidx := h.excl.inj (p, i) (q, j) (by rw [hi]; exact hx) (hi.trans hj.symm)
    exact ⟨congrArg Prod.fst hidx, congrArg Prod.snd hidx⟩
  · obtain ⟨hi, hx⟩ := h.frame hp hi
    rw [← hi]
    exact h.excl.held _ (by rw [hi]; exact hx)
  · have hl := h.lodged p me hp
    rw [← hl.dir, hl.maps.lookup]
    by_cases hv : (A p).leaf v = 0
    · rw [if_pos hv]
      exact iff_of_false nofun fun hlt => (hl.covers v).2 hlt hv
    · rw [if_neg hv]
      exact iff_of_true rfl ((hl.covers v).1 hv)

/-! ## A process alone -/

/-- One process with one page. -/
def oneProcess (free : List Nat) : Machine where
  vm := onePageState free
  proc p := if p = 0 then some ⟨10, PGSIZE, 15, false⟩ else none

theorem inv_oneProcess {free : List Nat} (hnodup : free.Nodup)
    (hfree : ∀ x ∈ free, 16 ≤ x ∧ x < NPAGES) :
    Inv (fun x => x < 10) (oneProcess free) fun _ => onePage := by
  have howns := owns_onePage hnodup fun x hx => ⟨by have := hfree x hx; omega, (hfree x hx).2⟩
  have hup : pgup PGSIZE = 1 := by decide
  have hproc : ∀ p me, (oneProcess free).proc p = some me →
      p = 0 ∧ me = ⟨10, PGSIZE, 15, false⟩ := by
    intro p me hp
    simp only [oneProcess] at hp
    split at hp
    · rename_i hp0
      cases hp
      exact ⟨hp0, rfl⟩
    · cases hp
  have href : ∀ i : Use, (oneProcess free).ref (fun _ => onePage) i ≠ 0 → i.1 = 0 ∧
      (i.2 = none ∧ (oneProcess free).ref (fun _ => onePage) i = 15 ∨
        ∃ r, i.2 = some r ∧ (oneProcess free).ref (fun _ => onePage) i = onePage.page r) := by
    rintro ⟨p, o⟩ hi
    rw [Machine.ref] at hi
    dsimp only at hi
    cases hp : (oneProcess free).proc p with
    | none =>
        rw [hp] at hi
        exact absurd rfl hi
    | some me =>
        obtain ⟨rfl, rfl⟩ := hproc p me hp
        cases o with
        | none => exact ⟨rfl, .inl ⟨rfl, ref_none hp⟩⟩
        | some r => exact ⟨rfl, .inr ⟨r, rfl, ref_some hp r⟩⟩
  refine ⟨fun p me hp => ?_, ⟨?_, fun i hi => ?_⟩, howns.pool⟩
  · obtain ⟨rfl, rfl⟩ := hproc p me hp
    refine ⟨howns.maps, rfl, by decide, by decide, fun v => ?_, by rw [hup]; decide⟩
    rw [hup]
    simp only [onePage]
    by_cases hv : v = 0 <;> simp [hv]
  · rintro ⟨p, o⟩ ⟨q, o'⟩ hi heq
    obtain ⟨h1, h2⟩ := href _ hi
    obtain ⟨h3, h4⟩ := href _ (by rw [← heq]; exact hi)
    dsimp only at h1 h2 h3 h4
    rcases h2 with ⟨ho, h2⟩ | ⟨r, ho, h2⟩ <;> rcases h4 with ⟨ho', h4⟩ | ⟨r', ho', h4⟩
    · rw [h1, h3, ho, ho']
    · rw [heq, h4] at h2
      have := onePage_page r' (by omega)
      omega
    · rw [heq, h4] at h2
      have := onePage_page r (by omega)
      omega
    · have hrr : r = r' :=
        howns.excl.inj r r' (by rw [← h2]; exact hi) (h2.symm.trans (heq.trans h4))
      rw [h1, h3, ho, ho', hrr]
  · rcases (href i hi).2 with ⟨-, hi'⟩ | ⟨r, -, hi'⟩
    · rw [hi']
      refine ⟨fun hx => ?_, List.not_mem_nil, by decide, by show 10 ≤ 15; decide, by decide⟩
      have := hfree 15 hx
      omega
    · rw [hi'] at hi ⊢
      exact howns.excl.held r hi

/-- Seven free pages are enough for a child. -/
theorem next_fork : ∃ y, next (oneProcess [16, 17, 18, 19, 20, 21, 22]) (.fork 0) = some y ∧
    y.vm.missed = false ∧ y.vm.refused = false ∧ (y.proc 1).isSome = true := by
  have hrun : ((next (oneProcess [16, 17, 18, 19, 20, 21, 22]) (.fork 0)).map fun y =>
      (y.vm.missed, y.vm.refused, (y.proc 1).isSome)) = some (false, false, true) := by
    decide +kernel
  obtain ⟨y, hy, heq⟩ := Option.map_eq_some_iff.1 hrun
  simp only [Prod.mk.injEq] at heq
  exact ⟨y, hy, heq⟩

theorem inv_seven : Inv (fun x => x < 10) (oneProcess [16, 17, 18, 19, 20, 21, 22])
    fun _ => onePage :=
  inv_oneProcess (by decide) (by decide)

/-! ## Main results -/

/-- Whatever the processes do, no page ever has two uses. -/
theorem run_separate (h : Inv kern y A) (hr : Reaches next Legal y y')
    (hm : y'.vm.missed = false) : Separate kern y' := by
  obtain ⟨A', hA'⟩ := Reaches.memories h hr hm
  exact hA'.separate

theorem run_separate_fork : ∃ y, next (oneProcess [16, 17, 18, 19, 20, 21, 22]) (.fork 0) = some y ∧
    Separate (fun x => x < 10) y := by
  obtain ⟨y, hy, hm, -⟩ := next_fork
  exact ⟨y, hy, run_separate inv_seven (.step (.fork 0) .refl trivial hy) hm⟩

/-- No process ever sees anything of what another does. -/
theorem run_isolated (h : Inv kern y A) (hr : Reaches next Legal y y') (hlegal : Legal y' a)
    (hnext : next y' a = some y'') (hm : y''.vm.missed = false) {q : Nat} (hq : q ≠ a.proc)
    (hbefore : y'.proc q ≠ none) (hafter : y''.proc q ≠ none) : y''.memory q = y'.memory q := by
  obtain ⟨A', hA'⟩ := Reaches.memories h hr (by
    by_contra hmt
    rw [(next_onward hnext).missed (by simpa using hmt)] at hm
    cases hm)
  exact (next_effect hA' hlegal hnext hm).apart q hq hbefore hafter

theorem run_isolated_fork : ∃ y y', next (oneProcess [16, 17, 18, 19, 20, 21, 22]) (.fork 0) =
    some y ∧ next y (.store 1 0 5 77) = some y' ∧ y'.memory 0 = y.memory 0 := by
  have hrun : ((next (oneProcess [16, 17, 18, 19, 20, 21, 22]) (.fork 0)).bind fun y =>
      (next y (.store 1 0 5 77)).map fun y' => (y'.vm.missed, (y.proc 0).isSome,
        (y'.proc 0).isSome)) = some (false, true, true) := by
    decide +kernel
  obtain ⟨y, hy, hrun⟩ := Option.bind_eq_some_iff.1 hrun
  obtain ⟨y', hy', heq⟩ := Option.map_eq_some_iff.1 hrun
  simp only [Prod.mk.injEq] at heq
  refine ⟨y, y', hy, hy', ?_⟩
  exact run_isolated (a := .store 1 0 5 77) inv_seven (.step (.fork 0) .refl trivial hy) trivial
    hy' heq.1 (by decide)
    (Option.ne_none_iff_isSome.2 heq.2.1) (Option.ne_none_iff_isSome.2 heq.2.2)

/-- As long as there are enough pages, every process has a memory of its own. -/
theorem run_refines (h : Inv kern y A) (hm : y.vm.missed = true → y.vm.refused = true)
    (hr : Reaches next Legal y y') (hno : y'.vm.refused = false) :
    Relation.ReflTransGen (fun m m' => ∃ a, Private.Step m a m') y.memory y'.memory := by
  have honly : ∀ {t : Machine}, Reaches next Legal y t → t.vm.refused = false →
      t.vm.missed = false := by
    intro t ht hno'
    by_contra hmt
    rw [(Reaches.onward ht).only hm (by simpa using hmt)] at hno'
    cases hno'
  induction hr with
  | refl => exact .refl
  | @step t t' a ht hlegal hnext ih =>
      have hnot : t.vm.refused = false := by
        by_contra hrt
        rw [(next_onward hnext).refused (by simpa using hrt)] at hno
        cases hno
      obtain ⟨A', hA'⟩ := Reaches.memories h ht (honly ht hnot)
      refine (ih hnot).tail ⟨a, ?_⟩
      exact (next_effect hA' hlegal hnext (honly (ht.step a hlegal hnext) hno)).refines hno

theorem run_refines_fork : ∃ y, next (oneProcess [16, 17, 18, 19, 20, 21, 22]) (.fork 0) = some y ∧
    Relation.ReflTransGen (fun m m' => ∃ a, Private.Step m a m')
      (oneProcess [16, 17, 18, 19, 20, 21, 22]).memory y.memory := by
  obtain ⟨y, hy, -, hno, -⟩ := next_fork
  exact ⟨y, hy, run_refines inv_seven nofun (.step (.fork 0) .refl trivial hy) hno⟩

/-- No call stops the kernel, but `exec` when there are not enough pages, and the switch to a
process that was given no root of its page tables. -/
theorem run_returns (h : Inv kern y A) (hr : Reaches next Legal y y') (hm : y'.vm.missed = false)
    (hlegal : Legal y' a) : (∃ y'', next y' a = some y'') ∨
      ((∃ p ip argv, a = .exec p ip argv) ∧
        ∃ e y'', a.code.run y' = .fail e y'' ∧ y''.vm.refused = true) ∨ Rootless y' a := by
  obtain ⟨A', hA'⟩ := Reaches.memories h hr hm
  have hspec := code_spec hA' hlegal
  cases hrun : a.code.run y' with
  | ok _ y'' =>
      refine .inl ⟨y'', ?_⟩
      rw [next, hrun]
  | fail e y'' =>
      rcases fail_of_wp hspec hrun with ⟨hexec, hcase⟩ | hrootless
      swap
      · exact .inr (.inr hrootless)
      refine .inr (.inl ⟨hexec, e, y'', rfl, ?_⟩)
      rcases hcase with hmissed | hrefused
      · refine (fail_of_wp ((code_onward a).wp y') hrun).only (fun hmt => ?_) hmissed
        rw [hm] at hmt
        cases hmt
      · exact hrefused

/-- After a `fork` a parent that waits for its child goes on. -/
theorem run_returns_fork : ∃ y y',
    next (oneProcess [16, 17, 18, 19, 20, 21, 22]) (.fork 0) = some y ∧
    next y (.wait 0 1) = some y' := by
  have hrun : (next (oneProcess [16, 17, 18, 19, 20, 21, 22]) (.fork 0)).map (fun y =>
      (y.vm.missed, (y.proc 0).map fun me => decide (y.vm.mem me.pgdir 511 = back none))) =
      some (false, some false) := by decide +kernel
  obtain ⟨y, hy, heq⟩ := Option.map_eq_some_iff.1 hrun
  obtain ⟨hm, hroot⟩ := Prod.mk.inj heq
  rcases run_returns (a := .wait 0 1) inv_seven (.step (.fork 0) .refl trivial hy) hm trivial with
    ⟨y', hy'⟩ | ⟨⟨_, _, _, hexec⟩, -⟩ | ⟨me, hme, hnull⟩
  · exact ⟨y, y', hy, hy'⟩
  · cases hexec
  · have hsome : y.proc 0 = some me := hme
    rw [hsome, Option.map_some, decide_eq_true hnull] at hroot
    cases hroot

end Run

end Xv6.Kernel.Vm.Memories
