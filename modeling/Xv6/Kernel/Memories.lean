import Xv6.Kernel.Image
import Xv6.Verified.Transitions

/-!
# The memories of the processes

`fork`, `growproc`, `exec`, `exit` and `wait` of `kernel/proc.c` and `kernel/exec.c`, as far as they
use the memory, in any order and by any processes, and the stores of user programs.  All address
spaces, kernel stacks and free pages are in one physical memory.

* `Inv`: every page has one use, and every process has the pages of its size.
-/

namespace Xv6.Kernel.Vm.Memories

open Xv6.Verified
open Xv6.Verified.Ownership
open Exec

/-! ## The system -/

/-- `NPROC`. -/
abbrev NPROC : Nat := 64

/-- `struct proc`, as far as the memory goes. -/
structure Proc where
  pgdir : Nat
  sz : Nat
  kstack : Nat
  zombie : Bool

/-- The memory, and the slots of the process table that are not `UNUSED`. -/
structure Machine where
  vm : State
  proc : Nat → Option Proc

/-- Kernel code. -/
abbrev S := Exec Stop Machine

/-- Code that uses the memory only. -/
def lift {α : Type} (m : M α) : S α where
  run y :=
    match m.run y.vm with
    | .ok a s => .ok a { y with vm := s }
    | .fail e s => .fail e { y with vm := s }

/-- Change a slot. -/
def setProc (p : Nat) (x : Option Proc) : S Unit :=
  modify fun y => { y with proc := Function.update y.proc p x }

/-- `switchuvm`.  The directory is reached from the root, to which its word 511 points back.  A
process that was given no root has the physical address of a null pointer there. -/
def switchuvm (me : Proc) : S Unit := do
  if (← get).vm.mem me.pgdir 511 = back none then stop (.fault)
  else modify fun y => { y with vm := { y.vm with cr3 := me.pgdir } }

/-- The first slot that is `UNUSED`. -/
def Machine.slot (y : Machine) : Option Nat :=
  (List.range NPROC).find? fun p => (y.proc p).isNone

/-- `fork`; the slot of the child. -/
def fork (me : Proc) : S (Option Nat) := do
  match (← get).slot with
  | none => return none
  | some np => do
      match ← lift kalloc with
      | none => return none
      | some k => do
          match ← lift (copyuvm me.pgdir me.sz) with
          | none => do
              lift (kfree k)
              return none
          | some d => do
              setProc np (some ⟨d, me.sz, k, false⟩)
              return some np

/-- `growproc`. -/
def growproc (p : Nat) (me : Proc) (n : Int) : S Int := do
  if n = 0 then return 0
  else do
    let sz ← lift (if 0 < n then allocuvm me.pgdir me.sz (uint (me.sz + n))
      else deallocuvm me.pgdir me.sz (uint (me.sz + n)))
    if sz = 0 then return -1
    else do
      setProc p (some { me with sz })
      return 0

/-- `exec`. -/
def exec (p : Nat) (me : Proc) (ip : Option File) (argv : List Arg) : S Int := do
  match ← lift (Vm.exec me.pgdir ip argv) with
  | none => return -1
  | some i => do
      setProc p (some { me with pgdir := i.pgdir, sz := i.sz })
      return 0

/-- What `wait` does with a `ZOMBIE`. -/
def reap (q : Nat) (child : Proc) : S Unit := do
  lift (kfree child.kstack)
  lift (freevm child.pgdir)
  setProc q none

/-- A user program stores word `k` of virtual page `v`, if it may. -/
def userStore (me : Proc) (v k w : Nat) : S Unit := do
  match lookup (← get).vm.mem me.pgdir v with
  | none => return ()
  | some (p, f) =>
      if f / PTE_W % 2 = 1 ∧ f / PTE_U % 2 = 1 then
        modify fun y => { y with vm := { y.vm with mem := storeWord y.vm.mem p k w } }
      else return ()

/-- What processes do. -/
inductive Act where
  | fork (p : Nat)
  | sbrk (p : Nat) (n : Int)
  | exec (p : Nat) (ip : Option File) (argv : List Arg)
  | exit (p : Nat)
  | wait (p q : Nat)
  | store (p v k w : Nat)

/-- The process that acts. -/
def Act.proc : Act → Nat
  | .fork p | .sbrk p _ | .exec p _ _ | .exit p | .wait p _ | .store p _ _ _ => p

/-- What it does. -/
def Act.body : Act → Proc → S Unit
  | .fork _, me => do
      let _ ← Memories.fork me
      return ()
  | .sbrk p n, me => do
      let _ ← growproc p me n
      return ()
  | .exec p ip argv, me => do
      let _ ← Memories.exec p me ip argv
      return ()
  | .exit p, me => setProc p (some { me with zombie := true })
  | .wait _ q, _ => do
      match (← get).proc q with
      | none => return ()
      | some child => if child.zombie then reap q child else return ()
  | .store _ v k w, me => userStore me v k w

/-- A process that is not a `ZOMBIE` runs. -/
def Act.code (a : Act) : S Unit := do
  match (← get).proc a.proc with
  | none => return ()
  | some me =>
      if me.zombie then return ()
      else do
        switchuvm me
        a.body me

/-- The next state. -/
def next (y : Machine) (a : Act) : Option Machine :=
  match a.code.run y with
  | .ok _ y' => some y'
  | .fail _ _ => none

/-- What is asked for is reasonable: `sbrk` neither for all of the memory back nor for more than a
page directory can map, and `exec` for an executable, with arguments that fit into a page.  Where
`setupkvm` looks for its pages `kalloc` fails only for want of some. -/
def Legal (y : Machine) : Act → Prop
  | .sbrk p n => ∀ me, y.proc p = some me →
      0 < (me.sz : Int) + n ∧ (me.sz : Int) + n ≤ (VPAGES * PGSIZE : Nat)
  | .exec _ ip argv => Spares 3 y.vm.denials ∧
      ∀ file, ip = some file → Sound file file.program.1 ∧ Fit argv 0 PGSIZE
  | _ => True

/-! ## Every page has one use -/

section Uses

variable {y y' : Machine} {A A' : Nat → Space} {kern : Nat → Prop} {p q v : Nat} {me me' : Proc}
  {s' : State} {B : Space}

/-- What a page is used for: the kernel stack of a process, or a role in its address space. -/
abbrev Use := Nat × Option Role

/-- The page in a use. -/
def Machine.ref (y : Machine) (A : Nat → Space) (i : Use) : Nat :=
  match y.proc i.1 with
  | none => 0
  | some me => match i.2 with
    | none => me.kstack
    | some r => (A i.1).page r

/-- The same without the address space of process `p`. -/
def Machine.others (y : Machine) (A : Nat → Space) (p : Nat) (i : Use) : Nat :=
  if i.1 = p ∧ i.2 ≠ none then 0 else y.ref A i

/-- The pages of the kernel, and all others that are not in the address space of `p`. -/
def Others (kern : Nat → Prop) (y : Machine) (A : Nat → Space) (p x : Nat) : Prop :=
  kern x ∨ x ≠ 0 ∧ ∃ i, y.others A p i = x

/-- Process `me` has address space `A`, of its size. -/
structure Lodged (m : Nat → Nat → Nat) (me : Proc) (A : Space) : Prop where
  maps : Maps m A
  dir : A.dir = me.pgdir
  ne_zero : me.pgdir ≠ 0
  kstack : me.kstack ≠ 0
  covers : Covers A (pgup me.sz)
  size : 0 < pgup me.sz

/-- Every process has its address space, and no page is used twice. -/
structure Inv (kern : Nat → Prop) (y : Machine) (A : Nat → Space) : Prop where
  lodged : ∀ p me, y.proc p = some me → Lodged y.vm.mem me (A p)
  excl : Exclusive 0 (y.vm.Taken kern) (y.ref A)
  pool : y.vm.Pool kern

theorem ref_some (hp : y.proc p = some me) (r : Role) : y.ref A (p, some r) = (A p).page r := by
  rw [Machine.ref]
  dsimp only
  rw [hp]

theorem ref_none (hp : y.proc p = some me) : y.ref A (p, none) = me.kstack := by
  rw [Machine.ref]
  dsimp only
  rw [hp]

theorem others_space (r : Role) : y.others A p (p, some r) = 0 := if_pos ⟨rfl, nofun⟩

theorem others_of_ne {i : Use} (hi : ¬(i.1 = p ∧ i.2 ≠ none)) : y.others A p i = y.ref A i :=
  if_neg hi

/-- A page of the others is not one of the space. -/
theorem Inv.page_ne (h : Inv kern y A) (hp : y.proc p = some me) {r : Role} {i : Use}
    (hr : (A p).page r ≠ 0) : y.others A p i ≠ (A p).page r := by
  intro heq
  by_cases hi : i.1 = p ∧ i.2 ≠ none
  · rw [Machine.others, if_pos hi] at heq
    exact hr heq.symm
  · rw [others_of_ne hi, ← ref_some hp r] at heq
    have hidx := h.excl.inj i (p, some r) (by rw [heq, ref_some hp]; exact hr) heq
    exact hi (by rw [hidx]; exact ⟨rfl, nofun⟩)

/-- The pages of the others are taken. -/
theorem Inv.taken (h : Inv kern y A) {i : Use} (hi : y.others A p i ≠ 0) :
    y.vm.Taken kern (y.others A p i) := by
  by_cases hcase : i.1 = p ∧ i.2 ≠ none
  · rw [Machine.others, if_pos hcase] at hi
    exact absurd rfl hi
  · rw [others_of_ne hcase] at hi ⊢
    exact h.excl.held i hi

/-- A process owns its address space. -/
theorem Inv.owns (h : Inv kern y A) (hp : y.proc p = some me) :
    Owns y.vm (A p) (Others kern y A p) := by
  have hl := h.lodged p me hp
  refine ⟨hl.maps, ⟨fun r r' hr heq => ?_, fun r hr => ?_⟩, ?_, ?_⟩
  · rw [← ref_some hp r, ← ref_some hp r'] at heq
    have hidx := h.excl.inj (p, some r) (p, some r') (by rw [ref_some hp]; exact hr) heq
    exact Option.some.inj (Prod.mk.inj hidx).2
  · have htaken := h.excl.held (p, some r) (by rw [ref_some hp]; exact hr)
    rw [ref_some hp] at htaken
    refine ⟨htaken.1, htaken.2.1, ?_, htaken.2.2.2⟩
    rintro (hk | ⟨-, i, hi⟩)
    · exact htaken.2.2.1 hk
    · exact h.page_ne hp hr hi
  · rw [hl.dir]
    exact hl.ne_zero
  · refine ⟨h.pool.kend, h.pool.nodup, fun x hx => ?_, fun x hx => ?_⟩
    · obtain ⟨h1, h2, h3⟩ := h.pool.free x hx
      refine ⟨h1, ?_, h3⟩
      rintro (hk | ⟨hx0, i, rfl⟩)
      · exact h2 hk
      · exact (h.taken hx0).1 hx
    · rintro (hk | ⟨hx0, i, rfl⟩)
      · exact h.pool.lost x hx hk
      · exact (h.taken hx0).2.1 hx

/-- From the address space of one process and the pages of the others. -/
theorem Inv.of_owns (hp : y.proc p = some me)
    (howns : Owns y.vm (A p) (Others kern y A p))
    (hbut : Exclusive 0 (fun x => ¬kern x ∧ y.vm.Managed x) (y.others A p))
    (hlodged : ∀ q me', y.proc q = some me' → Lodged y.vm.mem me' (A q)) : Inv kern y A := by
  have hother : ∀ i : Use, y.others A p i ≠ 0 → Others kern y A p (y.others A p i) :=
    fun i hi => .inr ⟨hi, i, rfl⟩
  have hmine : ∀ i : Use, i.1 = p ∧ i.2 ≠ none → ∃ r, y.ref A i = (A p).page r := by
    rintro ⟨q, o⟩ ⟨rfl, ho⟩
    obtain ⟨r, rfl⟩ := Option.ne_none_iff_exists'.1 ho
    exact ⟨r, ref_some hp r⟩
  refine ⟨hlodged, ⟨fun i j hi heq => ?_, fun i hi => ?_⟩, howns.pool.kend, howns.pool.nodup,
    fun x hx => ?_, fun x hx hk => howns.pool.lost x hx (.inl hk)⟩
  · by_cases hip : i.1 = p ∧ i.2 ≠ none
    · by_cases hjp : j.1 = p ∧ j.2 ≠ none
      · obtain ⟨qi, oi⟩ := i
        obtain ⟨qj, oj⟩ := j
        obtain ⟨rfl, ho⟩ := hip
        obtain ⟨rfl, ho'⟩ := hjp
        obtain ⟨r, rfl⟩ := Option.ne_none_iff_exists'.1 ho
        obtain ⟨r', rfl⟩ := Option.ne_none_iff_exists'.1 ho'
        rw [ref_some hp] at hi heq
        rw [ref_some hp] at heq
        rw [howns.excl.inj r r' hi heq]
      · obtain ⟨r, hr⟩ := hmine i hip
        rw [← others_of_ne hjp] at heq
        rw [hr] at hi heq
        refine absurd (hother j (by rw [← heq]; exact hi)) ?_
        rw [← heq]
        exact howns.notRest r hi
    · rw [← others_of_ne hip] at hi heq
      by_cases hjp : j.1 = p ∧ j.2 ≠ none
      · obtain ⟨r, hr⟩ := hmine j hjp
        rw [hr] at heq
        refine absurd (hother i hi) ?_
        rw [heq]
        exact howns.notRest r (by rw [← heq]; exact hi)
      · rw [← others_of_ne hjp] at heq
        exact hbut.inj i j hi heq
  · by_cases hip : i.1 = p ∧ i.2 ≠ none
    · obtain ⟨r, hr⟩ := hmine i hip
      rw [hr] at hi ⊢
      have htaken := howns.excl.held r hi
      exact ⟨htaken.1, htaken.2.1, fun hk => htaken.2.2.1 (.inl hk), htaken.2.2.2⟩
    · rw [← others_of_ne hip] at hi ⊢
      have hrest := hother i hi
      obtain ⟨hk, hm⟩ := hbut.held i hi
      exact ⟨fun hx => (howns.pool.free _ hx).2.1 hrest, fun hx => howns.pool.lost _ hx hrest, hk,
        hm⟩
  · obtain ⟨h1, h2, h3⟩ := howns.pool.free x hx
    exact ⟨h1, fun hk => h2 (.inl hk), h3⟩

/-- Another address space for `p` leaves the others as they are. -/
theorem others_replace (hp : y.proc p = some me) (hk : me'.kstack = me.kstack) :
    Machine.others ⟨s', Function.update y.proc p (some me')⟩ (Function.update A p B) p =
      y.others A p := by
  funext ⟨q, o⟩
  by_cases hi : q = p ∧ o ≠ none
  · rw [Machine.others, if_pos hi, Machine.others, if_pos hi]
  · rw [others_of_ne hi, others_of_ne hi]
    by_cases hq : q = p
    · subst hq
      obtain rfl : o = none := by
        by_contra ho
        exact hi ⟨rfl, ho⟩
      exact (ref_none (Function.update_self _ _ _)).trans (hk.trans (ref_none hp).symm)
    · simp only [Machine.ref, Function.update_of_ne hq]

/-- A page of another process is one of the others. -/
theorem others_page (hq : y.proc q = some me) (hne : q ≠ p) {r : Role} (hr : (A q).page r ≠ 0) :
    Others kern y A p ((A q).page r) :=
  .inr ⟨hr, (q, some r), by rw [others_of_ne fun h => hne h.1, ref_some hq]⟩

/-- Its address space stays where its pages do. -/
theorem Lodged.frame {m m' : Nat → Nat → Nat} (h : Lodged m me B)
    (hmem : ∀ r, B.page r ≠ 0 → m' (B.page r) = m (B.page r)) : Lodged m' me B :=
  { h with
    maps := h.maps.congr (hmem .dir (by rw [Space.page, h.dir]; exact h.ne_zero))
      fun i hi => hmem (.table i) hi }

/-- Process `p` gets another address space. -/
theorem Inv.replace (h : Inv kern y A) (hp : y.proc p = some me)
    (hs : Owns s' B (Others kern y A p)) (hkend : s'.kend = y.vm.kend)
    (hmem : ∀ x, x ≠ 0 → Others kern y A p x → s'.mem x = y.vm.mem x)
    (hk : me'.kstack = me.kstack) (hdir : B.dir = me'.pgdir) (hc : Covers B (pgup me'.sz))
    (hsize : 0 < pgup me'.sz) :
    Inv kern ⟨s', Function.update y.proc p (some me')⟩ (Function.update A p B) := by
  have hothers : Machine.others ⟨s', Function.update y.proc p (some me')⟩
      (Function.update A p B) p = y.others A p := others_replace hp hk
  refine .of_owns (Function.update_self _ _ _) ?_ ?_ fun q me₁ hq => ?_
  · rw [Function.update_self]
    unfold Others at hs ⊢
    rw [hothers]
    exact hs
  · rw [hothers]
    refine ⟨fun i j hi heq => ?_, fun i hi => ?_⟩
    · by_cases hcase : i.1 = p ∧ i.2 ≠ none
      · rw [Machine.others, if_pos hcase] at hi
        exact absurd rfl hi
      · by_cases hcase' : j.1 = p ∧ j.2 ≠ none
        · rw [heq, Machine.others, if_pos hcase'] at hi
          exact absurd rfl hi
        · rw [others_of_ne hcase] at hi heq
          rw [others_of_ne hcase'] at heq
          exact h.excl.inj i j hi heq
    · obtain ⟨-, -, h1, h2⟩ := h.taken hi
      refine ⟨h1, ?_⟩
      unfold State.Managed at h2 ⊢
      rw [hkend]
      exact h2
  · by_cases hqp : q = p
    · subst hqp
      obtain rfl : me' = me₁ := by simpa using hq
      rw [Function.update_self]
      refine ⟨hs.maps, hdir, ?_, ?_, hc, hsize⟩
      · rw [← hdir]
        exact hs.dir
      · rw [hk]
        exact (h.lodged q me hp).kstack
    · dsimp only at hq
      rw [Function.update_of_ne hqp] at hq
      rw [Function.update_of_ne hqp]
      exact (h.lodged q me₁ hq).frame fun r hr => hmem _ hr (others_page hq hqp hr)

/-- A new process `q` gets address space `B` and kernel stack `me'.kstack`. -/
theorem Inv.add (h : Inv kern y A) (hq : y.proc q = none) (hk0 : me'.kstack ≠ 0)
    (hkfree : me'.kstack ∈ y.vm.free)
    (hs : Owns s' B fun x => kern x ∨ x ≠ 0 ∧ (x = me'.kstack ∨ ∃ i, y.ref A i = x))
    (hkend : s'.kend = y.vm.kend)
    (hmem : ∀ q' me₁, y.proc q' = some me₁ → ∀ r, (A q').page r ≠ 0 →
      (∀ u, (A q').page r ≠ (A q').leaf u) → s'.mem ((A q').page r) = y.vm.mem ((A q').page r))
    (hdir : B.dir = me'.pgdir) (hc : Covers B (pgup me'.sz)) (hsize : 0 < pgup me'.sz) :
    Inv kern ⟨s', Function.update y.proc q (some me')⟩ (Function.update A q B) := by
  have hothers : Machine.others ⟨s', Function.update y.proc q (some me')⟩ (Function.update A q B)
      q = Function.update (y.ref A) (q, none) me'.kstack := by
    funext ⟨q', o⟩
    by_cases hq' : q' = q
    · subst hq'
      cases o with
      | none =>
          rw [others_of_ne fun hno => hno.2 rfl, Function.update_self]
          exact ref_none (Function.update_self _ _ _)
      | some r =>
          rw [others_space, Function.update_of_ne (by simp), Machine.ref]
          dsimp only
          rw [hq]
    · rw [others_of_ne fun hno => hq' hno.1, Function.update_of_ne (by simp [hq'])]
      simp only [Machine.ref, Function.update_of_ne hq']
  obtain ⟨hlost, hkern, hman⟩ := h.pool.free _ hkfree
  refine .of_owns (Function.update_self _ _ _) ?_ ?_ fun q' me₁ hq' => ?_
  · rw [Function.update_self]
    have hrest : Others kern ⟨s', Function.update y.proc q (some me')⟩ (Function.update A q B) q =
        fun x => kern x ∨ x ≠ 0 ∧ (x = me'.kstack ∨ ∃ i, y.ref A i = x) := by
      funext x
      unfold Others
      rw [hothers]
      refine propext (or_congr_right (and_congr_right fun hx => ⟨?_, ?_⟩))
      · rintro ⟨i, hi⟩
        by_cases hiq : i = (q, none)
        · rw [hiq, Function.update_self] at hi
          exact .inl hi.symm
        · rw [Function.update_of_ne hiq] at hi
          exact .inr ⟨i, hi⟩
      · rintro (rfl | ⟨i, rfl⟩)
        · exact ⟨(q, none), Function.update_self _ _ _⟩
        · refine ⟨i, Function.update_of_ne ?_ _ _⟩
          rintro rfl
          rw [Machine.ref] at hx
          dsimp only at hx
          rw [hq] at hx
          exact hx rfl
    rw [hrest]
    exact hs
  · rw [hothers]
    refine h.excl.take (q, none) (fun htaken => htaken.1 hkfree) hk0 (fun c htaken => ?_) ?_
    · refine ⟨htaken.2.2.1, ?_⟩
      have hm := htaken.2.2.2
      unfold State.Managed at hm ⊢
      rw [hkend]
      exact hm
    · refine ⟨hkern, ?_⟩
      unfold State.Managed at hman ⊢
      rw [hkend]
      exact hman
  · by_cases hqq : q' = q
    · subst hqq
      obtain rfl : me' = me₁ := by simpa using hq'
      rw [Function.update_self]
      refine ⟨hs.maps, hdir, ?_, hk0, hc, hsize⟩
      rw [← hdir]
      exact hs.dir
    · dsimp only at hq'
      rw [Function.update_of_ne hqq] at hq'
      rw [Function.update_of_ne hqq]
      have hl := h.lodged q' me₁ hq'
      have hexcl := (h.owns hq').excl
      refine { hl with maps := hl.maps.congr ?_ fun i hi => ?_ }
      · have hd : (A q').dir ≠ 0 := by
          rw [hl.dir]
          exact hl.ne_zero
        refine hmem q' me₁ hq' .dir hd fun u heq => ?_
        cases hexcl.inj .dir (.leaf u) hd heq
      · refine hmem q' me₁ hq' (.table i) hi fun u heq => ?_
        cases hexcl.inj (.table i) (.leaf u) hi heq

/-- Process `q` is gone. -/
theorem Inv.remove (h : Inv kern y A) (hpool : s'.Pool fun x => kern x ∨ x ≠ 0 ∧ ∃ i : Use,
      i.1 ≠ q ∧ y.ref A i = x) (hkend : s'.kend = y.vm.kend)
    (hmem : ∀ x, x ≠ 0 → (∃ i : Use, i.1 ≠ q ∧ y.ref A i = x) → s'.mem x = y.vm.mem x) :
    Inv kern ⟨s', Function.update y.proc q none⟩ A := by
  have href : ∀ i : Use, Machine.ref ⟨s', Function.update y.proc q none⟩ A i =
      if i.1 = q then 0 else y.ref A i := by
    rintro ⟨q', o⟩
    by_cases hq' : q' = q
    · subst hq'
      simp [Machine.ref]
    · simp [Machine.ref, hq']
  refine ⟨fun q' me₁ hq' => ?_, ⟨fun i j hi heq => ?_, fun i hi => ?_⟩, hpool.kend, hpool.nodup,
    fun x hx => ?_, fun x hx hk => hpool.lost x hx (.inl hk)⟩
  · by_cases hqq : q' = q
    · subst hqq
      simp at hq'
    · dsimp only at hq'
      rw [Function.update_of_ne hqq] at hq'
      refine (h.lodged q' me₁ hq').frame fun r hr => hmem _ hr ⟨(q', some r), hqq, ref_some hq' r⟩
  · rw [href] at hi heq
    rw [href] at heq
    split at hi
    · exact absurd rfl hi
    · rename_i hiq
      rw [if_neg hiq] at heq
      split at heq
      · exact absurd heq hi
      · exact h.excl.inj i j hi heq
  · rw [href] at hi ⊢
    split at hi
    · exact absurd rfl hi
    · rename_i hiq
      rw [if_neg hiq]
      obtain ⟨-, -, h1, h2⟩ := h.excl.held i hi
      have hrest : kern (y.ref A i) ∨ y.ref A i ≠ 0 ∧ ∃ j : Use, j.1 ≠ q ∧ y.ref A j = y.ref A i :=
        .inr ⟨hi, i, hiq, rfl⟩
      refine ⟨fun hx => (hpool.free _ hx).2.1 hrest, fun hx => hpool.lost _ hx hrest, h1, ?_⟩
      unfold State.Managed at h2 ⊢
      dsimp only
      rw [hkend]
      exact h2
  · obtain ⟨h1, h2, h3⟩ := hpool.free x hx
    exact ⟨h1, fun hk => h2 (.inl hk), h3⟩

end Uses

end Xv6.Kernel.Vm.Memories
