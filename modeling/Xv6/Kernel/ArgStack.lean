import Xv6.Kernel.ExecFiles

/-!
# The arguments on the stack

What `exec` of `kernel/exec.c` puts into the stack page when everything fits: the strings, one
below the other, and below them the pointers to them with three words in front.

* `pushArgs_page`: the page then, and the pointers.
* `arguments_page`: the stack of the new program is a `Frame`.
-/

namespace Xv6.Kernel.Vm

open Xv6.Verified
open Xv6.Verified.Bytes
open Exec

section ArgStack

variable {s s' : State} {A : Space} {rest : Nat → Prop} {u sp sp' : Nat} {c : Nat → Nat}
  {args : List Arg}

/-! ## Where things are -/

/-- The pointer to an argument that is pushed below `sp`. -/
def pointer (a : Arg) (sp : Nat) : Nat := (sp - (a.bytes.length + 1)) / 8 * 8

/-- The pointers to the arguments. -/
def pointers : List Arg → Nat → List Nat
  | [], _ => []
  | a :: args, sp => pointer a sp :: pointers args (pointer a sp)

/-- The stack page with the arguments. -/
def pushed : List Arg → Nat → (Nat → Nat) → Nat → Nat
  | [], _, c => c
  | a :: args, sp, c =>
      pushed args (pointer a sp) (write c (pointer a sp % PGSIZE) (a.bytes ++ [0]))

theorem length_pointers (args : List Arg) (sp : Nat) : (pointers args sp).length = args.length := by
  induction args generalizing sp with
  | nil => rfl
  | cons a args ih => rw [pointers, List.length_cons, List.length_cons, ih]

theorem room_cons {a : Arg} (h : room (a :: args) sp = some sp') :
    a.bytes.length + 1 ≤ sp ∧ room args (pointer a sp) = some sp' := by
  unfold room at h
  split at h
  · exact ⟨by assumption, h⟩
  · cases h

/-- An argument ends below `sp`, and what is pushed after it is below its start. -/
theorem pointer_spec {a : Arg} (h : room (a :: args) sp = some sp') :
    pointer a sp % 8 = 0 ∧ pointer a sp + a.bytes.length + 1 ≤ sp ∧ sp' ≤ pointer a sp := by
  obtain ⟨hle, hroom⟩ := room_cons h
  have := room_le hroom
  unfold pointer at *
  omega

theorem pointers_spec (h : room args sp = some sp') : ∀ x ∈ (pointers args sp).zip args,
    x.1 % 8 = 0 ∧ sp' ≤ x.1 ∧ x.1 + x.2.bytes.length + 1 ≤ sp := by
  induction args generalizing sp with
  | nil => exact nofun
  | cons a args ih =>
      obtain ⟨h1, h2, h3⟩ := pointer_spec h
      intro x hx
      rw [pointers, List.zip_cons_cons, List.mem_cons] at hx
      rcases hx with rfl | hx
      · exact ⟨h1, h3, h2⟩
      · obtain ⟨h4, h5, h6⟩ := ih (room_cons h).2 x hx
        exact ⟨h4, h5, by omega⟩

theorem pointers_pairwise (h : room args sp = some sp') :
    ((pointers args sp).zip args).Pairwise fun x y => y.1 + y.2.bytes.length + 1 ≤ x.1 := by
  induction args generalizing sp with
  | nil => exact .nil
  | cons a args ih =>
      rw [pointers, List.zip_cons_cons]
      exact .cons (fun y hy => (pointers_spec (room_cons h).2 y hy).2.2) (ih (room_cons h).2)

theorem room_mod (h : room args sp = some sp') (hsp : sp % 8 = 0) : sp' % 8 = 0 := by
  induction args generalizing sp with
  | nil =>
      cases h
      exact hsp
  | cons a args ih => exact ih (room_cons h).2 (pointer_spec h).1

/-! ## The bytes of the page -/

/-- An address of page `u`. -/
theorem mod_page {a : Nat} (h : u * PGSIZE ≤ a) (h' : a < u * PGSIZE + PGSIZE) :
    a % PGSIZE = a - u * PGSIZE ∧ a / PGSIZE = u := by
  simp only [PGSIZE] at *
  omega

theorem byteAt_pushed_above (h : room args sp = some sp') (hlo : u * PGSIZE ≤ sp')
    (hhi : sp ≤ u * PGSIZE + PGSIZE) {b : Nat} (hb : sp ≤ u * PGSIZE + b) :
    byteAt (pushed args sp c) b = byteAt c b := by
  induction args generalizing sp c with
  | nil => rfl
  | cons a args ih =>
      obtain ⟨-, h2, h3⟩ := pointer_spec h
      rw [pushed, ih (room_cons h).2 (by omega) (by omega)]
      refine byteAt_write_outside (.inr ?_)
      rw [(mod_page (u := u) (a := pointer a sp) (by omega) (by omega)).1, List.length_append,
        List.length_singleton]
      omega

theorem byteAt_pushed (h : room args sp = some sp') (hlo : u * PGSIZE ≤ sp')
    (hhi : sp ≤ u * PGSIZE + PGSIZE) : ∀ x ∈ (pointers args sp).zip args,
    ∀ j < x.2.bytes.length + 1, byteAt (pushed args sp c) (x.1 - u * PGSIZE + j) =
      ((x.2.bytes ++ [0]).getD j 0).toNat := by
  induction args generalizing sp c with
  | nil => exact nofun
  | cons a args ih =>
      obtain ⟨-, h2, h3⟩ := pointer_spec h
      intro x hx j hj
      rw [pointers, List.zip_cons_cons, List.mem_cons] at hx
      rcases hx with rfl | hx
      · dsimp only at hj ⊢
        have hmod := (mod_page (u := u) (a := pointer a sp) (by omega) (by omega)).1
        rw [pushed, byteAt_pushed_above (room_cons h).2 hlo (by omega) (by omega)]
        rw [byteAt_write_inside (by omega) (by
          rw [List.length_append, List.length_singleton]
          omega)]
        rw [hmod, Nat.add_sub_cancel_left]
      · exact ih (room_cons h).2 (by omega) x hx j hj

/-! ## `copyout` -/

/-- Store into the data page `u`. -/
def State.poke (s : State) (A : Space) (u : Nat) (c : Nat → Nat) : State :=
  { s with mem := Function.update s.mem (A.leaf u) c }

theorem Owns.poke (h : Owns s A rest) (c : Nat → Nat) : Owns (s.poke A u c) A rest :=
  (Loaded.write h (p := A.leaf u) (fun _ => ⟨_, rfl⟩) c).owns

/-- `copyout` inside of one page. -/
theorem copyout_page (va : Nat) {bs : List UInt8} (h : Owns s A rest) (hl : A.leaf u ≠ 0)
    (huser : User (A.flags u)) (hne : bs ≠ []) (hlo : u * PGSIZE ≤ va)
    (hhi : va + bs.length ≤ u * PGSIZE + PGSIZE) :
    wp (copyout A.dir va bs)
      (fun r s' => r = true ∧
        s' = s.poke A u (write (s.mem (A.leaf u)) (va % PGSIZE) bs))
      (fun _ _ => False) s := by
  have hu := h.leaf_lt hl
  have hpos := List.length_pos_iff.2 hne
  obtain ⟨hmod, hdiv⟩ := mod_page (u := u) hlo (by omega)
  have hva : uint va = va := by
    simp only [uint, PGSIZE, VPAGES] at *
    omega
  obtain ⟨fuel, hfuel⟩ := Nat.exists_eq_succ_of_ne_zero (Nat.ne_of_gt hpos)
  have hmin : min (PGSIZE - va % PGSIZE) bs.length = bs.length := by omega
  unfold copyout
  rw [hva, hfuel, copyoutLoop, wp_ite]
  refine ⟨fun hnil => absurd hnil hne, fun _ => ?_⟩
  rw [wp_bind, hdiv]
  refine uva2ka_inside h hl (fun hnot => absurd huser hnot) fun _ => ?_
  dsimp only
  rw [wp_bind, hmin, List.take_length, List.drop_length]
  refine wp_memmove (h.linear (.leaf _)) ?_
  have hnil : ∀ va, copyoutLoop A.dir fuel va [] = return true := by
    intro va
    cases fuel <;> simp [copyoutLoop]
  rw [hnil, wp_pure]
  exact ⟨rfl, rfl⟩

/-- The loop over the arguments, inside of one page. -/
theorem pushArgs_page (args : List Arg) : ∀ {s : State} {argc sp : Nat}, Owns s A rest →
    A.leaf u ≠ 0 → User (A.flags u) → room args sp = some sp' → u * PGSIZE ≤ sp' →
    sp ≤ u * PGSIZE + PGSIZE → argc + args.length ≤ MAXARG →
    wp (pushArgs A.dir args argc sp)
      (fun r s' => r = some (sp', pointers args sp) ∧
        s' = s.poke A u (pushed args sp (s.mem (A.leaf u))))
      (fun _ _ => False) s := by
  induction args with
  | nil =>
      intro s argc sp _ _ _ hroom _ _ _
      rw [pushArgs, wp_pure]
      cases hroom
      refine ⟨rfl, ?_⟩
      rw [State.poke, pushed, Function.update_eq_self]
  | cons a args ih =>
      intro s argc sp h hl huser hroom hlo hhi hmax
      obtain ⟨-, h2, h3⟩ := pointer_spec hroom
      have hu := h.leaf_lt hl
      have hle := (room_cons hroom).1
      have hptr : uintp ((sp : Int) - (a.bytes.length + 1)) / 8 * 8 = pointer a sp := by
        have := uintp_sub hle (by simp only [PGSIZE, VPAGES] at *; omega)
        push_cast at this
        rw [this]
        rfl
      rw [List.length_cons] at hmax
      rw [pushArgs, wp_ite]
      refine ⟨fun hno => by omega, fun _ => ?_⟩
      dsimp only
      rw [hptr, wp_bind]
      refine wp_imp (copyout_page (pointer a sp) h hl huser (by simp) (by omega) (by
        rw [List.length_append, List.length_singleton]
        omega)) ?_
      rintro r s₁ ⟨rfl, rfl⟩
      rw [wp_ite]
      refine ⟨fun _ => ?_, fun hfalse => absurd rfl hfalse⟩
      rw [wp_bind]
      refine wp_imp (ih (h.poke _) hl huser (room_cons hroom).2 hlo (by omega) (by omega)) ?_
      rintro r s₂ ⟨rfl, rfl⟩
      dsimp only
      rw [wp_pure]
      refine ⟨rfl, ?_⟩
      simp only [State.poke, pushed, Function.update_self, Function.update_idem]

/-! ## The stack of a new program -/

/-- The bytes from address `a` on, in the address space of directory `pgdir`. -/
def Holds (m : Nat → Nat → Nat) (pgdir a : Nat) (bs : List UInt8) : Prop :=
  ∀ j < bs.length, ∃ p f, lookup m pgdir ((a + j) / PGSIZE) = some (p, f) ∧
    byteAt (m p) ((a + j) % PGSIZE) = (bs.getD j 0).toNat

/-- The stack of image `i`, with the arguments at `ptrs`. -/
structure Frame (argv : List Arg) (i : Image) (ptrs : List Nat) (m : Nat → Nat → Nat) :
    Prop where
  argc : i.rdi = argv.length
  count : ptrs.length = argv.length
  header : i.rsi = i.esp + 24
  words : Holds m i.pgdir i.esp
    (([0xffffffff, argv.length, i.rsi] ++ ptrs ++ [0]).flatMap wordBytes)
  array : Holds m i.pgdir i.rsi ((ptrs ++ [0]).flatMap wordBytes)
  strings : ∀ x ∈ ptrs.zip argv, Holds m i.pgdir x.1 (x.2.bytes ++ [0])
  aligned : i.esp % 8 = 0 ∧ ∀ x ∈ ptrs.zip argv, x.1 % 8 = 0
  inside : i.sz - PGSIZE ≤ i.esp ∧ ∀ x ∈ ptrs.zip argv,
    i.rsi + (argv.length + 1) * 8 ≤ x.1 ∧ x.1 + x.2.bytes.length + 1 ≤ i.sz
  apart : (ptrs.zip argv).Pairwise fun x y => y.1 + y.2.bytes.length + 1 ≤ x.1
  stack : i.sz % PGSIZE = 0 ∧ ∃ p, lookup m i.pgdir (i.sz / PGSIZE - 1) = some (p, 7)
  guard : ∃ p f, lookup m i.pgdir (i.sz / PGSIZE - 2) = some (p, f) ∧ ¬User f

/-- Bytes of page `u`. -/
theorem holds_page {m : Nat → Nat → Nat} (h : Maps m A) (hl : A.leaf u ≠ 0) {a : Nat}
    {bs : List UInt8} (hlo : u * PGSIZE ≤ a) (hhi : a + bs.length ≤ u * PGSIZE + PGSIZE)
    (hbs : ∀ j < bs.length, byteAt (m (A.leaf u)) (a - u * PGSIZE + j) = (bs.getD j 0).toNat) :
    Holds m A.dir a bs := by
  intro j hj
  obtain ⟨hmod, hdiv⟩ := mod_page (u := u) (a := a + j) (by omega) (by omega)
  refine ⟨A.leaf u, A.flags u, ?_, ?_⟩
  · rw [hdiv, h.lookup, if_neg hl]
  · rw [hmod, show a + j - u * PGSIZE = a - u * PGSIZE + j by omega]
    exact hbs j hj

theorem Holds.drop {m : Nat → Nat → Nat} {pgdir a n : Nat} {bs : List UInt8}
    (h : Holds m pgdir a bs) (hn : n ≤ bs.length) : Holds m pgdir (a + n) (bs.drop n) := by
  intro j hj
  rw [List.length_drop] at hj
  have := h (n + j) (by omega)
  rw [show a + n + j = a + (n + j) by omega, List.getD_eq_getElem?_getD, List.getElem?_drop,
    ← List.getD_eq_getElem?_getD]
  exact this

end ArgStack

section Frames

variable {s : State} {A : Space} {rest : Nat → Prop}

theorem not_user_withoutUser (f : Nat) : ¬User (withoutUser f) := by
  unfold withoutUser
  split <;> simp only [User, PTE_U] at * <;> omega

/-- The words below the arguments. -/
def ustack (argv : List Arg) (top sp : Nat) : List Nat :=
  [0xffffffff, argv.length, sp - (argv.length + 1) * 8] ++ pointers argv top ++ [0]

theorem length_ustack (argv : List Arg) (top sp : Nat) :
    ((ustack argv top sp).flatMap wordBytes).length = (3 + argv.length + 1) * 8 := by
  rw [length_flatMap_wordBytes, ustack]
  simp only [List.length_append, List.length_cons, List.length_nil, length_pointers]

/-- The stack page with everything in it. -/
theorem frame_page {k sp entry : Nat} {argv : List Arg} {B : Space} {m : Nat → Nat → Nat}
    {c : Nat → Nat} (hmaps : Maps m B) (hl : B.leaf k ≠ 0) (hl' : B.leaf (k + 1) ≠ 0)
    (hflags : B.flags (k + 1) = 7) (hguard : ¬User (B.flags k))
    (hroom : room argv (k * PGSIZE + 2 * PGSIZE) = some sp)
    (hlo : k * PGSIZE + PGSIZE + (3 + argv.length + 1) * 8 ≤ sp)
    (hpage : m (B.leaf (k + 1)) = write (pushed argv (k * PGSIZE + 2 * PGSIZE) c)
      ((sp - (3 + argv.length + 1) * 8) % PGSIZE)
      ((ustack argv (k * PGSIZE + 2 * PGSIZE) sp).flatMap wordBytes)) :
    Frame argv ⟨B.dir, k * PGSIZE + 2 * PGSIZE, entry, sp - (3 + argv.length + 1) * 8,
      argv.length, sp - (argv.length + 1) * 8⟩ (pointers argv (k * PGSIZE + 2 * PGSIZE)) m := by
  have hsp := room_le hroom
  have hup : (k + 1) * PGSIZE = k * PGSIZE + PGSIZE := Nat.succ_mul k PGSIZE
  have hhigh : k * PGSIZE + 2 * PGSIZE ≤ (k + 1) * PGSIZE + PGSIZE := by
    rw [hup, Nat.add_assoc, ← Nat.two_mul]
  have hspmod : sp % 8 = 0 := room_mod hroom (by
    rw [show k * PGSIZE + 2 * PGSIZE = 8 * (k * 512 + 1024) by simp only [PGSIZE]; omega]
    exact Nat.mul_mod_right 8 _)
  have hlen := length_ustack argv (k * PGSIZE + 2 * PGSIZE) sp
  generalize hE : sp - (3 + argv.length + 1) * 8 = esp at hpage ⊢
  have hmod := (mod_page (u := k + 1) (a := esp) (by omega) (by omega)).1
  have hwords : Holds m B.dir esp
      ((ustack argv (k * PGSIZE + 2 * PGSIZE) sp).flatMap wordBytes) := by
    refine holds_page hmaps hl' (by omega) (by omega) fun j hj => ?_
    rw [hpage, byteAt_write_inside (by omega) (by omega), hmod, Nat.add_sub_cancel_left]
  have hspec := pointers_spec hroom
  refine ⟨rfl, length_pointers _ _, ?_, hwords, ?_, fun x hx => ?_,
    ⟨?_, fun x hx => (hspec x hx).1⟩, ⟨?_, fun x hx => ⟨?_, (hspec x hx).2.2⟩⟩,
    pointers_pairwise hroom, ⟨?_, ?_⟩, ?_⟩
  · show sp - (argv.length + 1) * 8 = esp + 24
    omega
  · have hdrop := hwords.drop (n := 24) (by omega)
    have h24 : ([0xffffffff, argv.length, sp - (argv.length + 1) * 8].flatMap wordBytes).length =
        24 := length_flatMap_wordBytes _
    rw [ustack, List.append_assoc, List.flatMap_append, List.drop_left' h24] at hdrop
    dsimp only
    rw [show sp - (argv.length + 1) * 8 = esp + 24 by omega]
    exact hdrop
  · obtain ⟨-, hlo', hhi'⟩ := hspec x hx
    refine holds_page hmaps hl' (by omega) ?_ fun j hj => ?_
    · rw [List.length_append, List.length_singleton]
      exact Nat.le_trans hhi' hhigh
    · rw [List.length_append, List.length_singleton] at hj
      rw [hpage, byteAt_write_outside (.inr (by omega))]
      exact byteAt_pushed hroom (by omega) hhigh x hx j hj
  · show esp % 8 = 0
    omega
  · show k * PGSIZE + 2 * PGSIZE - PGSIZE ≤ esp
    omega
  · obtain ⟨-, hlo', -⟩ := hspec x hx
    show sp - (argv.length + 1) * 8 + (argv.length + 1) * 8 ≤ x.1
    omega
  · show (k * PGSIZE + 2 * PGSIZE) % PGSIZE = 0
    simp only [PGSIZE]
    omega
  · refine ⟨B.leaf (k + 1), ?_⟩
    dsimp only
    rw [show (k * PGSIZE + 2 * PGSIZE) / PGSIZE - 1 = k + 1 by simp only [PGSIZE]; omega,
      hmaps.lookup, if_neg hl', hflags]
  · refine ⟨B.leaf k, B.flags k, ?_, hguard⟩
    dsimp only
    rw [show (k * PGSIZE + 2 * PGSIZE) / PGSIZE - 2 = k by simp only [PGSIZE]; omega,
      hmaps.lookup, if_neg hl]

/-- The guard page and the arguments, when they fit into the stack page. -/
theorem arguments_page {k : Nat} {elf : Elfhdr} {argv : List Arg} (h : Owns s A rest)
    (hc : Covers A (k + 2)) (hflags : A.flags (k + 1) = 7)
    (hfit : Fit argv (k * PGSIZE + PGSIZE) (k * PGSIZE + 2 * PGSIZE)) :
    wp (arguments A.dir (k * PGSIZE + 2 * PGSIZE) elf argv)
      (fun r s' => ∃ i ptrs, r = some i ∧ Frame argv i ptrs s'.mem) (fun _ _ => False) s := by
  have hpages := hc.small h
  have hl : A.leaf k ≠ 0 := (hc k).2 (by omega)
  have hl' : A.leaf (k + 1) ≠ 0 := (hc (k + 1)).2 (by omega)
  have hguard : uintp ((k * PGSIZE + 2 * PGSIZE : Nat) - 2 * PGSIZE) / PGSIZE = k := by
    simp only [uintp, PGSIZE, NPAGES] at *
    omega
  obtain ⟨hargc, sp, hroom, hlo⟩ := hfit
  have hsp := room_le hroom
  have hup : (k + 1) * PGSIZE = k * PGSIZE + PGSIZE := Nat.succ_mul k PGSIZE
  have hlow : (k + 1) * PGSIZE ≤ sp := by omega
  have hhigh : k * PGSIZE + 2 * PGSIZE ≤ (k + 1) * PGSIZE + PGSIZE := by
    rw [hup, Nat.add_assoc, ← Nat.two_mul]
  unfold arguments
  rw [hguard, wp_bind]
  refine clearpteu_spec h (h.leaf_lt hl) (h.maps.leaf k hl).1 fun m howns _ _ => ?_
  have huflags : (A.guard k).flags (k + 1) = 7 := by
    simp only [Space.guard]
    rw [Function.update_of_ne (by omega), hflags]
  have huser : User ((A.guard k).flags (k + 1)) := by
    rw [huflags]
    decide
  rw [wp_bind, show A.dir = (A.guard k).dir from rfl]
  refine wp_imp (pushArgs_page argv howns hl' huser hroom hlow hhigh (by omega)) ?_
  rintro r s₁ ⟨rfl, rfl⟩
  have hrsi : uintp ((sp : Int) - (argv.length + 1) * 8) = sp - (argv.length + 1) * 8 := by
    simp only [uintp, PGSIZE, NPAGES, MAXARG] at *
    omega
  have hesp : uintp ((sp : Int) - (3 + argv.length + 1) * 8) = sp - (3 + argv.length + 1) * 8 := by
    simp only [uintp, PGSIZE, NPAGES, MAXARG] at *
    omega
  have hlen := length_ustack argv (k * PGSIZE + 2 * PGSIZE) sp
  have hne : (ustack argv (k * PGSIZE + 2 * PGSIZE) sp).flatMap wordBytes ≠ [] := by
    intro hnil
    rw [hnil, List.length_nil] at hlen
    omega
  rw [ustack] at hlen hne
  dsimp only
  rw [hrsi, hesp, wp_bind]
  refine wp_imp (copyout_page (sp - (3 + argv.length + 1) * 8) (howns.poke _) hl' huser hne
    (by omega) (by rw [hlen]; omega)) ?_
  rintro r s₂ ⟨rfl, rfl⟩
  rw [wp_ite]
  refine ⟨fun _ => ?_, fun hfalse => absurd rfl hfalse⟩
  rw [wp_pure]
  refine ⟨_, pointers argv (k * PGSIZE + 2 * PGSIZE), rfl, ?_⟩
  have hguard' : ¬User ((A.guard k).flags k) := by
    simp only [Space.guard, Function.update_self]
    exact not_user_withoutUser _
  refine frame_page (c := m ((A.guard k).leaf (k + 1))) ((howns.poke _).poke _).maps hl hl' huflags
    hguard' hroom hlo ?_
  simp only [State.poke, Function.update_self]
  rfl

end Frames

end Xv6.Kernel.Vm
