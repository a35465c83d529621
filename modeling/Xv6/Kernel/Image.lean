import Xv6.Kernel.Loading

/-!
# The image of a program

What `exec` makes of the program headers of a file, and what it builds from them.

* `program`: the segments that `exec` gets to, each with the size of the image when it is
  loaded, and the size of the whole image if all of them are loaded.
* `Sound`: the segments are aligned and `loaduvm` looks only for pages that are there.
-/

namespace Xv6.Kernel.Vm

open Xv6.Verified
open Xv6.Verified.Bytes
open Exec

/-! ## Program headers -/

/-- Is the segment in the file?  Then `loaduvm` succeeds. -/
def Proghdr.InFile (ph : Proghdr) (file : File) : Prop :=
  uint ph.filesz = 0 ∨ uint ph.off + uint ph.filesz ≤ file.bytes.length

instance (ph : Proghdr) (file : File) : Decidable (ph.InFile file) :=
  inferInstanceAs (Decidable (_ ∨ _))

/-- The size of the image after the allocation for a segment. -/
def Proghdr.grow (ph : Proghdr) (sz : Nat) : Nat := max sz (uint (ph.vaddr + ph.memsz))

/-- The segments that `exec` gets to, from the header at `off` on, and the size of the image if
all of them are loaded. -/
def program (file : File) : Nat → Nat → Nat → List (Proghdr × Nat) × Option Nat
  | 0, _, sz => ([], some sz)
  | n + 1, off, sz =>
      match readi file off PROGHDR with
      | none => ([], none)
      | some bs =>
          if bs.length ≠ PROGHDR then ([], none)
          else
            let ph := proghdr bs
            if ph.type ≠ ELF_PROG_LOAD then program file n (uint (off + PROGHDR)) sz
            else if ph.memsz < ph.filesz then ([], none)
            else if ph.grow sz = 0 then ([], none)
            else if ph.InFile file then
              ((ph, ph.grow sz) :: (program file n (uint (off + PROGHDR)) (ph.grow sz)).1,
                (program file n (uint (off + PROGHDR)) (ph.grow sz)).2)
            else ([(ph, ph.grow sz)], none)

/-- `loaduvm` finds what it looks for. -/
def Sound (file : File) (segs : List (Proghdr × Nat)) : Prop :=
  ∀ seg ∈ segs, seg.1.vaddr % PGSIZE = 0 ∧
    ∀ j < pgup (uint seg.1.filesz), Touched file (uint seg.1.off) j →
      seg.1.vaddr / PGSIZE + j < pgup seg.2

/-- The bytes of a segment are at their place. -/
def Placed (file : File) (m : Nat → Nat → Nat) (A : Space) (ph : Proghdr) : Prop :=
  ∀ a < uint ph.filesz, A.leaf ((ph.vaddr + a) / PGSIZE) ≠ 0 ∧
    byteAt (m (A.leaf ((ph.vaddr + a) / PGSIZE))) ((ph.vaddr + a) % PGSIZE) =
      (file.bytes.getD (uint ph.off + a) 0).toNat

/-- Where two segments overlap they have the same bytes. -/
def Agree (file : File) (ph ph' : Proghdr) : Prop :=
  ∀ a < uint ph.filesz, ∀ a' < uint ph'.filesz, ph.vaddr + a = ph'.vaddr + a' →
    file.bytes.getD (uint ph.off + a) 0 = file.bytes.getD (uint ph'.off + a') 0

/-! ## Sizes -/

theorem uint_eq {a : Nat} (h : a < 4294967296) : uint a = a := by
  unfold uint
  omega

theorem uint_lt (a : Int) : uint a < 4294967296 := by
  unfold uint
  omega

theorem signExtend_eq {a : Nat} (h : a < 2147483648) : signExtend a = a := if_pos h

section Build

variable {s s' s'' : State} {A A' : Space} {rest : Nat → Prop} {file : File} {n : Nat}

theorem State.Pool.length_le (h : s.Pool rest) : s.free.length ≤ NPAGES := by
  have hsub : s.free ⊆ List.range NPAGES := by
    intro x hx
    exact List.mem_range.2 (h.free x hx).2.2.2
  simpa using (h.nodup.subperm hsub).length_le

theorem Covers.small (hc : Covers A n) (h : Owns s A rest) : n ≤ NPAGES := by
  refine hc.le_pages h.excl.inj fun r => ?_
  by_cases hr : A.page r = 0
  · rw [hr]
    decide
  · exact (h.managed r hr).2

/-- A space has been worked on; the rest is as it was. -/
structure Built (rest : Nat → Prop) (A : Space) (s : State) (A' : Space) (s' : State) : Prop
    extends Runs s s' where
  owns : Owns s' A' rest
  dir : A'.dir = A.dir
  pml4 : A'.pml4 = A.pml4
  pdpt : A'.pdpt = A.pdpt
  mem : ∀ x, x ≠ 0 → rest x → s'.mem x = s.mem x

theorem Built.trans (h : Built rest A s A' s') {A'' : Space} (h' : Built rest A' s' A'' s'') :
    Built rest A s A'' s'' where
  toRuns := h.toRuns.trans h'.toRuns
  owns := h'.owns
  dir := h'.dir.trans h.dir
  pml4 := h'.pml4.trans h.pml4
  pdpt := h'.pdpt.trans h.pdpt
  mem x hx hr := (h'.mem x hx hr).trans (h.mem x hx hr)

theorem Resized.built {oldsz newsz r : Nat} (h : Resized rest A oldsz newsz s r A' s') :
    Built rest A s A' s' :=
  ⟨h.toRuns, h.owns, h.dir, h.pml4, h.pdpt, fun x hx hr => h.mem x hx (.inl hr)⟩

theorem Loaded.built (h : Loaded A rest s s') (hzero : s'.mem 0 = s.mem 0) :
    Built rest A s A s' :=
  ⟨h.runs hzero, h.owns, rfl, rfl, rfl, fun _ hx hr => h.elsewhere hx hr⟩

/-- `allocuvm` for a space that covers its pages, while the sizes are those of memory. -/
theorem allocuvm_covers {oldsz newsz : Nat} (h : Owns s A rest) (hc : Covers A (pgup oldsz))
    (hpdpt : A.pdpt ≠ 0) :
    wp (allocuvm A.dir oldsz newsz) (fun r s' => ∃ A', Resized rest A oldsz newsz s r A' s')
      (fun e s' => e = .fault ∧ VPAGES < pgup newsz ∧ s'.refused = true) s := by
  refine allocuvm_spec h hc.below ?_ fun _ => hpdpt
  have h1 := hc.small h
  have h2 := h.pool.length_le
  simp only [NPAGES, VPAGES] at *
  omega

/-! ## Segments -/

variable {ph ph' : Proghdr}

theorem Placed.resize {oldsz newsz r : Nat} (hp : Placed file s.mem A ph)
    (hc : Covers A (pgup oldsz)) (h : Resized rest A oldsz newsz s r A' s') :
    Placed file s'.mem A' ph := by
  intro a ha
  obtain ⟨hl, hbyte⟩ := hp a ha
  have hlt := (hc _).1 hl
  rw [(h.keeps _ hlt).1, h.mem _ hl (.inr ⟨_, hlt, rfl⟩)]
  exact ⟨hl, hbyte⟩

theorem Placed.store (hp : Placed file s.mem A ph) (halign : ph'.vaddr % PGSIZE = 0)
    (hagree : Agree file ph ph')
    (h : Stored A file ph'.vaddr (uint ph'.off) (uint ph'.filesz) 0 s true s') :
    Placed file s'.mem A ph := by
  intro a ha
  obtain ⟨hl, hbyte⟩ := hp a ha
  refine ⟨hl, ?_⟩
  by_cases hin : ph'.vaddr ≤ ph.vaddr + a ∧ ph.vaddr + a < ph'.vaddr + uint ph'.filesz
  · obtain ⟨a', ha'⟩ := Nat.exists_eq_add_of_le hin.1
    have hlt : a' < uint ph'.filesz := by omega
    have hdiv : (ph'.vaddr + a') / PGSIZE = ph'.vaddr / PGSIZE + a' / PGSIZE := by
      simp only [PGSIZE] at *
      omega
    have hmod : (ph'.vaddr + a') % PGSIZE = a' % PGSIZE := by
      simp only [PGSIZE] at *
      omega
    rw [hagree a ha a' hlt ha', ha', hdiv, hmod]
    exact (h.bytes rfl a' (by simp) hlt).2
  · rw [← hbyte]
    refine h.other rfl _ _ hl (Nat.mod_lt _ (by decide)) ?_
    simp only [PGSIZE] at *
    omega

/-- A segment that `loaduvm` has loaded. -/
theorem Stored.placed (halign : ph.vaddr % PGSIZE = 0)
    (hback : Backed A file ph.vaddr (uint ph.off) (uint ph.filesz))
    (h : Stored A file ph.vaddr (uint ph.off) (uint ph.filesz) 0 s true s') :
    Placed file s'.mem A ph := by
  intro a ha
  have hdiv : (ph.vaddr + a) / PGSIZE = ph.vaddr / PGSIZE + a / PGSIZE := by
    simp only [PGSIZE] at *
    omega
  have hmod : (ph.vaddr + a) % PGSIZE = a % PGSIZE := by
    simp only [PGSIZE] at *
    omega
  obtain ⟨hfile, hbyte⟩ := h.bytes rfl a (by simp) ha
  rw [hdiv, hmod]
  refine ⟨hback (a / PGSIZE) ?_ ?_, hbyte⟩
  · simp only [pgup, PGSIZE] at *
    omega
  · right
    simp only [PGSIZE] at *
    omega

/-- The program headers from `off` on have been gone through, with result `r`. -/
structure Segmented (rest : Nat → Prop) (file : File) (n off sz : Nat) (A : Space) (s : State)
    (r : Option Nat) (A' : Space) (s' : State) : Prop extends Built rest A s A' s' where
  done : ∀ sz', r = some sz' → (program file n off sz).2 = some sz' ∧ Covers A' (pgup sz')
  keeps : r ≠ none → ∀ ph, Placed file s.mem A ph →
    (∀ seg ∈ (program file n off sz).1, Agree file ph seg.1) → Placed file s'.mem A' ph
  placed : r ≠ none → ((program file n off sz).1.map Prod.fst).Pairwise (Agree file) →
    ∀ seg ∈ (program file n off sz).1, Placed file s'.mem A' seg.1

/-- Giving up on the way. -/
theorem Built.segmented {off sz : Nat} (h : Built rest A s A' s') :
    Segmented rest file n off sz A s none A' s' :=
  ⟨h, nofun, fun hne => absurd rfl hne, fun hne => absurd rfl hne⟩

theorem Built.refl (h : Owns s A rest) : Built rest A s A s :=
  ⟨.refl s, h, rfl, rfl, rfl, fun _ _ _ => rfl⟩

/-- What `program` says of the header at `off` when it is loadable. -/
theorem program_load {off sz : Nat} {bs : List UInt8} (hread : readi file off PROGHDR = some bs)
    (hlen : ¬bs.length ≠ PROGHDR) (htype : ¬(proghdr bs).type ≠ ELF_PROG_LOAD)
    (hmem : ¬(proghdr bs).memsz < (proghdr bs).filesz) (hgrow : (proghdr bs).grow sz ≠ 0) :
    program file (n + 1) off sz =
      if (proghdr bs).InFile file then
        ((proghdr bs, (proghdr bs).grow sz) ::
            (program file n (uint (off + PROGHDR)) ((proghdr bs).grow sz)).1,
          (program file n (uint (off + PROGHDR)) ((proghdr bs).grow sz)).2)
      else ([(proghdr bs, (proghdr bs).grow sz)], none) := by
  rw [program, hread]
  dsimp only
  rw [if_neg hlen, if_neg htype, if_neg hmem, if_neg hgrow]

/-- One loadable header, and those behind it. -/
theorem loadSegment_spec {off sz : Nat} {bs : List UInt8} (h : Owns s A rest)
    (hc : Covers A (pgup sz)) (h1 : A.pml4 ≠ 0) (h2 : A.pdpt ≠ 0) (hsz : sz ≤ NPAGES * PGSIZE)
    (hread : readi file off PROGHDR = some bs) (hlen : ¬bs.length ≠ PROGHDR)
    (htype : ¬(proghdr bs).type ≠ ELF_PROG_LOAD)
    (hmem : ¬(proghdr bs).memsz < (proghdr bs).filesz)
    (hsound : Sound file (program file (n + 1) off sz).1)
    (ih : ∀ {s : State} {A : Space} {off sz : Nat}, Owns s A rest → Covers A (pgup sz) →
      A.pml4 ≠ 0 → A.pdpt ≠ 0 → sz ≤ NPAGES * PGSIZE → Sound file (program file n off sz).1 →
      wp (segments A.dir file n off sz)
        (fun r s' => s'.missed = false → ∃ A', Segmented rest file n off sz A s r A' s')
        (fun e s' => s'.missed = true ∨ e = .fault ∧ s'.refused = true) s) :
    wp (do
        let r ← allocuvm A.dir (uint sz) (uint ((proghdr bs).vaddr + (proghdr bs).memsz))
        if r = 0 then return none
        else if ← loaduvm A.dir (proghdr bs).vaddr file (uint (proghdr bs).off)
            (uint (proghdr bs).filesz) then
          segments A.dir file n (uint (off + PROGHDR)) (signExtend r)
        else return none)
      (fun r s' => s'.missed = false → ∃ A', Segmented rest file (n + 1) off sz A s r A' s')
      (fun e s' => s'.missed = true ∨ e = .fault ∧ s'.refused = true) s := by
  have husz : uint sz = sz := uint_eq (by simp only [NPAGES, PGSIZE] at *; omega)
  rw [wp_bind, husz]
  refine wp_mono (allocuvm_covers h hc h2) ?_ fun e s' hE => .inr ⟨hE.1, hE.2.2⟩
  rintro r s₁ ⟨A₁, h₁⟩
  by_cases hm₁ : s₁.missed = true
  · -- from here on the run is outside of what is promised
    have hrest : Preserves Steady (do
        if r = 0 then return none
        else if ← loaduvm A.dir (proghdr bs).vaddr file (uint (proghdr bs).off)
            (uint (proghdr bs).filesz) then
          segments A.dir file n (uint (off + PROGHDR)) (signExtend r)
        else return none : M (Option Nat)) :=
      .ite (.pure _) (.bind (loaduvm_steady _ _ _ _ _) fun _ =>
        .ite (segments_steady _ _ _ _ _) (.pure _))
    refine wp_mono (hrest.wp s₁) (fun _ s' hs' hm => ?_) fun _ s' hs' => .inl (hs'.missed hm₁)
    rw [hs'.missed hm₁] at hm
    cases hm
  · have hm₁ : s₁.missed = false := by simpa using hm₁
    rw [wp_ite]
    refine ⟨fun _ => ?_, fun hr0 => ?_⟩
    · rw [wp_pure]
      exact fun _ => ⟨A₁, h₁.built.segmented⟩
    · have hr : r = (proghdr bs).grow sz := h₁.result.resolve_left hr0
      have hc₁ : Covers A₁ (pgup r) := h₁.grown hc hr0 hm₁
      have hpages := hc₁.small h₁.owns
      have hrsz : r ≤ NPAGES * PGSIZE := by
        simp only [pgup, NPAGES, PGSIZE] at *
        omega
      have hext : signExtend r = r := signExtend_eq (by simp only [NPAGES, PGSIZE] at *; omega)
      have hprog := program_load (n := n) hread hlen htype hmem (hr ▸ hr0)
      rw [← hr] at hprog
      have hseg : (proghdr bs, r) ∈ (program file (n + 1) off sz).1 := by
        rw [hprog]
        split <;> exact List.mem_cons_self
      obtain ⟨halign, hpages'⟩ := hsound _ hseg
      have hback : Backed A₁ file (proghdr bs).vaddr (uint (proghdr bs).off)
          (uint (proghdr bs).filesz) := fun j hj htouch => (hc₁ _).2 (hpages' j hj htouch)
      rw [wp_bind, ← h₁.dir]
      refine wp_mono (loaduvm_spec h₁.owns (uint_lt _) (h₁.pml4 ▸ h1) (h₁.pdpt ▸ h2)) ?_
        fun e s' hE => absurd ⟨halign, hback⟩ hE.1
      rintro r' s₂ ⟨hload, -, hstored⟩
      have hstored := hstored hback
      have hbuilt := h₁.built.trans (hload.built hstored.zero)
      rw [wp_ite]
      refine ⟨fun hr' => ?_, fun _ => ?_⟩
      · subst hr'
        have hfile : (proghdr bs).InFile file := by
          by_cases hzero : uint (proghdr bs).filesz = 0
          · exact .inl hzero
          · have := (hstored.bytes rfl (uint (proghdr bs).filesz - 1) (by simp) (by omega)).1
            exact .inr (by omega)
        rw [if_pos hfile] at hprog
        have hsound' : Sound file (program file n (uint (off + PROGHDR)) r).1 := by
          intro seg hmem'
          refine hsound seg ?_
          rw [hprog]
          exact List.mem_cons_of_mem _ hmem'
        rw [hext]
        refine wp_imp (ih hload.owns hc₁ (h₁.pml4 ▸ h1) (h₁.pdpt ▸ h2) hrsz hsound')
          fun q s' hs' hm => ?_
        obtain ⟨A', hA'⟩ := hs' hm
        refine ⟨A', hbuilt.trans hA'.toBuilt, ?_, ?_, ?_⟩
        · rw [hprog]
          exact hA'.done
        · rw [hprog]
          intro hq ph hp hagree
          refine hA'.keeps hq ph ?_ fun seg hs => hagree seg (List.mem_cons_of_mem _ hs)
          exact (hp.resize hc h₁).store halign (hagree _ List.mem_cons_self) hstored
        · rw [hprog]
          intro hq hpair seg hs
          rw [List.map_cons, List.pairwise_cons] at hpair
          rcases List.mem_cons.1 hs with rfl | hs
          · refine hA'.keeps hq _ (hstored.placed halign hback) fun seg hs => ?_
            exact hpair.1 _ (List.mem_map_of_mem hs)
          · exact hA'.placed hq hpair.2 seg hs
      · rw [wp_pure]
        exact fun _ => ⟨A₁, hbuilt.segmented⟩

theorem segments_spec (n : Nat) : ∀ {s : State} {A : Space} {off sz : Nat}, Owns s A rest →
    Covers A (pgup sz) → A.pml4 ≠ 0 → A.pdpt ≠ 0 → sz ≤ NPAGES * PGSIZE →
    Sound file (program file n off sz).1 →
    wp (segments A.dir file n off sz)
      (fun r s' => s'.missed = false → ∃ A', Segmented rest file n off sz A s r A' s')
      (fun e s' => s'.missed = true ∨ e = .fault ∧ s'.refused = true) s := by
  induction n with
  | zero =>
      intro s A off sz h hc _ _ _ _
      rw [segments, wp_pure]
      refine fun _ => ⟨A, .refl h, ?_, fun _ _ hp _ => hp, fun _ _ _ hno => by cases hno⟩
      rintro sz' ⟨⟩
      exact ⟨rfl, hc⟩
  | succ n ih =>
      intro s A off sz h hc h1 h2 hsz hsound
      rw [segments]
      cases hread : readi file off PROGHDR with
      | none =>
          dsimp only
          rw [wp_pure]
          exact fun _ => ⟨A, (Built.refl h).segmented⟩
      | some bs =>
          dsimp only
          rw [wp_ite]
          refine ⟨fun _ => ?_, fun hlen => ?_⟩
          · rw [wp_pure]
            exact fun _ => ⟨A, (Built.refl h).segmented⟩
          · rw [wp_ite]
            refine ⟨fun htype => ?_, fun htype => ?_⟩
            · have hprog : program file (n + 1) off sz =
                  program file n (uint (off + PROGHDR)) sz := by
                rw [program, hread]
                dsimp only
                rw [if_neg hlen, if_pos htype]
              rw [hprog] at hsound
              refine wp_imp (ih h hc h1 h2 hsz hsound) fun r s' hs' hm => ?_
              obtain ⟨A', hA'⟩ := hs' hm
              refine ⟨A', hA'.toBuilt, ?_, ?_, ?_⟩
              · rw [hprog]
                exact hA'.done
              · rw [hprog]
                exact hA'.keeps
              · rw [hprog]
                exact hA'.placed
            · rw [wp_ite]
              refine ⟨fun _ => ?_, fun hmem => ?_⟩
              · rw [wp_pure]
                exact fun _ => ⟨A, (Built.refl h).segmented⟩
              · exact loadSegment_spec h hc h1 h2 hsz hread hlen htype hmem hsound ih

/-! ## The stack -/

/-- The size of the image with its stack. -/
abbrev withStack (sz : Nat) : Nat := pgup sz * PGSIZE + 2 * PGSIZE

/-- Storing into covered pages. -/
theorem Wrote.built {lo : Nat} (h : Wrote A rest lo n s s') (hc : Covers A n) :
    Built rest A s A s' := by
  refine h.toLoaded.built (h.range 0 fun u _ hlt => ?_)
  exact (hc u).2 hlt

theorem Placed.wrote {lo k : Nat} (hp : Placed file s.mem A ph) (hown : Owns s A rest)
    (hc : ∀ a < uint ph.filesz, (ph.vaddr + a) / PGSIZE < k) (hk : k ≤ lo)
    (h : Wrote A rest lo n s s') : Placed file s'.mem A ph := by
  intro a ha
  obtain ⟨hl, hbyte⟩ := hp a ha
  have hlt := hc a ha
  refine ⟨hl, ?_⟩
  rw [h.range _ fun u hle _ heq => ?_]
  · exact hbyte
  · have := Role.leaf.inj (hown.excl.inj (.leaf _) (.leaf _) hl heq.symm)
    omega

theorem Placed.below {k : Nat} (hp : Placed file s.mem A ph) (hc : Covers A k) :
    ∀ a < uint ph.filesz, (ph.vaddr + a) / PGSIZE < k :=
  fun a ha => (hc _).1 (hp a ha).1

/-- The stack has been set up, with result `r`. -/
structure Stacked (rest : Nat → Prop) (file : File) (sz lo : Nat) (elf : Elfhdr) (A : Space)
    (s : State) (r : Option Image) (A' : Space) (s' : State) : Prop
    extends Built rest A s A' s' where
  image : ∀ i, r = some i → i.pgdir = A'.dir ∧ i.sz = withStack sz ∧ i.eip = elf.entry ∧
    Covers A' (pgup i.sz)
  keeps : pgup sz * PGSIZE ≤ lo → ∀ ph, Placed file s.mem A ph → Placed file s'.mem A' ph

theorem length_wordBytes (w : Nat) : (wordBytes w).length = 8 := by
  simp [wordBytes]

theorem length_flatMap_wordBytes (ws : List Nat) :
    (ws.flatMap wordBytes).length = ws.length * 8 := by
  induction ws with
  | nil => rfl
  | cons w ws ih =>
      rw [List.flatMap_cons, List.length_append, length_wordBytes, ih, List.length_cons]
      omega

/-- The guard page and the arguments, in a space of `k + 2` pages. -/
theorem arguments_spec (file : File) {k lo : Nat} {elf : Elfhdr} {argv : List Arg}
    (h : Owns s A rest)
    (hc : Covers A (k + 2)) (hfit : Fit argv lo (k * PGSIZE + 2 * PGSIZE)) :
    wp (arguments A.dir (k * PGSIZE + 2 * PGSIZE) elf argv)
      (fun r s' => ∃ A', Built rest A s A' s' ∧ Covers A' (k + 2) ∧
        (∀ i, r = some i → i.pgdir = A'.dir ∧ i.sz = k * PGSIZE + 2 * PGSIZE ∧
          i.eip = elf.entry) ∧
        (k * PGSIZE ≤ lo → ∀ ph, Placed file s.mem A ph → (∀ a < uint ph.filesz,
          (ph.vaddr + a) / PGSIZE < k) → Placed file s'.mem A' ph))
      (fun _ _ => False) s := by
  have hpages := hc.small h
  have hl : A.leaf k ≠ 0 := (hc k).2 (by omega)
  have htable := (h.maps.leaf k hl).1
  have hguard : uintp ((k * PGSIZE + 2 * PGSIZE : Nat) - 2 * PGSIZE) / PGSIZE = k := by
    simp only [uintp, PGSIZE, NPAGES] at *
    omega
  obtain ⟨hargc, sp, hroom, hlo⟩ := hfit
  have hsp := room_le hroom
  unfold arguments
  rw [hguard, wp_bind]
  refine clearpteu_spec h (h.leaf_lt hl) htable fun m howns hzero hmem => ?_
  have hbuilt : Built rest A s (A.guard k) { s with mem := m } :=
    ⟨(Runs.refl s).setMem hzero, howns, rfl, rfl, rfl, fun x hx hr => hmem x hx (.inl hr)⟩
  have hplaced : ∀ ph, Placed file s.mem A ph → Placed file m (A.guard k) ph := by
    intro ph hp a ha
    obtain ⟨hl', hbyte⟩ := hp a ha
    refine ⟨hl', ?_⟩
    show byteAt (m (A.leaf _)) _ = _
    rw [hmem _ hl' (.inr ⟨_, rfl⟩)]
    exact hbyte
  have hc' : Covers (A.guard k) (k + 2) := hc
  have hn : k + 2 ≤ VPAGES := by
    simp only [NPAGES, VPAGES] at *
    omega
  have hkeep : ∀ {s₁ : State}, Wrote (A.guard k) rest (lo / PGSIZE) (k + 2) { s with mem := m } s₁ →
      k * PGSIZE ≤ lo → ∀ ph, Placed file s.mem A ph →
      (∀ a < uint ph.filesz, (ph.vaddr + a) / PGSIZE < k) → Placed file s₁.mem (A.guard k) ph := by
    intro s₁ hwrote hle ph hp hbelow
    refine Placed.wrote (s := { s with mem := m }) (hplaced ph hp) howns hbelow ?_ hwrote
    simp only [PGSIZE] at *
    omega
  rw [wp_bind, show A.dir = (A.guard k).dir from rfl]
  refine wp_mono (pushArgs_inside (lo / PGSIZE) hc' hn ?_ argv howns ?_ hroom) ?_
    fun _ _ hno => hno
  · exact Nat.div_le_div_right (by omega)
  · simp only [PGSIZE]
    omega
  · rintro r s₁ ⟨hwrote, hsome, -⟩
    cases r with
    | none =>
        dsimp only
        rw [wp_pure]
        exact ⟨_, hbuilt.trans (hwrote.built hc'), hc', nofun, hkeep hwrote⟩
    | some res =>
        obtain ⟨q, ptrs⟩ := res
        obtain ⟨rfl, hptrs⟩ := hsome q ptrs rfl
        have hesp : uintp ((q : Int) - (3 + argv.length + 1) * 8) =
            q - (3 + argv.length + 1) * 8 := by
          simp only [uintp, PGSIZE, NPAGES] at *
          omega
        dsimp only
        rw [hesp, wp_bind]
        refine wp_mono (copyout_inside (q - (3 + argv.length + 1) * 8) (lo / PGSIZE) hc' hn
          hwrote.owns ?_ ?_) ?_ fun _ _ hno => hno
        · exact Nat.div_le_div_right (by omega)
        · rw [length_flatMap_wordBytes]
          simp only [List.length_append, List.length_cons, List.length_nil, hptrs]
          simp only [PGSIZE] at *
          omega
        · rintro r' s₂ ⟨hwrote', -⟩
          have hall := hwrote.trans hwrote'
          rw [wp_ite]
          refine ⟨fun _ => ?_, fun _ => ?_⟩
          · rw [wp_pure]
            refine ⟨_, hbuilt.trans (hall.built hc'), hc', ?_, hkeep hall⟩
            rintro i ⟨⟩
            exact ⟨rfl, rfl, rfl⟩
          · rw [wp_pure]
            exact ⟨_, hbuilt.trans (hall.built hc'), hc', nofun, hkeep hall⟩

theorem stack_spec (file : File) {sz lo : Nat} {elf : Elfhdr} {argv : List Arg} (h : Owns s A rest)
    (hc : Covers A (pgup sz)) (hpdpt : A.pdpt ≠ 0) (hfit : Fit argv lo (withStack sz)) :
    wp (stack A.dir sz elf argv)
      (fun r s' => s'.missed = false → ∃ A', Stacked rest file sz lo elf A s r A' s')
      (fun _ s' => s'.missed = true) s := by
  obtain ⟨k, hk⟩ : ∃ k, pgup sz = k := ⟨_, rfl⟩
  have hkn : k ≤ NPAGES := hk ▸ hc.small h
  rw [withStack, hk] at hfit
  rw [hk] at hc
  have hup : pgup (k * PGSIZE) = k := by
    simp only [pgup, PGSIZE]
    omega
  have h1 : uintp (k * PGSIZE) = k * PGSIZE := by
    simp only [uintp, PGSIZE, NPAGES] at *
    omega
  have h2 : uint (k * PGSIZE : Nat) = k * PGSIZE := by
    simp only [uint, PGSIZE, NPAGES] at *
    omega
  have h3 : uint ((k * PGSIZE : Nat) + 2 * PGSIZE) = k * PGSIZE + 2 * PGSIZE := by
    simp only [uint, PGSIZE, NPAGES] at *
    omega
  have hpg : pgup (k * PGSIZE + 2 * PGSIZE) = k + 2 := by
    simp only [pgup, PGSIZE]
    omega
  have hc' : Covers A (pgup (k * PGSIZE)) := by
    rw [hup]
    exact hc
  unfold stack
  dsimp only
  rw [hk, h1, h2, h3, wp_bind]
  refine wp_mono (allocuvm_covers h hc' hpdpt) ?_ fun e s' hE => ?_
  · rintro r s₁ ⟨A₁, h₁⟩
    by_cases hm₁ : s₁.missed = true
    · have hrest : Preserves Steady (do
          if r = 0 then return none
          else arguments A.dir (signExtend r) elf argv : M (Option Image)) :=
        .ite (.pure _) (arguments_steady _ _ _ _)
      refine wp_mono (hrest.wp s₁) (fun _ s' hs' hm => ?_) fun _ s' hs' => hs'.missed hm₁
      rw [hs'.missed hm₁] at hm
      cases hm
    · have hm₁ : s₁.missed = false := by simpa using hm₁
      rw [wp_ite]
      refine ⟨fun _ => ?_, fun hr0 => ?_⟩
      · rw [wp_pure]
        exact fun _ => ⟨A₁, h₁.built, by simp, fun _ ph hp => hp.resize hc' h₁⟩
      · have hr : r = k * PGSIZE + 2 * PGSIZE := by
          rw [h₁.result.resolve_left hr0]
          omega
        have hc₁ : Covers A₁ (k + 2) := by
          rw [← hpg, ← hr]
          exact h₁.grown hc' hr0 hm₁
        have hext : signExtend r = r := by
          refine signExtend_eq ?_
          rw [hr]
          simp only [NPAGES, PGSIZE] at *
          omega
        rw [hext, hr, ← h₁.dir]
        refine wp_mono (arguments_spec file h₁.owns hc₁ hfit) ?_ fun _ _ hno => hno.elim
        rintro res s₂ ⟨A₂, hbuilt, hc₂, himage, hkeep⟩ _
        refine ⟨A₂, h₁.built.trans hbuilt, fun i hi => ?_, fun hle ph hp => ?_⟩
        · obtain ⟨hdir, hsz', hentry⟩ := himage i hi
          rw [withStack, hk, hsz', hpg]
          exact ⟨hdir, rfl, hentry, hc₂⟩
        · rw [hk] at hle
          exact hkeep hle ph (hp.resize hc' h₁) (hp.below hc)
  · rw [hpg] at hE
    simp only [VPAGES, NPAGES] at *
    omega

/-! ## `exec` -/

/-- The ELF header of a file. -/
def File.header (file : File) : Elfhdr := elfhdr ((readi file 0 ELFHDR).getD [])

/-- What `exec` makes of the program headers of a file. -/
def File.program (file : File) : List (Proghdr × Nat) × Option Nat :=
  Vm.program file file.header.phnum (uint file.header.phoff) 0

/-- The rest of the system and the pages of one more space. -/
def withSpace (rest : Nat → Prop) (P : Space) : Nat → Prop := fun x => rest x ∨ x ≠ 0 ∧ P.Has x

section Swap

variable {P : Space}

theorem Owns.poolWith (h : Owns s P rest) : s.Pool (withSpace rest P) where
  kend := h.pool.kend
  nodup := h.pool.nodup
  free x hx := by
    obtain ⟨h1, h2, h3⟩ := h.pool.free x hx
    refine ⟨h1, ?_, h3⟩
    rintro (hr | ⟨hx0, r, rfl⟩)
    · exact h2 hr
    · exact (h.excl.held r hx0).1 hx
  lost x hx := by
    rintro (hr | ⟨hx0, r, rfl⟩)
    · exact h.pool.lost x hx hr
    · exact (h.excl.held r hx0).2.1 hx

theorem Owns.lives (h : Owns s P rest) : Lives s P (withSpace rest P) :=
  ⟨h.maps, h.excl.inj, fun r hr => .inr ⟨hr, r, rfl⟩, h.managed, h.dir⟩

theorem Lives.owns (h : Lives s P (withSpace rest P)) (hpool : s.Pool (withSpace rest P))
    (hrest : ∀ r, P.page r ≠ 0 → ¬rest (P.page r)) : Owns s P rest := by
  refine ⟨h.maps, ⟨h.inj, fun r hr => ?_⟩, h.dir, hpool.kend, hpool.nodup, fun x hx => ?_,
    fun x hx hr => hpool.lost x hx (.inl hr)⟩
  · have hmine : withSpace rest P (P.page r) := .inr ⟨hr, r, rfl⟩
    exact ⟨fun hm => (hpool.free _ hm).2.1 hmine, fun hm => hpool.lost _ hm hmine, hrest r hr,
      h.managed r hr⟩
  · obtain ⟨h1, h2, h3⟩ := hpool.free x hx
    exact ⟨h1, fun hr => h2 (.inl hr), h3⟩

/-- Two spaces change places. -/
theorem Owns.swap (h : Owns s A (withSpace rest P)) (hP : Lives s P (withSpace rest P))
    (hrest : ∀ r, P.page r ≠ 0 → ¬rest (P.page r)) : Owns s P (withSpace rest A) := by
  have hA : ∀ r, A.page r ≠ 0 → ¬rest (A.page r) := fun r hr hin =>
    (h.excl.held r hr).2.2.1 (.inl hin)
  have hpool : s.Pool (withSpace rest A) := by
    refine ⟨h.pool.kend, h.pool.nodup, fun x hx => ?_, fun x hx => ?_⟩
    · obtain ⟨h1, h2, h3⟩ := h.pool.free x hx
      refine ⟨h1, ?_, h3⟩
      rintro (hr | ⟨hx0, r, rfl⟩)
      · exact h2 (.inl hr)
      · exact (h.excl.held r hx0).1 hx
    · rintro (hr | ⟨hx0, r, rfl⟩)
      · exact h.pool.lost x hx (.inl hr)
      · exact (h.excl.held r hx0).2.1 hx
  refine ⟨hP.maps, ⟨hP.inj, fun r hr => ?_⟩, hP.dir, hpool⟩
  have hmine := hP.pages r hr
  refine ⟨fun hm => (h.pool.free _ hm).2.1 hmine, fun hm => h.pool.lost _ hm hmine, ?_,
    hP.managed r hr⟩
  rintro (hin | ⟨-, r', heq⟩)
  · exact hrest r hr hin
  · refine (h.excl.held r' (by rw [heq]; exact hr)).2.2.1 ?_
    rw [heq]
    exact hmine

/-- The old space is freed: the new one is there, with the rest. -/
theorem Released.owns (h : Released (withSpace rest A) P s s') (hA : Lives s A (withSpace rest A))
    (hrest : ∀ r, A.page r ≠ 0 → ¬rest (A.page r)) : Owns s' A rest := by
  refine Lives.owns (hA.congr h.kend fun x hx hr _ => h.mem x hx hr) h.pool hrest

end Swap

/-- The new image has been built from `file`, with result `r`. -/
structure Made (rest : Nat → Prop) (file : File) (lo : Nat → Nat) (A : Space) (s : State)
    (r : Option Image) (A' : Space) (s' : State) : Prop extends Built rest A s A' s' where
  image : ∀ i, r = some i → ∃ sz, file.program.2 = some sz ∧ i.pgdir = A'.dir ∧
    i.sz = withStack sz ∧ i.eip = file.header.entry ∧ Covers A' (pgup i.sz) ∧
    (pgup sz * PGSIZE ≤ lo sz → (file.program.1.map Prod.fst).Pairwise (Agree file) →
      ∀ seg ∈ file.program.1, Placed file s'.mem A' seg.1)

/-- A run that is outside of what is promised stays there. -/
theorem wp_missed {α : Type} {m : M α} (hm : Preserves Steady m) (hs : s.missed = true)
    {Q : α → State → Prop} {E : Stop → State → Prop} (hE : ∀ e s', s'.missed = true → E e s') :
    wp m (fun r s' => s'.missed = false → Q r s') E s := by
  refine wp_mono (hm.wp s) (fun _ s' hs' hnot => ?_) fun e s' hs' => hE e s' (hs'.missed hs)
  rw [hs'.missed hs] at hnot
  cases hnot

theorem build_spec {lo : Nat → Nat} {argv : List Arg} (h : Owns s A rest)
    (hblank : ∀ v, A.leaf v = 0) (h1 : A.pml4 ≠ 0) (h2 : A.pdpt ≠ 0)
    (hsound : Sound file file.program.1)
    (hfit : ∀ sz, file.program.2 = some sz → Fit argv (lo sz) (withStack sz)) :
    wp (build file file.header argv A.dir)
      (fun r s' => s'.missed = false → ∃ A', Made rest file lo A s r A' s')
      (fun e s' => s'.missed = true ∨ e = .fault ∧ s'.refused = true) s := by
  have hc : Covers A (pgup 0) := by
    intro v
    rw [show pgup 0 = 0 by decide]
    exact iff_of_false (fun hv => hv (hblank v)) (Nat.not_lt_zero v)
  unfold build
  rw [wp_bind]
  refine wp_imp (segments_spec _ h hc h1 h2 (Nat.zero_le _) hsound) fun r s₁ hs₁ => ?_
  cases r with
  | none =>
      dsimp only
      rw [wp_pure]
      intro hm
      obtain ⟨A₁, h₁⟩ := hs₁ hm
      exact ⟨A₁, h₁.toBuilt, by simp⟩
  | some sz =>
      dsimp only
      by_cases hm₁ : s₁.missed = true
      · exact wp_missed (stack_steady _ _ _ _) hm₁ fun _ _ => .inl
      · obtain ⟨A₁, h₁⟩ := hs₁ (by simpa using hm₁)
        obtain ⟨hprog, hc₁⟩ := h₁.done sz rfl
        have hprog : file.program.2 = some sz := hprog
        have hpages := hc₁.small h₁.owns
        have hsz : sz ≤ NPAGES * PGSIZE := by
          simp only [pgup, NPAGES, PGSIZE] at *
          omega
        rw [← h₁.dir]
        refine wp_mono (stack_spec file h₁.owns hc₁ (h₁.pdpt ▸ h2) (hfit sz hprog))
          (fun r s₂ hs₂ hm => ?_) fun _ _ => .inl
        obtain ⟨A₂, h₂⟩ := hs₂ hm
        refine ⟨A₂, h₁.toBuilt.trans h₂.toBuilt, fun i hi => ?_⟩
        obtain ⟨hdir, hisz, hentry, hc₂⟩ := h₂.image i hi
        refine ⟨sz, hprog, hdir, hisz, hentry, hc₂, fun hlo hpair seg hseg => ?_⟩
        exact h₂.keeps hlo _ (h₁.placed (by simp) hpair seg hseg)

/-- `exec` has failed: the process is as it was, but perhaps for the page at address 0, which
stands in for pages that `setupkvm` did not get. -/
structure ExecFailed (rest : Nat → Prop) (P : Space) (s s' : State) : Prop extends Runs s s' where
  owns : Owns s' P rest
  mem : ∀ x, x ≠ 0 → rest x → s'.mem x = s.mem x
  data : ∀ u, P.leaf u ≠ 0 → u ≠ 0 ∨ s'.refused = false → s'.mem (P.leaf u) = s.mem (P.leaf u)

/-- `exec` has succeeded. -/
structure Executed (rest : Nat → Prop) (file : File) (lo : Nat → Nat) (s : State) (i : Image)
    (A' : Space) (s' : State) : Prop where
  owns : Owns s' A' rest
  kend : s'.kend = s.kend
  kpdpt : s'.kpdpt = s.kpdpt
  cr3 : s'.cr3 = A'.dir
  zero : s'.mem 0 = s.mem 0
  mem : ∀ x, x ≠ 0 → rest x → s'.mem x = s.mem x
  image : ∃ sz, file.program.2 = some sz ∧ i.pgdir = A'.dir ∧
    i.sz = withStack sz ∧ i.eip = file.header.entry ∧ Covers A' (pgup i.sz) ∧
    (pgup sz * PGSIZE ≤ lo sz → (file.program.1.map Prod.fst).Pairwise (Agree file) →
      ∀ seg ∈ file.program.1, Placed file s'.mem A' seg.1)

section Exec

variable {P : Space} {argv : List Arg} {lo : Nat → Nat}

theorem Owns.notRest (h : Owns s P rest) (r : Role) (hr : P.page r ≠ 0) : ¬rest (P.page r) :=
  (h.excl.held r hr).2.2.1

theorem Owns.livesWith (h : Owns s A rest) {rest' : Nat → Prop} :
    Lives s A (withSpace rest' A) :=
  ⟨h.maps, h.excl.inj, fun r hr => .inr ⟨hr, r, rfl⟩, h.managed, h.dir⟩

/-- The process is intact when nothing but its page at address 0 has changed. -/
theorem Owns.intact (h : Owns s P rest) (hpool : s'.Pool (withSpace rest P))
    (hkend : s'.kend = s.kend)
    (hmem : ∀ x, x ≠ 0 → withSpace rest P x → x ≠ P.leaf 0 → s'.mem x = s.mem x) :
    Owns s' P rest :=
  Lives.owns (h.lives.congr hkend fun x hx hr hdata => hmem x hx hr (hdata 0)) hpool h.notRest

/-- Nor is anything else changed. -/
theorem Owns.failed (h : Owns s P rest) (h0 : P.leaf 0 ≠ 0) (hruns : Runs s s')
    (hpool : s'.Pool (withSpace rest P))
    (hmem : ∀ x, x ≠ 0 → withSpace rest P x → x ≠ P.leaf 0 ∨ s'.refused = false →
      s'.mem x = s.mem x) : ExecFailed rest P s s' := by
  refine ⟨hruns, h.intact hpool hruns.kend fun x hx hr hne => hmem x hx hr (.inl hne),
    fun x hx hr => hmem x hx (.inl hr) (.inl ?_), fun u hu hcase => ?_⟩
  · rintro rfl
    exact h.notRest (.leaf 0) h0 hr
  · refine hmem _ hu (.inr ⟨hu, .leaf u, rfl⟩) (hcase.imp_left fun hne heq => hne ?_)
    exact Role.leaf.inj (h.excl.inj (.leaf u) (.leaf 0) hu heq)

/-- What `exec` promises, when every `allocuvm` has mapped its pages. -/
abbrev ExecPost (rest : Nat → Prop) (P : Space) (ip : Option File) (lo : Nat → Nat) (s : State) :
    Option Image → State → Prop := fun r s' =>
  s'.missed = false → Spares 3 s.denials ∨ s'.refused = false →
    (r = none → ExecFailed rest P s s') ∧
    ∀ i, r = some i → ∃ file A', ip = some file ∧ Executed rest file lo s i A' s'

/-- Where `exec` can stop. -/
abbrev ExecStop (s : State) : Stop → State → Prop := fun e s' =>
  s'.missed = true ∨ s'.refused = true ∧ (e = .fault ∨ ¬Spares 3 s.denials)

theorem commit_none (h : Owns s P rest) (h0 : P.leaf 0 ≠ 0) {A₁ A₂ : Space} {s₁ s₂ : State}
    (h₁ : Fresh (withSpace rest P) (P.leaf 0) s A₁ s₁) (h₂ : Built (withSpace rest P) A₁ s₁ A₂ s₂) :
    wp (commit P.dir A₁.dir none) (ExecPost rest P (some file) lo s) (ExecStop s) s₂ := by
  unfold commit
  rw [wp_bind, ← h₂.dir]
  refine wp_mono (freevm_spec h₂.owns) (fun _ s₃ h₃ => ?_) fun _ _ hno => hno.elim
  rw [wp_pure]
  have hruns := (h₁.toRuns.trans h₂.toRuns).trans h₃.toRuns
  refine fun _ _ => ⟨fun _ => h.failed h0 hruns h₃.pool fun x hx hr hcase => ?_, nofun⟩
  rw [h₃.mem x hx hr, h₂.mem x hx hr]
  refine h₁.mem x hx hr (hcase.imp_right fun hnot => ?_)
  by_contra hr₁
  rw [(h₂.toRuns.trans h₃.toRuns).refused (by simpa using hr₁)] at hnot
  cases hnot

theorem commit_some (h : Owns s P rest) {A₁ A₂ : Space} {s₁ s₂ : State} {i : Image}
    (h0 : P.leaf 0 ≠ 0) (h₁ : Fresh (withSpace rest P) (P.leaf 0) s A₁ s₁)
    (h₂ : Made (withSpace rest P) file lo A₁ s₁ (some i) A₂ s₂) :
    wp (commit P.dir A₁.dir (some i)) (ExecPost rest P (some file) lo s) (ExecStop s) s₂ := by
  have hlives₂ : Lives s₂ P (withSpace rest P) := by
    refine h.lives.congr (h₂.kend.trans h₁.kend) fun x hx hr hdata => ?_
    rw [h₂.mem x hx hr, h₁.mem x hx hr (.inl (hdata 0))]
  have hswap : Owns { s₂ with cr3 := A₁.dir } P (withSpace rest A₂) :=
    (h₂.owns.swap hlives₂ h.notRest).congr rfl rfl rfl rfl
  have hlives : Lives { s₂ with cr3 := A₁.dir } A₂ (withSpace rest A₂) :=
    h₂.owns.livesWith.congr rfl fun _ _ _ _ => rfl
  have hA₂ : ∀ r, A₂.page r ≠ 0 → ¬rest (A₂.page r) :=
    fun r hr hin => h₂.owns.notRest r hr (.inl hin)
  unfold commit
  dsimp only
  rw [wp_bind, wp_modify, wp_bind]
  refine wp_mono (freevm_spec hswap) (fun _ s₃ h₃ => ?_) fun _ _ hno => hno.elim
  rw [wp_pure]
  refine fun _ _ => ⟨nofun, fun i' hi' => ?_⟩
  cases hi'
  obtain ⟨sz, hprog, hpgdir, hisz, hentry, hc, hplaced⟩ := h₂.image i rfl
  refine ⟨file, A₂, rfl, h₃.owns hlives hA₂, h₃.kend.trans (h₂.kend.trans h₁.kend),
    h₃.kpdpt.trans (h₂.kpdpt.trans h₁.kpdpt), h₃.cr3.trans h₂.dir.symm,
    h₃.zero.trans (h₂.zero.trans h₁.zero), fun x hx hr => ?_,
    sz, hprog, hpgdir, hisz, hentry, hc, fun hlo hpair seg hseg a ha => ?_⟩
  · have hxz : x ≠ P.leaf 0 := by
      rintro rfl
      exact h.notRest (.leaf 0) h0 hr
    rw [h₃.mem x hx (.inl hr), h₂.mem x hx (.inl hr), h₁.mem x hx (.inl hr) (.inl hxz)]
  · obtain ⟨hl, hbyte⟩ := hplaced hlo hpair seg hseg a ha
    rw [h₃.mem _ hl (.inr ⟨hl, .leaf _, rfl⟩)]
    exact ⟨hl, hbyte⟩

/-- `exec` with a file that has an ELF header. -/
theorem launch_spec (h : Owns s P rest) (hcr3 : s.cr3 = P.dir) (h0 : P.leaf 0 ≠ 0)
    (hsound : Sound file file.program.1)
    (hfit : ∀ sz, file.program.2 = some sz → Fit argv (lo sz) (withStack sz)) :
    wp (launch P.dir file file.header argv) (ExecPost rest P (some file) lo s) (ExecStop s) s := by
  have hz : withSpace rest P (P.leaf 0) := .inr ⟨h0, .leaf 0, rfl⟩
  unfold launch
  rw [wp_bind]
  refine setupkvm_spec h.poolWith hz (.inl (h.lives.nullPage hcr3 h0)) (fun s' hs' => ?_)
    fun A₁ s₁ h₁ => ?_
  · dsimp only
    rw [wp_pure]
    refine fun _ _ => ⟨fun _ => h.failed h0 hs'.toRuns hs'.pool fun x hx hr hcase => ?_, nofun⟩
    refine hs'.mem x hx hr (hcase.resolve_right fun hnot => ?_)
    rw [hs'.isRefused] at hnot
    cases hnot
  · dsimp only
    by_cases hup : A₁.pml4 ≠ 0 ∧ A₁.pdpt ≠ 0
    · rw [wp_bind]
      refine wp_mono (build_spec h₁.owns h₁.leaf hup.1 hup.2 hsound hfit) (fun r s₂ hs₂ => ?_)
        fun e s' hE => hE.imp_right fun hE => ⟨hE.2, .inl hE.1⟩
      by_cases hm₂ : s₂.missed = true
      · exact wp_missed (commit_steady _ _ _) hm₂ fun _ _ => .inl
      · obtain ⟨A₂, h₂⟩ := hs₂ (by simpa using hm₂)
        cases r with
        | none => exact commit_none h h0 h₁ h₂.toBuilt
        | some i => exact commit_some h h0 h₁ h₂
    · -- a page of the upper levels is missing
      have hspares : ¬Spares 3 s.denials := by
        intro hs
        obtain ⟨hhead, hpdpt⟩ := h₁.first hs
        have hfree := List.mem_of_mem_head? hhead
        exact hup ⟨h.pool.ne_zero (h.pool.free _ hfree).2.2, hpdpt⟩
      have hr₁ : s₁.refused = true := by
        by_contra hr
        exact hup (h₁.upper (by simpa using hr))
      have hrest : Preserves Steady (do
          let image ← build file file.header argv A₁.dir
          commit P.dir A₁.dir image) := .bind (build_steady _ _ _ _) fun _ => commit_steady _ _ _
      refine wp_mono (hrest.wp s₁) (fun _ s' hs' _ hcase => ?_)
        fun _ s' hs' => .inr ⟨hs'.refused hr₁, .inr hspares⟩
      rcases hcase with hcase | hcase
      · exact absurd hcase hspares
      · rw [hs'.refused hr₁] at hcase
        cases hcase

theorem exec_spec (h : Owns s P rest) (hcr3 : s.cr3 = P.dir) (h0 : P.leaf 0 ≠ 0)
    {ip : Option File} (hsound : ∀ file, ip = some file → Sound file file.program.1)
    (hfit : ∀ file, ip = some file → ∀ sz, file.program.2 = some sz →
      Fit argv (lo sz) (withStack sz)) :
    wp (exec P.dir ip argv) (ExecPost rest P ip lo s) (ExecStop s) s := by
  have hkeep : ExecFailed rest P s s := ⟨.refl s, h, fun _ _ _ => rfl, fun _ _ _ => rfl⟩
  have hnone : ExecPost rest P ip lo s none s := fun _ _ => ⟨fun _ => hkeep, nofun⟩
  unfold exec
  cases ip with
  | none =>
      dsimp only
      rw [wp_pure]
      exact hnone
  | some file =>
      dsimp only
      cases hread : readi file 0 ELFHDR with
      | none =>
          dsimp only
          rw [wp_pure]
          exact hnone
      | some bs =>
          have hheader : elfhdr bs = file.header := by
            unfold File.header
            rw [hread]
            rfl
          dsimp only
          rw [wp_ite]
          refine ⟨fun _ => ?_, fun _ => ?_⟩
          · rw [wp_pure]
            exact hnone
          · rw [wp_ite]
            refine ⟨fun _ => ?_, fun _ => ?_⟩
            · rw [wp_pure]
              exact hnone
            · rw [hheader]
              exact launch_spec h hcr3 h0 (hsound file rfl) (hfit file rfl)

end Exec

end Build

end Xv6.Kernel.Vm
