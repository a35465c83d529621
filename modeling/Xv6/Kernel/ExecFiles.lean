import Xv6.Kernel.Image

/-!
# `exec` of any file

For every file whose segments `loaduvm` finds room for, `exec` returns; it changes no page that
is neither free nor the process's own, and a new image has the bytes of the file where the
program headers want them.  An unaligned segment stops the machine.
-/

namespace Xv6.Kernel.Vm

open Xv6.Verified
open Xv6.Verified.Bytes
open Exec

section Survive

variable {s s' : State} {P : Space} {rest : Nat → Prop} {file : File} {argv : List Arg} {n : Nat}

/-! ## The segments of a file -/

/-- The program header at `off`, if it is in the file. -/
def File.headerAt (file : File) (off : Nat) : Option Proghdr :=
  if off + PROGHDR ≤ file.bytes.length then some (proghdr ((file.bytes.drop off).take PROGHDR))
  else none

/-- The loadable segments of a file. -/
def File.loadable (file : File) : List Proghdr :=
  (List.range file.header.phnum).filterMap fun i =>
    (file.headerAt (file.header.phoff + i * PROGHDR)).filter fun ph => ph.type = ELF_PROG_LOAD

theorem File.headerAt_some {off : Nat} {ph : Proghdr} (h : file.headerAt off = some ph) :
    off + PROGHDR ≤ file.bytes.length ∧ ∃ bs, readi file off PROGHDR = some bs ∧
      bs.length = PROGHDR ∧ proghdr bs = ph := by
  have hsmall := file.small
  unfold File.headerAt at h
  split at h
  · rename_i hle
    refine ⟨hle, (file.bytes.drop off).take PROGHDR, ?_, ?_, Option.some.inj h⟩
    · unfold readi
      rw [if_neg]
      simp only [PROGHDR] at *
      omega
    · rw [List.length_take, List.length_drop]
      omega
  · cases h

/-- If `exec` gets through the headers, it has met every loadable one. -/
theorem mem_program (n : Nat) : ∀ {off sz i : Nat} {ph : Proghdr},
    (program file n off sz).2 ≠ none → i < n → file.headerAt (off + i * PROGHDR) = some ph →
    ph.type = ELF_PROG_LOAD → ∃ sz', (ph, sz') ∈ (program file n off sz).1 := by
  induction n with
  | zero => exact fun _ hi => absurd hi (Nat.not_lt_zero _)
  | succ n ih =>
      intro off sz i ph hsome hi hat htype
      have hsmall := file.small
      obtain ⟨hle, hbs⟩ := File.headerAt_some hat
      have hnext : uint (off + PROGHDR) = off + PROGHDR := by
        simp only [uint, PROGHDR] at *
        omega
      have hbehind : i ≠ 0 → file.headerAt (uint (off + PROGHDR) + (i - 1) * PROGHDR) =
          some ph := by
        intro hi0
        rw [hnext, show off + PROGHDR + (i - 1) * PROGHDR = off + i * PROGHDR by
          simp only [PROGHDR]; omega]
        exact hat
      rw [program] at hsome ⊢
      cases hread : readi file off PROGHDR with
      | none =>
          rw [hread] at hsome
          exact absurd rfl hsome
      | some bs =>
          have hfirst : i = 0 → proghdr bs = ph := by
            rintro rfl
            obtain ⟨bs', hread', -, hph⟩ := hbs
            rw [Nat.zero_mul, Nat.add_zero, hread] at hread'
            rw [Option.some.inj hread', hph]
          rw [hread] at hsome
          dsimp only at hsome ⊢
          split
          · rename_i hlen
            rw [if_pos hlen] at hsome
            exact absurd rfl hsome
          · rename_i hlen
            rw [if_neg hlen] at hsome
            split
            · rename_i hother
              rw [if_pos hother] at hsome
              have hi0 : i ≠ 0 := fun hi0 => hother (hfirst hi0 ▸ htype)
              exact ih hsome (by omega) (hbehind hi0) htype
            · rename_i hload
              rw [if_neg hload] at hsome
              split
              · rename_i hmem
                rw [if_pos hmem] at hsome
                exact absurd rfl hsome
              · rename_i hmem
                rw [if_neg hmem] at hsome
                split
                · rename_i hgrow
                  rw [if_pos hgrow] at hsome
                  exact absurd rfl hsome
                · rename_i hgrow
                  rw [if_neg hgrow] at hsome
                  split
                  · rename_i hfile
                    rw [if_pos hfile] at hsome
                    by_cases hi0 : i = 0
                    · exact ⟨_, List.mem_cons.2 (.inl (by rw [hfirst hi0]))⟩
                    · obtain ⟨sz', hmem'⟩ := ih hsome (by omega) (hbehind hi0) htype
                      exact ⟨sz', List.mem_cons_of_mem _ hmem'⟩
                  · rename_i hfile
                    rw [if_neg hfile] at hsome
                    exact absurd rfl hsome

theorem mem_loadable {ph : Proghdr} (hsome : file.program.2 ≠ none) (h : ph ∈ file.loadable) :
    ∃ sz, (ph, sz) ∈ file.program.1 := by
  have hsmall := file.small
  unfold File.loadable at h
  obtain ⟨i, hi, hfilter⟩ := List.mem_filterMap.1 h
  obtain ⟨hat, htype⟩ := Option.filter_eq_some_iff.1 hfilter
  have hle := (File.headerAt_some hat).1
  have hoff : uint file.header.phoff = file.header.phoff := by
    simp only [uint, PROGHDR] at *
    omega
  refine mem_program _ hsome (List.mem_range.1 hi) ?_ (by simpa using htype)
  rw [hoff]
  exact hat

/-! ## Arguments in the stack page -/

theorem room_shift {c : Nat} (hc : c % 8 = 0) {args : List Arg} {sp sp' : Nat}
    (h : room args sp = some sp') : room args (c + sp) = some (c + sp') := by
  induction args generalizing sp with
  | nil => exact congrArg some (congrArg (c + ·) (Option.some.inj h))
  | cons a args ih =>
      unfold room at h ⊢
      split at h
      · rename_i hfit
        rw [if_pos (by omega), show (c + sp - (a.bytes.length + 1)) / 8 * 8 =
          c + (sp - (a.bytes.length + 1)) / 8 * 8 by omega]
        exact ih h
      · cases h

/-- The strings fit into a page. -/
def StringsFit (argv : List Arg) : Prop :=
  argv.length < MAXARG ∧ ∃ sp, room argv PGSIZE = some sp

/-- Strings that fit into a page are on the stack page, and the pointers to them end at most on the
guard page below. -/
theorem StringsFit.page (h : StringsFit argv) (sz : Nat) :
    Fit argv (pgup sz * PGSIZE) (withStack sz) := by
  obtain ⟨hargc, sp, hroom⟩ := h
  have hshift := room_shift (c := pgup sz * PGSIZE + PGSIZE) (by simp only [PGSIZE]; omega) hroom
  have hsum : withStack sz = pgup sz * PGSIZE + PGSIZE + PGSIZE := by
    simp only [withStack]
    omega
  refine ⟨hargc, pgup sz * PGSIZE + PGSIZE + sp, ?_, ?_⟩
  · rw [hsum]
    exact hshift
  · simp only [PGSIZE, MAXARG] at *
    omega

/-- Arguments that fit into a page fit into the stack page. -/
theorem Fit.page (h : Fit argv 0 PGSIZE) (sz : Nat) :
    Fit argv (pgup sz * PGSIZE + PGSIZE) (withStack sz) := by
  obtain ⟨hargc, sp, hroom, hle⟩ := h
  have hshift := room_shift (c := pgup sz * PGSIZE + PGSIZE) (by simp only [PGSIZE]; omega) hroom
  have hsum : withStack sz = pgup sz * PGSIZE + PGSIZE + PGSIZE := by
    simp only [withStack]
    omega
  refine ⟨hargc, pgup sz * PGSIZE + PGSIZE + sp, ?_, by omega⟩
  rw [hsum]
  exact hshift

/-! ## Main result -/

/-- `loaduvm` finds every page that it looks for.  If all segments are loaded, then those that
overlap agree, and no segment is cut short by the truncation of its size. -/
structure Loads (file : File) : Prop where
  sound : Sound file file.program.1
  agree : file.program.2 ≠ none → (file.program.1.map Prod.fst).Pairwise (Agree file)
  whole : file.program.2 ≠ none → ∀ seg ∈ file.program.1,
    file.bytes.length ≤ seg.1.off + uint seg.1.filesz ∨ seg.1.filesz < 4294967296

/-- No `kalloc` of the run comes away empty-handed. -/
def Enough {α : Type} (m : M α) (s : State) : Prop :=
  wp m (fun _ s' => s'.refused = false) (fun _ s' => s'.refused = false) s

/-- `exec` returns; nothing but free pages and the process's own has changed; `loaduvm` stores
into data pages only; and the image has the bytes of the file. -/
structure Survives (P : Space) (rest : Nat → Prop) (file : File) (argv : List Arg) (s : State) :
    Prop where
  returns : ∃ r s', (exec P.dir (some file) argv).run s = .ok r s' ∧
    (∀ x, x = 0 ∨ rest x → s'.mem x = s.mem x) ∧
    ∀ i, r = some i → ∀ ph ∈ file.loadable, ∀ a < ph.filesz, ∀ b,
      file.bytes[ph.off + a]? = some b → ∃ p f,
        lookup s'.mem i.pgdir ((ph.vaddr + a) / PGSIZE) = some (p, f) ∧
        byteAt (s'.mem p) ((ph.vaddr + a) % PGSIZE) = b.toNat
  stores : ∀ seg ∈ file.program.1, ∀ (s₁ : State) (A : Space) (rest₁ : Nat → Prop),
    Owns s₁ A rest₁ → A.pml4 ≠ 0 → A.pdpt ≠ 0 → Covers A (pgup seg.2) →
    ∃ r s₂, (loaduvm A.dir seg.1.vaddr file (uint seg.1.off) (uint seg.1.filesz)).run s₁ =
      .ok r s₂ ∧ ∀ x, (∀ u, A.leaf u = x → x = 0) → s₂.mem x = s₁.mem x

theorem exists_ok {α : Type} {m : M α} {Q : α → State → Prop}
    (h : wp m Q (fun _ _ => False) s) : ∃ r s', m.run s = .ok r s' ∧ Q r s' := by
  cases hm : m.run s with
  | ok r s' => exact ⟨r, s', rfl, ok_of_wp h hm⟩
  | fail e s' => exact (fail_of_wp h hm).elim

theorem Sound.stores (h : Sound file file.program.1) : ∀ seg ∈ file.program.1,
    ∀ (s₁ : State) (A : Space) (rest₁ : Nat → Prop), Owns s₁ A rest₁ → A.pml4 ≠ 0 → A.pdpt ≠ 0 →
    Covers A (pgup seg.2) →
    ∃ r s₂, (loaduvm A.dir seg.1.vaddr file (uint seg.1.off) (uint seg.1.filesz)).run s₁ =
      .ok r s₂ ∧ ∀ x, (∀ u, A.leaf u = x → x = 0) → s₂.mem x = s₁.mem x := by
  intro seg hseg s₁ A rest₁ howns h1 h2 hc
  obtain ⟨halign, hpages⟩ := h seg hseg
  have hback : Backed A file seg.1.vaddr (uint seg.1.off) (uint seg.1.filesz) :=
    fun j hj ht => (hc _).2 (hpages j hj ht)
  refine exists_ok (wp_mono (loaduvm_spec howns (uint_lt _) h1 h2) ?_
    fun _ _ hE => hE.1 ⟨halign, hback⟩)
  rintro r s₂ ⟨hload, -, hstored⟩ x hx
  by_cases hx0 : x = 0
  · rw [hx0]
    exact (hstored hback).zero
  · exact hload.mem x hx0 fun u hu => hx0 (hx u hu)

theorem exec_survives (h : Owns s P rest) (hcr3 : s.cr3 = P.dir) (h0 : P.leaf 0 ≠ 0)
    (hmissed : s.missed = false) (henough : Enough (exec P.dir (some file) argv) s)
    (hfit : StringsFit argv) (hloads : Loads file) : Survives P rest file argv s := by
  refine ⟨?_, hloads.sound.stores⟩
  have hspec : wp (exec P.dir (some file) argv)
      (ExecPost rest P (some file) (fun sz => pgup sz * PGSIZE) s) (ExecStop s) s := by
    refine exec_spec h hcr3 h0 ?_ ?_
    · rintro _ ⟨⟩
      exact hloads.sound
    · rintro _ ⟨⟩ sz _
      exact hfit.page sz
  have honly : ∀ s', Steady s s' → s'.refused = false → s'.missed = false := by
    intro s' hs' hr
    by_contra hm
    rw [hs'.only (fun hm' => by rw [hmissed] at hm'; cases hm') (by simpa using hm)] at hr
    cases hr
  refine exists_ok (wp_mono (wp_and (wp_and hspec henough) ((exec_steady _ _ _).wp s)) ?_ ?_)
  · rintro r s' ⟨⟨hpost, hr⟩, hsteady⟩
    obtain ⟨hnone, hsome⟩ := hpost (honly s' hsteady hr) (.inr hr)
    cases r with
    | none =>
        have hfailed := hnone rfl
        refine ⟨fun x hx => ?_, nofun⟩
        by_cases hx0 : x = 0
        · rw [hx0]
          exact hfailed.zero
        · exact hfailed.mem x hx0 (hx.resolve_left hx0)
    | some i =>
        obtain ⟨_, A, ⟨⟩, hexec⟩ := hsome i rfl
        obtain ⟨sz, hprog, hpgdir, -, -, -, hplaced⟩ := hexec.image
        have hprog' : file.program.2 ≠ none := by
          rw [hprog]
          exact nofun
        refine ⟨fun x hx => ?_, ?_⟩
        · by_cases hx0 : x = 0
          · rw [hx0]
            exact hexec.zero
          · exact hexec.mem x hx0 (hx.resolve_left hx0)
        · rintro _ ⟨⟩ ph hph a ha b hb
          obtain ⟨sz', hseg⟩ := mem_loadable hprog' hph
          obtain ⟨hlt, hbyte⟩ := List.getElem?_eq_some_iff.1 hb
          have hsmall := file.small
          have hoff : uint ph.off = ph.off := uint_eq (by omega)
          have hcut : a < uint ph.filesz := by
            rcases hloads.whole hprog' _ hseg with hw | hw
            · dsimp only at hw
              omega
            · rw [uint_eq hw]
              exact ha
          obtain ⟨hl, hat⟩ := hplaced (Nat.le_refl _) (hloads.agree hprog') _ hseg a hcut
          refine ⟨A.leaf ((ph.vaddr + a) / PGSIZE), A.flags ((ph.vaddr + a) / PGSIZE), ?_, ?_⟩
          · rw [hpgdir, hexec.owns.maps.lookup, if_neg hl]
          · rw [hat, hoff, List.getD_eq_getElem?_getD, hb, Option.getD_some]
  · rintro e s' ⟨⟨hstop, hr⟩, hsteady⟩
    rcases hstop with hm | ⟨hr', -⟩
    · rw [honly s' hsteady hr] at hm
      cases hm
    · rw [hr] at hr'
      cases hr'

end Survive

/-- Did some `kalloc` of the run fail? -/
def refusedAfter {α : Type} (m : M α) (s : State) : Bool :=
  match m.run s with
  | .ok _ s' => s'.refused
  | .fail _ s' => s'.refused

theorem enough_of {α : Type} {m : M α} {s : State} (h : refusedAfter m s = false) : Enough m s := by
  unfold Enough wp
  unfold refusedAfter at h
  cases hm : m.run s with
  | ok r s' =>
      rw [hm] at h
      exact h
  | fail e s' =>
      rw [hm] at h
      exact h

/-- A file with a segment of the four bytes behind its headers, at address 0. -/
def oneSegment : File where
  bytes := [0x7F, 0x45, 0x4C, 0x46] ++ List.replicate 28 0 ++ [64] ++ List.replicate 23 0 ++ [1] ++
    List.replicate 7 0 ++ [1] ++ List.replicate 7 0 ++ [120] ++ List.replicate 23 0 ++ [4] ++
    List.replicate 7 0 ++ [4] ++ List.replicate 15 0 ++ [1, 2, 3, 4]
  small := by decide +kernel

deriving instance DecidableEq for Proghdr

theorem program_oneSegment : oneSegment.program = ([(⟨1, 120, 0, 4, 4⟩, 4)], some 4) := by
  decide +kernel

theorem loads_oneSegment : Loads oneSegment where
  sound := by
    rw [program_oneSegment]
    intro seg hseg
    obtain rfl := List.mem_singleton.1 hseg
    refine ⟨rfl, fun j hj _ => ?_⟩
    have hpages : pgup (uint (4 : Nat)) = 1 := by decide
    change j < pgup (uint (4 : Nat)) at hj
    rw [hpages] at hj
    change 0 / 4096 + j < 1
    omega
  agree _ := by
    rw [program_oneSegment]
    exact List.pairwise_singleton _ _
  whole _ seg hseg := by
    rw [program_oneSegment] at hseg
    obtain rfl := List.mem_singleton.1 hseg
    exact .inr (by decide)

/-- It is called with the argument `a`. -/
theorem exec_survives_segment : Survives onePage (fun x => x < 10) oneSegment
    [⟨[97], by simp⟩] (onePageState [20, 21, 22, 23, 24, 25, 26, 27, 28]) :=
  exec_survives (owns_onePage (by decide) (by decide)) rfl (by decide) rfl
    (enough_of (by decide +kernel)) ⟨by decide, 4088, rfl⟩ loads_oneSegment

/-- A file whose only segment is at address 1. -/
def unaligned : File where
  bytes := [0x7F, 0x45, 0x4C, 0x46] ++ List.replicate 28 0 ++ [64] ++ List.replicate 23 0 ++ [1] ++
    List.replicate 7 0 ++ [1] ++ List.replicate 15 0 ++ [1] ++ List.replicate 23 0 ++ [1] ++
    List.replicate 15 0
  small := by decide

/-- Where a run stops, if it does. -/
def stopOf {α : Type} (m : M α) (s : State) : Option Stop :=
  match m.run s with
  | .ok _ _ => none
  | .fail e _ => some e

theorem exec_unaligned : ¬∃ r s',
    (exec 10 (some unaligned) []).run (onePageState [20, 21, 22, 23, 24, 25]) = .ok r s' := by
  have hstop : stopOf (exec 10 (some unaligned) []) (onePageState [20, 21, 22, 23, 24, 25]) =
      some .loaduvmAligned := by decide +kernel
  rintro ⟨r, s', hok⟩
  rw [stopOf, hok] at hstop
  cases hstop

end Xv6.Kernel.Vm
