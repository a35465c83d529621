import Xv6.Kernel.Elf
import Xv6.Kernel.Uvm

/-!
# Loading a program

What `loaduvm` and `copyout` do to the address space that `exec` builds, for any file and any
arguments.

* `Loaded`: only data of the space has changed, and perhaps physical page 0, which stands for
  every page that is missing.
-/

namespace Xv6.Kernel.Vm

open Xv6.Verified
open Xv6.Verified.Bytes
open Xv6.Verified.Ownership
open Exec

section Load

variable {s s' s'' : State} {A A' P : Space} {rest : Nat → Prop} {z v n p : Nat} {file : File}

/-- The data of a space may change. -/
theorem Owns.setData (h : Owns s A rest) {m : Nat → Nat → Nat}
    (hm : ∀ x, x ≠ 0 → (∀ u, A.leaf u ≠ x) → m x = s.mem x) : Owns { s with mem := m } A rest := by
  refine ⟨h.maps.congr ?_ ?_, h.excl, h.dir, h.pool.kend, h.pool.nodup, h.pool.free, h.pool.lost⟩
  · exact hm A.dir h.dir fun u heq => h.page_ne .dir (.leaf u) nofun h.dir heq.symm
  · intro i hi
    exact hm _ hi fun u heq => h.page_ne (.table i) (.leaf u) nofun hi heq.symm

/-- Only data of the space has changed, and perhaps page 0. -/
structure Loaded (A : Space) (rest : Nat → Prop) (s s' : State) : Prop where
  same : s' = { s with mem := s'.mem }
  owns : Owns s' A rest
  mem : ∀ x, x ≠ 0 → (∀ u, A.leaf u ≠ x) → s'.mem x = s.mem x

theorem Loaded.refl (h : Owns s A rest) : Loaded A rest s s := ⟨rfl, h, fun _ _ _ => rfl⟩

theorem Loaded.trans (h : Loaded A rest s s') (h' : Loaded A rest s' s'') :
    Loaded A rest s s'' := by
  refine ⟨?_, h'.owns, fun x hx hl => (h'.mem x hx hl).trans (h.mem x hx hl)⟩
  rw [h'.same, h.same]

theorem Loaded.runs (h : Loaded A rest s s') (hzero : s'.mem 0 = s.mem 0) : Runs s s' := by
  rw [h.same]
  exact (Runs.refl s).setMem hzero

/-- Nothing of the rest has changed. -/
theorem Loaded.elsewhere (h : Loaded A rest s s') {x : Nat} (hx : x ≠ 0) (hr : rest x) :
    s'.mem x = s.mem x := by
  refine h.mem x hx fun u heq => ?_
  subst heq
  exact (h.owns.excl.held (.leaf u) hx).2.2.1 hr

/-- Storing into a data page, or page 0. -/
theorem Loaded.write (h : Owns s A rest) (hp : p ≠ 0 → ∃ u, A.leaf u = p) (c : Nat → Nat) :
    Loaded A rest s { s with mem := Function.update s.mem p c } := by
  have hmem : ∀ x, x ≠ 0 → (∀ u, A.leaf u ≠ x) → Function.update s.mem p c x = s.mem x := by
    intro x hx hl
    refine Function.update_of_ne ?_ _ _
    rintro rfl
    obtain ⟨u, hu⟩ := hp hx
    exact hl u hu
  exact ⟨rfl, h.setData hmem, hmem⟩

theorem wp_memmove {off : Nat} {bs : List UInt8} {Q : Unit → State → Prop}
    {E : Stop → State → Prop} (hp : p < LINEAR)
    (h : Q () { s with mem := Function.update s.mem p (write (s.mem p) off bs) }) :
    wp (memmove p off bs) Q E s := by
  unfold memmove
  rw [wp_ite]
  refine ⟨fun hle => absurd hp (Nat.not_lt.2 hle), fun _ => ?_⟩
  rw [wp_modify]
  exact h

/-- The virtual page that an address is taken for: the directory has 512 entries. -/
abbrev folded (v : Nat) : Nat := v % 262144

/-- `walkpgdir` without allocation, for any address. -/
theorem walkpgdir_any (h : Owns s A rest) (h1 : A.pml4 ≠ 0) (h2 : A.pdpt ≠ 0)
    {Q : Option (Nat × Nat) → State → Prop} {E : Stop → State → Prop}
    (hnone : folded v < VPAGES → A.table (folded v / 512) = 0 → Q none s)
    (hsome : folded v < VPAGES → A.table (folded v / 512) ≠ 0 →
      Q (some (A.table (folded v / 512), folded v % 512)) s)
    (hwild : ∀ t k, VPAGES ≤ folded v → LINEAR ≤ t → Q (some (t, k)) s) :
    wp (walkpgdir A.dir v false) Q E s := by
  have hpdx : pdx v = folded v / 512 := by
    simp only [pdx, NPTENTRIES, folded]
    omega
  have hptx : ptx v = folded v % 512 := by
    simp only [ptx, NPTENTRIES, folded]
    omega
  have hwalk : walkpgdir A.dir v false = walkpgdir A.dir (folded v) false := by
    have hpdx' : pdx (folded v) = folded v / 512 := by
      simp only [pdx, NPTENTRIES, folded]
      omega
    have hptx' : ptx (folded v) = folded v % 512 := by
      simp only [ptx, NPTENTRIES, folded]
    simp only [walkpgdir, hpdx, hptx, hpdx', hptx']
  rw [hwalk]
  by_cases hv : folded v < VPAGES
  · exact walkpgdir_lookup h hv (hnone hv) (hsome hv)
  · have hlt : folded v < 262144 := Nat.mod_lt _ (by decide)
    have hcases : folded v / 512 = 510 ∨ folded v / 512 = 511 := by
      simp only [VPAGES] at hv
      omega
    refine walkpgdir_wild h ?_ fun t k ht => hwild t k (Nat.not_lt.1 hv) ht
    exact hcases.imp (fun hc => ⟨hc, h2⟩) fun hc => ⟨hc, h1⟩

theorem Owns.leaf_lt (h : Owns s A rest) (hv : A.leaf v ≠ 0) : v < VPAGES := by
  have hlt := (h.maps.table _ (h.maps.leaf v hv).1).1
  simp only [VPAGES]
  omega

theorem Owns.folded_eq (h : Owns s A rest) (hv : A.leaf v ≠ 0) : folded v = v := by
  have hlt := h.leaf_lt hv
  simp only [VPAGES] at hlt
  exact Nat.mod_eq_of_lt (by omega)

/-- The page that `loaduvm` finds in an entry: page 0 if there is none. -/
theorem Owns.entry (h : Owns s A rest) (ht : A.table (v / 512) ≠ 0) :
    pteAddr (s.mem (A.table (v / 512)) (v % 512)) % 1048576 = A.leaf v := by
  by_cases hl : A.leaf v = 0
  · rw [h.maps.noLeaf v ht hl, hl]
    rfl
  · rw [((h.pte ht).2 hl).1]
    have := (h.managed (.leaf v) hl).2
    simp only [Space.page, NPAGES] at this
    omega

theorem readi_some {off : Nat} {bs : List UInt8} (h : readi file off n = some bs) :
    bs = (file.bytes.drop off).take n ∧ off ≤ file.bytes.length := by
  unfold readi at h
  split at h
  · cases h
  · rename_i hnot
    exact ⟨(Option.some.inj h).symm, by omega⟩

theorem readi_none {off : Nat} (h : readi file off n = none) (hn : n ≤ PGSIZE)
    (hoff : off < 4294967296) : file.bytes.length < off := by
  have hsmall := file.small
  unfold readi at h
  split at h
  · rename_i hcase
    simp only [PGSIZE] at hn
    omega
  · cases h

theorem getD_take_drop {bs : List UInt8} {off k : Nat} (hk : k < n) :
    ((bs.drop off).take n).getD k 0 = bs.getD (off + k) 0 := by
  rw [List.getD_eq_getElem?_getD, List.getElem?_take_of_lt hk, List.getElem?_drop,
    List.getD_eq_getElem?_getD]

/-- Page `j` of a segment is looked up: the pages in front of it have been read. -/
def Touched (file : File) (offset j : Nat) : Prop :=
  j = 0 ∨ offset + j * PGSIZE ≤ file.bytes.length

/-- The pages that `loaduvm` looks up are there. -/
def Backed (A : Space) (file : File) (addr offset sz : Nat) : Prop :=
  ∀ j < pgup sz, Touched file offset j → A.leaf (addr / PGSIZE + j) ≠ 0

/-- What `loaduvm` has stored from page `i` of the segment on, when it returns `r`. -/
structure Stored (A : Space) (file : File) (addr offset sz i : Nat) (s : State) (r : Bool)
    (s' : State) : Prop where
  zero : s'.mem 0 = s.mem 0
  short : r = false → file.bytes.length < offset + sz
  bytes : r = true → ∀ a, i * PGSIZE ≤ a → a < sz → offset + a < file.bytes.length ∧
    byteAt (s'.mem (A.leaf (addr / PGSIZE + a / PGSIZE))) (a % PGSIZE) =
      (file.bytes.getD (offset + a) 0).toNat
  other : r = true → ∀ u b, A.leaf u ≠ 0 → b < PGSIZE →
    u < addr / PGSIZE + i ∨ (addr / PGSIZE) * PGSIZE + sz ≤ u * PGSIZE + b →
    byteAt (s'.mem (A.leaf u)) b = byteAt (s.mem (A.leaf u)) b

theorem loadLoop_spec {addr offset sz : Nat} (hoff : offset < 4294967296) (h1 : A.pml4 ≠ 0)
    (h2 : A.pdpt ≠ 0) (n : Nat) : ∀ {s : State} {i : Nat}, Owns s A rest → i + n = pgup sz →
    n = 0 ∨ Touched file offset i →
    wp (loadLoop A.dir addr file offset sz n i)
      (fun r s' => Loaded A rest s s' ∧
        (Backed A file addr offset sz → Stored A file addr offset sz i s r s'))
      (fun e _ => ¬Backed A file addr offset sz ∧ (e = .loaduvmAddress ∨ e = .fault)) s := by
  induction n with
  | zero =>
      intro s i h hi _
      rw [loadLoop, wp_pure]
      refine ⟨.refl h, fun _ => ⟨rfl, nofun, fun _ a hle hlt => ?_, fun _ _ _ _ _ _ => rfl⟩⟩
      simp only [pgup, PGSIZE] at *
      omega
  | succ n ih =>
      intro s i h hi htouch
      have htouch : Touched file offset i := htouch.resolve_left (Nat.succ_ne_zero n)
      have hsmall := file.small
      have hisz : i * PGSIZE < sz := by
        simp only [pgup, PGSIZE] at *
        omega
      have huint : uint (offset + i * PGSIZE) = offset + i * PGSIZE := by
        simp only [uint, Touched, PGSIZE] at *
        omega
      have hgood : Backed A file addr offset sz → A.leaf (addr / PGSIZE + i) ≠ 0 :=
        fun hseg => hseg i (by omega) htouch
      rw [loadLoop, wp_bind]
      refine walkpgdir_any h h1 h2 (fun _ ht => ?_) (fun _ ht => ?_) fun t k hwild ht => ?_
      · -- no page table
        dsimp only
        rw [wp_stop]
        refine ⟨fun hseg => ?_, .inl rfl⟩
        have hl := hgood hseg
        rw [h.folded_eq hl] at ht
        exact (h.maps.leaf _ hl).1 ht
      · have hpa := h.entry ht
        have hlinear := h.linear (.leaf (folded (addr / PGSIZE + i)))
        dsimp only
        rw [wp_bind]
        refine wp_load (h.linear (.table _)) ?_
        rw [hpa, huint]
        cases hread : readi file (offset + i * PGSIZE) (min (sz - i * PGSIZE) PGSIZE) with
        | none =>
            have hshort := readi_none hread (by omega) (by rw [← huint]; simp only [uint]; omega)
            dsimp only
            rw [wp_pure]
            exact ⟨.refl h, fun _ => ⟨rfl, fun _ => by omega, nofun, nofun⟩⟩
        | some bs =>
            obtain ⟨hbs, hle⟩ := readi_some hread
            have hlen : bs.length = min (min (sz - i * PGSIZE) PGSIZE)
                (file.bytes.length - (offset + i * PGSIZE)) := by
              rw [hbs, List.length_take, List.length_drop]
            have hstep := Loaded.write h (p := A.leaf (folded (addr / PGSIZE + i)))
              (fun _ => ⟨_, rfl⟩) (write (s.mem (A.leaf (folded (addr / PGSIZE + i)))) 0 bs)
            dsimp only
            rw [wp_bind]
            refine wp_memmove hlinear ?_
            rw [wp_ite]
            refine ⟨fun hfull => ?_, fun hshort => ?_⟩
            · refine wp_mono (ih hstep.owns (by omega) ?_) ?_ fun _ _ hE => hE
              · simp only [Touched, pgup, PGSIZE] at *
                omega
              · rintro r s' ⟨hload, hstored⟩
                refine ⟨hstep.trans hload, fun hseg => ?_⟩
                have hl := hgood hseg
                obtain ⟨hzero, hshort, hbytes, hother⟩ := hstored hseg
                rw [h.folded_eq hl] at hzero hother
                refine ⟨?_, hshort, fun hr a hle' hlt => ?_, fun hr u b hu hb hrange => ?_⟩
                · rw [hzero]
                  exact Function.update_of_ne hl.symm _ _
                · by_cases hnext : (i + 1) * PGSIZE ≤ a
                  · exact hbytes hr a hnext hlt
                  · have hpage : a / PGSIZE = i := by
                      simp only [PGSIZE] at *
                      omega
                    have hin : a % PGSIZE < 0 + bs.length := by
                      simp only [PGSIZE] at *
                      omega
                    have haddr : offset + i * PGSIZE + a % PGSIZE = offset + a := by
                      simp only [PGSIZE] at *
                      omega
                    refine ⟨by omega, ?_⟩
                    rw [hpage, hother hr _ _ hl (Nat.mod_lt _ (by decide)) (.inl (by omega))]
                    dsimp only
                    rw [Function.update_self, byteAt_write_inside (Nat.zero_le _) hin, Nat.sub_zero,
                      hbs, getD_take_drop (by omega), haddr]
                · rw [hother hr u b hu hb (by omega)]
                  dsimp only
                  by_cases hu' : u = addr / PGSIZE + i
                  · subst hu'
                    rw [Function.update_self, byteAt_write_outside]
                    simp only [PGSIZE] at *
                    omega
                  · rw [Function.update_of_ne]
                    exact fun heq => hu' (Role.leaf.inj (h.excl.inj (.leaf u) (.leaf _) hu heq))
            · rw [wp_pure]
              refine ⟨hstep, fun hseg => ⟨?_, fun _ => by omega, nofun, nofun⟩⟩
              have hl := hgood hseg
              rw [h.folded_eq hl]
              exact Function.update_of_ne hl.symm _ _
      · dsimp only
        rw [wp_bind]
        unfold load
        rw [wp_ite]
        refine ⟨fun _ => ?_, fun hnot => absurd ht hnot⟩
        rw [wp_stop]
        refine ⟨fun hseg => ?_, .inr rfl⟩
        have hl := hgood hseg
        rw [h.folded_eq hl] at hwild
        exact absurd (h.leaf_lt hl) (by omega)

theorem loaduvm_spec {addr offset sz : Nat} (h : Owns s A rest) (hoff : offset < 4294967296)
    (h1 : A.pml4 ≠ 0) (h2 : A.pdpt ≠ 0) :
    wp (loaduvm A.dir addr file offset sz)
      (fun r s' => Loaded A rest s s' ∧ addr % PGSIZE = 0 ∧
        (Backed A file addr offset sz → Stored A file addr offset sz 0 s r s'))
      (fun e _ => ¬(addr % PGSIZE = 0 ∧ Backed A file addr offset sz) ∧
        (e = .loaduvmAligned ∨ e = .loaduvmAddress ∨ e = .fault)) s := by
  unfold loaduvm
  rw [wp_ite]
  refine ⟨fun hne => ?_, fun halign => ?_⟩
  · rw [wp_stop]
    exact ⟨fun hall => hne hall.1, .inl rfl⟩
  · refine wp_mono (loadLoop_spec hoff h1 h2 _ h (Nat.zero_add _) (.inr (.inl rfl))) ?_ ?_
    · rintro r s' ⟨hload, hstored⟩
      exact ⟨hload, not_not.1 halign, hstored⟩
    · rintro e s' ⟨hno, he⟩
      exact ⟨fun hall => hno hall.2, .inr he⟩

/-! ## `copyout` -/

theorem uva2ka_inside (h : Owns s A rest) (hl : A.leaf v ≠ 0) {Q : Option Nat → State → Prop}
    {E : Stop → State → Prop} (hnone : ¬User (A.flags v) → Q none s)
    (hsome : User (A.flags v) → Q (some (A.leaf v)) s) : wp (uva2ka A.dir v) Q E s := by
  have ht := (h.maps.leaf v hl).1
  obtain ⟨hpresent, hpte⟩ := h.pte ht
  have huser : User (s.mem (A.table (v / 512)) (v % 512)) ↔ User (A.flags v) := by
    rw [(h.maps.leaf v hl).2]
    simp only [User, PTE_U, PGSIZE]
    omega
  unfold uva2ka uvaPte
  rw [wp_bind, wp_bind]
  refine walkpgdir_lookup h (h.leaf_lt hl) (fun hno => absurd hno ht) fun _ => ?_
  dsimp only
  refine wp_load (h.linear (.table _)) ?_
  rw [wp_ite]
  refine ⟨fun hnot => absurd (hpresent.2 hl) hnot, fun _ => ?_⟩
  rw [wp_ite]
  refine ⟨fun hnot => ?_, fun hu => ?_⟩
  · rw [wp_pure]
    exact hnone fun hu => hnot (huser.2 hu)
  · rw [wp_pure, (hpte hl).1]
    exact hsome (huser.1 (not_not.1 hu))

/-- Only data pages from `lo` on and in front of `hi` have changed. -/
structure Wrote (A : Space) (rest : Nat → Prop) (lo hi : Nat) (s s' : State) : Prop
    extends Loaded A rest s s' where
  range : ∀ x, (∀ u, lo ≤ u → u < hi → A.leaf u ≠ x) → s'.mem x = s.mem x

theorem copyoutLoop_inside (hc : Covers A n) (hn : n ≤ VPAGES) (fuel : Nat) :
    ∀ {s : State} {va : Nat} {bs : List UInt8}, Owns s A rest → bs.length ≤ fuel →
    va + bs.length ≤ n * PGSIZE →
    wp (copyoutLoop A.dir fuel va bs)
      (fun r s' => Wrote A rest (va / PGSIZE) (pgup (va + bs.length)) s s' ∧
        ((∀ u, va / PGSIZE ≤ u → u < pgup (va + bs.length) → User (A.flags u)) → r = true))
      (fun _ _ => False) s := by
  induction fuel with
  | zero =>
      intro s va bs h _ _
      rw [copyoutLoop, wp_pure]
      exact ⟨⟨.refl h, fun _ _ => rfl⟩, fun _ => rfl⟩
  | succ fuel ih =>
      intro s va bs h hfuel hroom
      rw [copyoutLoop, wp_ite]
      refine ⟨fun _ => ?_, fun hne => ?_⟩
      · rw [wp_pure]
        exact ⟨⟨.refl h, fun _ _ => rfl⟩, fun _ => rfl⟩
      · have hpos := List.length_pos_iff.2 hne
        have hpage : va / PGSIZE < n := by
          simp only [PGSIZE] at *
          omega
        have hin : va / PGSIZE < pgup (va + bs.length) := by
          simp only [pgup, PGSIZE]
          omega
        have hl := (hc (va / PGSIZE)).2 hpage
        rw [wp_bind]
        refine uva2ka_inside h hl (fun hnot => ?_) fun _ => ?_
        · dsimp only
          rw [wp_pure]
          exact ⟨⟨.refl h, fun _ _ => rfl⟩, fun hall => absurd (hall _ (Nat.le_refl _) hin) hnot⟩
        · have hstep := Loaded.write h (p := A.leaf (va / PGSIZE)) (fun _ => ⟨_, rfl⟩)
            (write (s.mem (A.leaf (va / PGSIZE))) (va % PGSIZE)
              (bs.take (min (PGSIZE - va % PGSIZE) bs.length)))
          have hnext : uint (va / PGSIZE * PGSIZE + PGSIZE) = va / PGSIZE * PGSIZE + PGSIZE := by
            simp only [uint, PGSIZE, VPAGES] at *
            omega
          have hmod : va % PGSIZE < PGSIZE := Nat.mod_lt _ (by decide)
          have hlen : (bs.drop (min (PGSIZE - va % PGSIZE) bs.length)).length =
              bs.length - min (PGSIZE - va % PGSIZE) bs.length := List.length_drop
          dsimp only
          rw [wp_bind]
          refine wp_memmove (h.linear (.leaf _)) ?_
          rw [hnext]
          refine wp_imp (ih hstep.owns (by omega) ?_) ?_
          · rw [hlen]
            simp only [PGSIZE] at *
            omega
          · have hlo : (va / PGSIZE * PGSIZE + PGSIZE) / PGSIZE = va / PGSIZE + 1 := by
              simp only [PGSIZE]
              omega
            have hhi : pgup (va / PGSIZE * PGSIZE + PGSIZE +
                (bs.drop (min (PGSIZE - va % PGSIZE) bs.length)).length) ≤
                pgup (va + bs.length) := by
              rw [hlen]
              simp only [pgup, PGSIZE] at *
              omega
            rw [hlo]
            rintro r s' ⟨hwrote, hr⟩
            refine ⟨⟨hstep.trans hwrote.toLoaded, fun x hx => ?_⟩, fun hall =>
              hr fun u hle hlt => ?_⟩
            · rw [hwrote.range x fun u hle hlt => hx u (by omega) (by omega)]
              refine Function.update_of_ne ?_ _ _
              exact (hx _ (Nat.le_refl _) hin).symm
            · exact hall u (by omega) (by omega)

theorem Wrote.refl (h : Owns s A rest) (lo hi : Nat) : Wrote A rest lo hi s s :=
  ⟨.refl h, fun _ _ => rfl⟩

theorem Wrote.mono {lo lo' hi hi' : Nat} (h : Wrote A rest lo hi s s') (hlo : lo' ≤ lo)
    (hhi : hi ≤ hi') : Wrote A rest lo' hi' s s' :=
  ⟨h.toLoaded, fun x hx => h.range x fun u hle hlt => hx u (by omega) (by omega)⟩

theorem Wrote.trans {lo hi : Nat} (h : Wrote A rest lo hi s s') (h' : Wrote A rest lo hi s' s'') :
    Wrote A rest lo hi s s'' :=
  ⟨h.toLoaded.trans h'.toLoaded, fun x hx => (h'.range x hx).trans (h.range x hx)⟩

theorem copyout_inside (va lo : Nat) {bs : List UInt8} (hc : Covers A n) (hn : n ≤ VPAGES)
    (h : Owns s A rest) (hlo : lo ≤ va / PGSIZE) (hroom : va + bs.length ≤ n * PGSIZE) :
    wp (copyout A.dir va bs)
      (fun r s' => Wrote A rest lo n s s' ∧
        ((∀ u, lo ≤ u → u < n → User (A.flags u)) → r = true)) (fun _ _ => False) s := by
  have hva : uint va = va := by
    simp only [uint, PGSIZE, VPAGES] at *
    omega
  have hhi : pgup (va + bs.length) ≤ n := by
    simp only [pgup, PGSIZE] at *
    omega
  unfold copyout
  rw [hva]
  refine wp_imp (copyoutLoop_inside hc hn _ h (Nat.le_refl _) hroom) ?_
  rintro r s' ⟨hwrote, hr⟩
  exact ⟨hwrote.mono hlo hhi, fun hall => hr fun u hle hlt => hall u (by omega) (by omega)⟩

theorem room_le {args : List Arg} {sp sp' : Nat} (h : room args sp = some sp') : sp' ≤ sp := by
  induction args generalizing sp with
  | nil => exact Nat.le_of_eq (Option.some.inj h).symm
  | cons a args ih =>
      unfold room at h
      split at h
      · have := ih h
        omega
      · cases h

theorem uintp_sub {a b : Nat} (hle : b ≤ a) (hlt : a < 18446744073709551616) :
    uintp ((a : Int) - b) = a - b := by
  unfold uintp
  omega

theorem pushArgs_inside (lo : Nat) {sp' : Nat} (hc : Covers A n) (hn : n ≤ VPAGES)
    (hlo : lo ≤ sp' / PGSIZE) (args : List Arg) : ∀ {s : State} {argc sp : Nat}, Owns s A rest →
    sp ≤ n * PGSIZE → room args sp = some sp' →
    wp (pushArgs A.dir args argc sp)
      (fun r s' => Wrote A rest lo n s s' ∧
        (∀ q ptrs, r = some (q, ptrs) → q = sp' ∧ ptrs.length = args.length) ∧
        ((∀ u, lo ≤ u → u < n → User (A.flags u)) → argc + args.length ≤ MAXARG → r ≠ none))
      (fun _ _ => False) s := by
  induction args with
  | nil =>
      intro s argc sp h _ hroom
      rw [pushArgs, wp_pure]
      refine ⟨.refl h lo n, fun q ptrs heq => ?_, fun _ _ => nofun⟩
      cases heq
      exact ⟨Option.some.inj hroom, rfl⟩
  | cons a args ih =>
      intro s argc sp h hsp hroom
      unfold room at hroom
      split at hroom
      · rename_i hfit
        have hle := room_le hroom
        have hptr : uintp ((sp : Int) - (a.bytes.length + 1)) / 8 * 8 =
            (sp - (a.bytes.length + 1)) / 8 * 8 := by
          have := uintp_sub hfit (by simp only [PGSIZE, VPAGES] at *; omega)
          push_cast at this
          rw [this]
        rw [pushArgs, wp_ite]
        refine ⟨fun hmax => ?_, fun hmax => ?_⟩
        · rw [wp_pure]
          refine ⟨.refl h lo n, nofun, fun _ hlt => ?_⟩
          rw [List.length_cons] at hlt
          omega
        · dsimp only
          rw [hptr, wp_bind]
          refine wp_imp (copyout_inside ((sp - (a.bytes.length + 1)) / 8 * 8) lo hc hn h ?_ ?_) ?_
          · exact Nat.le_trans hlo (Nat.div_le_div_right hle)
          · rw [List.length_append, List.length_singleton]
            omega
          · rintro r s₁ ⟨hwrote, hr⟩
            rw [wp_ite]
            refine ⟨fun _ => ?_, fun hfalse => ?_⟩
            · rw [wp_bind]
              refine wp_imp (ih hwrote.owns (by omega) hroom) ?_
              rintro r' s₂ ⟨hwrote', hsome, hr'⟩
              cases r' with
              | none =>
                  rw [wp_pure]
                  refine ⟨hwrote.trans hwrote', nofun, fun hall hlt => ?_⟩
                  exact absurd rfl (hr' hall (by rw [List.length_cons] at hlt; omega))
              | some res =>
                  obtain ⟨q, ptrs⟩ := res
                  dsimp only
                  rw [wp_pure]
                  refine ⟨hwrote.trans hwrote', fun q' ptrs' heq => ?_, fun _ _ => nofun⟩
                  cases heq
                  obtain ⟨h1, h2⟩ := hsome q ptrs rfl
                  exact ⟨h1, by rw [List.length_cons, List.length_cons, h2]⟩
            · rw [wp_pure]
              exact ⟨hwrote, nofun, fun hall _ => absurd (hr hall) hfalse⟩
      · cases hroom

end Load

end Xv6.Kernel.Vm
