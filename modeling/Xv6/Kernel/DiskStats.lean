import Mathlib.Algebra.BigOperators.Intervals
import Xv6.Kernel.Ops
import Xv6.Verified.Counting

/-!
# Disk statistics

`get_number_of_used_blocks` and `get_inodes_used` of `kernel/fs.c`.  The first compares the bit of a
block in its byte with 1, so that only every eighth bit counts; the second stops at the first inode
that is free.

* `disk_statistics_iff`: when each of them gives the right number, and when `balloc`, `bfree`,
  `ialloc` and an `iput` that frees change it by one.
-/

namespace Xv6.Kernel

open Xv6.Verified
open Exec
open Finset (range sum_congr)

/-! ## The two functions -/

/-- The inner loop of `get_number_of_used_blocks`, for `n` more bits of the bitmap block `data`,
whose first bit is that of block `b`. -/
def countBits (data : Block) (size b : Nat) : Nat → Nat → Nat
  | 0, _ => 0
  | n + 1, bi =>
      if b + bi < size then
        (if data (bi / 8) &&& UInt8.ofNat (2 ^ (bi % 8)) = 1 then 1 else 0) +
          countBits data size b n (bi + 1)
      else 0

/-- The outer loop, for at most `n` more bitmap blocks. -/
def countBlocks (k : State) : Nat → Nat → Nat
  | 0, _ => 0
  | n + 1, b =>
      if b < k.sb.size then
        countBits (k.image (k.sb.bblock b)) k.sb.size b BPB 0 + countBlocks k n (b + BPB)
      else 0

/-- `get_number_of_used_blocks`. -/
def getNumberOfUsedBlocks (k : State) : Nat := countBlocks k (k.sb.size / BPB + 1) 0

/-- The loop of `get_inodes_used`, for `n` more inodes. -/
def countInodes (dinode : Nat → Dinode) : Nat → Nat → Nat
  | 0, _ => 0
  | n + 1, inum => if (dinode inum).type = .free then 0 else 1 + countInodes dinode n (inum + 1)

/-- `get_inodes_used`. -/
def getInodesUsed (k : State) : Nat := countInodes k.dinode (k.sb.ninodes - 1) 1

/-- The number of blocks whose bit is set. -/
def usedBlocks (k : State) : Nat := ∑ b ∈ range k.sb.size, if k.bitmap b = true then 1 else 0

/-- An inode that is not free. -/
abbrev State.InodeUsed (k : State) (i : Nat) : Prop := (k.dinode i).type ≠ .free

/-- The number of inodes that are not free. -/
def usedInodes (k : State) : Nat :=
  ∑ i ∈ range (k.sb.ninodes - 1), if k.InodeUsed (i + 1) then 1 else 0

/-! ## The bits -/

section Bits

variable {k k' : State} {b n bi o r : Nat}

/-- The byte of eight bits. -/
theorem byte_test : ∀ (x0 x1 x2 x3 x4 x5 x6 x7 : Bool) (r : Fin 8),
    (UInt8.ofNat ((List.range 8).foldl (fun acc r =>
      if [x0, x1, x2, x3, x4, x5, x6, x7].getD r false then acc + 2 ^ r else acc) 0) &&&
        UInt8.ofNat (2 ^ r.val) = 1 ↔ r.val = 0 ∧ x0 = true) := by
  decide +kernel

/-- What the first function tests: bit `r` of byte `o` is set, and the first of it. -/
theorem bitmapByte_test {bitmap : Nat → Bool} (hr : r < 8) :
    bitmapByte bitmap b o &&& UInt8.ofNat (2 ^ r) = 1 ↔ r = 0 ∧ bitmap (b + 8 * o + r) = true := by
  have htest := byte_test (bitmap (b + 8 * o)) (bitmap (b + 8 * o + 1)) (bitmap (b + 8 * o + 2))
    (bitmap (b + 8 * o + 3)) (bitmap (b + 8 * o + 4)) (bitmap (b + 8 * o + 5))
    (bitmap (b + 8 * o + 6)) (bitmap (b + 8 * o + 7)) ⟨r, hr⟩
  have hbyte : bitmapByte bitmap b o = UInt8.ofNat ((List.range 8).foldl (fun acc r =>
      if [bitmap (b + 8 * o), bitmap (b + 8 * o + 1), bitmap (b + 8 * o + 2),
        bitmap (b + 8 * o + 3), bitmap (b + 8 * o + 4), bitmap (b + 8 * o + 5),
        bitmap (b + 8 * o + 6), bitmap (b + 8 * o + 7)].getD r false then acc + 2 ^ r
        else acc) 0) := rfl
  rw [hbyte, htest]
  refine and_congr_right fun h0 => ?_
  rw [show r = 0 from h0, Nat.add_zero]

theorem image_test (hb : b % BPB = 0) (hlt : b + bi < k.sb.size) :
    k.image (k.sb.bblock b) (bi / 8) &&& UInt8.ofNat (2 ^ (bi % 8)) = 1 ↔
      (b + bi) % 8 = 0 ∧ k.bitmap (b + bi) = true := by
  have hmul : b / BPB * BPB = b := Nat.div_mul_cancel (Nat.dvd_of_mod_eq_zero hb)
  have hdiv : b / BPB ≤ k.sb.size / BPB := Nat.div_le_div_right (by omega)
  have himage : k.image (k.sb.bblock b) = fun o => bitmapByte k.bitmap b o := by
    have hoff : k.sb.bblock b - (k.sb.ninodes / IPB + 3) = b / BPB := by
      rw [Superblock.bblock, Nat.add_assoc, Nat.add_sub_cancel]
    have hstart : k.sb.ninodes / IPB + 3 ≤ k.sb.bblock b := by
      rw [Superblock.bblock, Nat.add_assoc]
      exact Nat.le_add_left _ _
    have hend : k.sb.bblock b < k.sb.dataStart := by
      rw [Superblock.bblock, Superblock.dataStart, Nat.add_assoc, Nat.add_comm]
      exact Nat.add_lt_add_left (Nat.lt_succ_of_le hdiv) _
    have h3 : 3 ≤ k.sb.bblock b := Nat.le_trans (Nat.le_add_left _ _) hstart
    rw [State.image, if_neg (by omega), if_neg (by omega), if_pos ⟨hstart, hend⟩, hoff, hmul]
  have hsplit : b + 8 * (bi / 8) + bi % 8 = b + bi := by omega
  rw [himage, bitmapByte_test (Nat.mod_lt _ (by decide)), hsplit]
  refine and_congr_left fun _ => ?_
  simp only [BPB] at hb
  omega

/-- The bit that counts. -/
abbrev Counted (k : State) (b : Nat) : Prop := b % 8 = 0 ∧ k.bitmap b = true

theorem countBits_eq (hb : b % BPB = 0) (hn : bi + n = BPB) :
    countBits (k.image (k.sb.bblock b)) k.sb.size b n bi =
      ∑ c ∈ Finset.Ico (b + bi) (min (b + BPB) k.sb.size), if Counted k c then 1 else 0 := by
  induction n generalizing bi with
  | zero =>
      rw [countBits, Finset.Ico_eq_empty (by omega), Finset.sum_empty]
  | succ n ih =>
      rw [countBits]
      split
      · rename_i hlt
        rw [Finset.sum_eq_sum_Ico_succ_bot (by omega), ih (by omega), Nat.add_assoc]
        congr 1
        simp only [image_test hb hlt]
      · rw [Finset.Ico_eq_empty (by omega), Finset.sum_empty]

theorem countBlocks_eq (hb : b % BPB = 0) (hn : k.sb.size ≤ b + n * BPB) :
    countBlocks k n b = ∑ c ∈ Finset.Ico b k.sb.size, if Counted k c then 1 else 0 := by
  induction n generalizing b with
  | zero =>
      rw [countBlocks, Finset.Ico_eq_empty (by omega), Finset.sum_empty]
  | succ n ih =>
      rw [countBlocks]
      split
      · rename_i hlt
        rw [countBits_eq hb (Nat.zero_add _), Nat.add_zero,
          ih (by rw [Nat.add_mod_right, hb]) (by rw [Nat.succ_mul] at hn; omega)]
        by_cases hlast : b + BPB ≤ k.sb.size
        · rw [min_eq_left hlast, Finset.sum_Ico_consecutive _ (by omega) hlast]
        · rw [min_eq_right (by omega), Finset.Ico_eq_empty (by omega : ¬b + BPB < k.sb.size),
            Finset.sum_empty, Nat.add_zero]
      · rw [Finset.Ico_eq_empty (by omega), Finset.sum_empty]

/-- The first function counts every eighth block. -/
theorem getNumberOfUsedBlocks_eq (k : State) :
    getNumberOfUsedBlocks k = ∑ b ∈ range k.sb.size, if Counted k b then 1 else 0 := by
  rw [getNumberOfUsedBlocks, countBlocks_eq rfl, Nat.Ico_zero_eq_range]
  have hmod := Nat.mod_lt k.sb.size (show 0 < BPB by decide)
  have hdiv := Nat.div_add_mod k.sb.size BPB
  rw [Nat.mul_comm] at hdiv
  rw [Nat.succ_mul]
  omega

/-- It gives the right number exactly if no other block is used. -/
theorem usedBlocks_iff (k : State) : getNumberOfUsedBlocks k = usedBlocks k ↔
    ∀ b < k.sb.size, k.bitmap b = true → b % 8 = 0 := by
  rw [getNumberOfUsedBlocks_eq, usedBlocks, Finset.sum_eq_sum_iff_of_le]
  · refine forall_congr' fun b => ?_
    rw [Finset.mem_range]
    refine imp_congr_right fun _ => ?_
    by_cases hb : k.bitmap b = true <;> by_cases h8 : b % 8 = 0 <;> simp [Counted, hb, h8]
  · intro b _
    by_cases hb : k.bitmap b = true <;> by_cases h8 : b % 8 = 0 <;> simp [Counted, hb, h8]

/-- One bit changes. -/
theorem usedBlocks_update (hsb : k'.sb = k.sb) (hb : b < k.sb.size)
    (hothers : ∀ c, c ≠ b → k'.bitmap c = k.bitmap c) :
    getNumberOfUsedBlocks k' + (if Counted k b then 1 else 0) =
      getNumberOfUsedBlocks k + if Counted k' b then 1 else 0 := by
  rw [getNumberOfUsedBlocks_eq, getNumberOfUsedBlocks_eq, hsb]
  exact sum_change (f := fun c => if Counted k c then 1 else 0)
    (g := fun c => if Counted k' c then 1 else 0) hb fun c hc => by
      simp only [Counted, hothers c hc]

theorem balloc_counts (hrun : balloc.run k = .ok b k') :
    getNumberOfUsedBlocks k' = getNumberOfUsedBlocks k + 1 ↔ b % 8 = 0 := by
  have hfresh := ok_of_wp (balloc_spec k) hrun
  have hupdate := usedBlocks_update hfresh.frame.sb hfresh.lt fun c hc => by
    rw [hfresh.bitmap, Function.update_of_ne hc]
  have hold : ¬Counted k b := by
    rintro ⟨-, hset⟩
    rw [hfresh.free] at hset
    cases hset
  have hnew : Counted k' b ↔ b % 8 = 0 := by
    rw [Counted, hfresh.bitmap, Function.update_self]
    exact and_iff_left rfl
  rw [if_neg hold, Nat.add_zero] at hupdate
  rw [hupdate]
  by_cases h8 : b % 8 = 0
  · rw [if_pos (hnew.2 h8)]
    exact iff_of_true rfl h8
  · rw [if_neg (mt hnew.1 h8)]
    exact iff_of_false (by omega) h8

theorem bfree_counts (hb : b < k.sb.size) (hrun : (bfree b).run k = .ok () k') :
    getNumberOfUsedBlocks k = getNumberOfUsedBlocks k' + 1 ↔ b % 8 = 0 := by
  have hsb : k'.sb = k.sb := (ok_of_wp ((bfree_frame b).wp k) hrun).sb
  rw [bfree, run_get_bind, run_ite] at hrun
  split at hrun
  · cases hrun
  · rename_i hset
    rw [run_modify_bind] at hrun
    obtain rfl := ok_of_wp (logWrite_spec _ _) hrun
    have hupdate := usedBlocks_update hsb hb fun c hc => Function.update_of_ne hc _ _
    have hnew : ¬Counted (State.logged { k with bitmap := Function.update k.bitmap b false }
        (k.sb.bblock b)) b := by
      rintro ⟨-, hclear⟩
      change Function.update k.bitmap b false b = true at hclear
      rw [Function.update_self] at hclear
      cases hclear
    have hold : Counted k b ↔ b % 8 = 0 := and_iff_left (Bool.eq_true_of_not_eq_false hset)
    rw [if_neg hnew, Nat.add_zero] at hupdate
    rw [← hupdate]
    by_cases h8 : b % 8 = 0
    · rw [if_pos (hold.2 h8)]
      exact iff_of_true rfl h8
    · rw [if_neg (mt hold.1 h8)]
      exact iff_of_false (by omega) h8

end Bits

/-! ## The inodes -/

section Inodes

variable {k k' : State} {dinode dinode' : Nat → Dinode} {n m i inum ip : Nat} {type : InodeType}

/-- Of `n` inodes from `i` on, exactly the first `m` are in use before one is free. -/
structure FirstRun (dinode : Nat → Dinode) (n i m : Nat) : Prop where
  le : m ≤ n
  used : ∀ j < m, (dinode (i + j)).type ≠ .free
  ends : m < n → (dinode (i + m)).type = .free

theorem countInodes_run (n i : Nat) : FirstRun dinode n i (countInodes dinode n i) := by
  induction n generalizing i with
  | zero => exact ⟨Nat.le_refl _, by simp [countInodes], by simp [countInodes]⟩
  | succ n ih =>
      rw [countInodes]
      split
      · rename_i hfree
        exact ⟨Nat.zero_le _, by simp, fun _ => hfree⟩
      · rename_i hused
        obtain ⟨hle, hall, hend⟩ := ih (i + 1)
        refine ⟨by omega, fun j hj => ?_, fun hlt => ?_⟩
        · cases j with
          | zero => exact hused
          | succ j =>
              rw [show i + (j + 1) = i + 1 + j by omega]
              exact hall j (by omega)
        · rw [show i + (1 + countInodes dinode n (i + 1)) = i + 1 + countInodes dinode n (i + 1) by
            omega]
          exact hend (by omega)

theorem FirstRun.unique (h : FirstRun dinode n i m) : countInodes dinode n i = m := by
  obtain ⟨hle, hused, hend⟩ := @countInodes_run dinode n i
  rcases Nat.lt_trichotomy (countInodes dinode n i) m with hlt | heq | hlt
  · exact absurd (hend (by have := h.le; omega)) (h.used _ hlt)
  · exact heq
  · exact absurd (h.ends (by omega)) (hused _ hlt)

theorem getInodesUsed_run (k : State) :
    FirstRun k.dinode (k.sb.ninodes - 1) 1 (getInodesUsed k) := countInodes_run _ _

theorem getInodesUsed_eq (h : FirstRun k.dinode (k.sb.ninodes - 1) 1 m) : getInodesUsed k = m :=
  h.unique

/-- The inodes that are not counted. -/
theorem usedInodes_split (k : State) : usedInodes k = getInodesUsed k +
    ∑ i ∈ Finset.Ico (getInodesUsed k) (k.sb.ninodes - 1),
      if k.InodeUsed (i + 1) then 1 else 0 := by
  have hrun := getInodesUsed_run k
  rw [usedInodes, ← Nat.Ico_zero_eq_range, ← Finset.sum_Ico_consecutive _ (Nat.zero_le _) hrun.le,
    Nat.Ico_zero_eq_range]
  congr 1
  have hones : ∑ i ∈ range (getInodesUsed k), (if k.InodeUsed (i + 1) then 1 else 0) =
      ∑ i ∈ range (getInodesUsed k), 1 := by
    refine sum_congr rfl fun i hi => if_pos ?_
    rw [Nat.add_comm]
    exact hrun.used _ (Finset.mem_range.1 hi)
  rw [hones, ← Finset.card_eq_sum_ones, Finset.card_range]

/-- The second function gives the right number exactly if the inodes in use come first. -/
theorem usedInodes_iff (k : State) : getInodesUsed k = usedInodes k ↔
    ∀ i j, 1 ≤ i → i < j → j < k.sb.ninodes → k.InodeUsed j → k.InodeUsed i := by
  have hrun := getInodesUsed_run k
  rw [usedInodes_split, left_eq_add, Finset.sum_eq_zero_iff]
  constructor
  · intro h i j hi hij hj hused
    have hlt : j - 1 < getInodesUsed k := by
      by_contra hge
      have := h (j - 1) (Finset.mem_Ico.2 ⟨by omega, by omega⟩)
      rw [Nat.sub_add_cancel (by omega), if_pos hused] at this
      cases this
    have := hrun.used (i - 1) (by omega)
    rwa [Nat.add_comm, Nat.sub_add_cancel hi] at this
  · intro h i hi
    obtain ⟨hle, hlt⟩ := Finset.mem_Ico.1 hi
    refine if_neg fun hused => ?_
    have hfree := hrun.ends (by omega)
    by_cases heq : i = getInodesUsed k
    · rw [heq, Nat.add_comm] at hused
      exact hused hfree
    · exact h (1 + getInodesUsed k) (i + 1) (by omega) (by omega) (by omega) hused hfree

theorem firstFreeInode_before (h : firstFreeInode dinode n i = some inum) :
    ∀ j, i ≤ j → j < inum → (dinode j).type ≠ .free := by
  induction n generalizing i with
  | zero => cases h
  | succ n ih =>
      rw [firstFreeInode] at h
      split at h
      · cases h
        omega
      · rename_i hused
        intro j hj hlt
        by_cases heq : j = i
        · exact heq ▸ hused
        · exact ih h j (by omega) hlt

theorem ialloc_dinode (hrun : (ialloc type).run k = .ok inum k') :
    firstFreeInode k.dinode (k.sb.ninodes - 1) 1 = some inum ∧
      k'.dinode = Function.update k.dinode inum { Dinode.zero with type := type } := by
  unfold ialloc at hrun
  rw [run_get_bind] at hrun
  split at hrun
  · cases hrun
  · rename_i c hfirst
    rw [run_modify_bind] at hrun
    obtain ⟨_, k₁, hlog, hrest⟩ := run_bind_eq_ok hrun
    obtain ⟨_, k₂, hget, hret⟩ := run_bind_eq_ok hrest
    cases hret
    refine ⟨hfirst, ?_⟩
    rw [ok_of_wp (iget_spec k₁ inum) hget, ok_of_wp (logWrite_spec _ _) hlog]
    rfl

/-- Inode `inum` is taken, the first that was free. -/
theorem ialloc_counts (htype : type ≠ .free) (hrun : (ialloc type).run k = .ok inum k') :
    getInodesUsed k' = getInodesUsed k + 1 ↔
      (inum + 1 < k.sb.ninodes → ¬k.InodeUsed (inum + 1)) := by
  obtain ⟨hfirst, hdinode⟩ := ialloc_dinode hrun
  obtain ⟨hpos, hlt, hfree⟩ := firstFreeInode_some hfirst
  have hsb : k'.sb = k.sb := (ialloc_frame hrun).sb
  have hold : getInodesUsed k = inum - 1 := by
    refine getInodesUsed_eq ⟨by omega, fun j hj => ?_, fun _ => ?_⟩
    · exact firstFreeInode_before hfirst _ (by omega) (by omega)
    · rwa [Nat.add_sub_cancel' hpos]
  have hused : ∀ j, 1 ≤ j → j ≤ inum → (k'.dinode j).type ≠ .free := by
    intro j hj hle
    by_cases heq : j = inum
    · rw [hdinode, heq, Function.update_self]
      exact htype
    · rw [hdinode, Function.update_of_ne heq]
      exact firstFreeInode_before hfirst j hj (by omega)
  have hnext : (k'.dinode (inum + 1)).type = (k.dinode (inum + 1)).type := by
    rw [hdinode, Function.update_of_ne (by omega)]
  have hrun' := getInodesUsed_run k'
  rw [hsb] at hrun'
  rw [hold, Nat.sub_add_cancel hpos]
  constructor
  · intro heq hlt' hnot
    rw [heq] at hrun'
    refine hnot ?_
    rw [← hnext, Nat.add_comm]
    exact hrun'.ends (by omega)
  · intro hfree'
    refine getInodesUsed_eq ⟨by rw [hsb]; omega, fun j hj => ?_, fun hlt' => ?_⟩
    · exact hused _ (by omega) (by omega)
    · rw [hsb] at hlt'
      rw [Nat.add_comm, hnext]
      exact not_not.1 (hfree' (by omega))

/-! ## Freeing an inode -/

/-- The other inodes on the disk are the same. -/
def OthersKept (ip : Nat) (k k' : State) : Prop := ∀ i, i ≠ ip → k'.dinode i = k.dinode i

instance (ip : Nat) : IsPreorder State (OthersKept ip) where
  refl _ _ _ := rfl
  trans _ _ _ h h' i hi := (h' i hi).trans (h i hi)

theorem logWrite_kept (b : Nat) : Preserves (OthersKept ip) (logWrite b) :=
  .bind .get fun _ => .ite (.stop _) (.ite (.stop _) (.modify fun _ _ _ => rfl))

theorem bfree_kept (b : Nat) : Preserves (OthersKept ip) (bfree b) :=
  .bind .get fun _ => .ite (.stop _)
    (.bind (.modify fun _ _ _ => rfl) fun _ => logWrite_kept _)

theorem setAddr_kept (s b : Nat) : Preserves (OthersKept ip) (setAddr ip s b) :=
  .modify fun _ _ _ => rfl

theorem iupdate_kept : Preserves (OthersKept ip) (iupdate ip) :=
  .bind (.modify fun _ _ hi => Function.update_of_ne hi _ _) fun _ => logWrite_kept _

theorem itrunc_kept : Preserves (OthersKept ip) (itrunc ip) := by
  have hdirect : Preserves (OthersKept ip) (truncDirect ip) :=
    .loopTo (fun i => .bind .get fun _ => .ite (.pure ())
      (.bind (bfree_kept _) fun _ => setAddr_kept i 0)) _
  have hentries : ∀ a, Preserves (OthersKept ip) (truncEntries a) := fun _ =>
    .loopTo (fun _ => .ite (.pure ()) (bfree_kept _)) _
  have hindirect : Preserves (OthersKept ip) (truncIndirect ip) :=
    .bind .get fun _ => .ite (.pure ()) (.bind (hentries _) fun _ =>
      .bind (bfree_kept _) fun _ => setAddr_kept _ 0)
  exact .bind hdirect fun _ => .bind hindirect fun _ =>
    .bind (.modify fun _ _ _ => rfl) fun _ => iupdate_kept

/-- Only the inode itself is freed. -/
theorem iputFree_dinode (hrun : (iputFree ip).run k = .ok () k') :
    (k'.dinode ip).type = .free ∧ OthersKept ip k k' := by
  unfold iputFree at hrun
  obtain ⟨_, k₁, htrunc, hrest⟩ := run_bind_eq_ok hrun
  rw [run_modify_bind] at hrest
  obtain ⟨_, k₂, hupdate, hlast⟩ := run_bind_eq_ok hrest
  have hkept := ok_of_wp (itrunc_kept.wp k) htrunc
  have hstored := ok_of_wp (iupdate_spec k₁ ip _) hupdate
  cases hlast
  rw [State.setEntry_dinode, hstored.dinode, Function.update_self]
  refine ⟨rfl, fun i hi => ?_⟩
  rw [State.setEntry_dinode, hstored.dinode, Function.update_of_ne hi]
  exact hkept i hi

/-- Inode `ip` is freed. -/
theorem iput_counts (hpos : 1 ≤ ip) (hlt : ip < k.sb.ninodes) (hused : k.InodeUsed ip)
    (hlast : (k.icache ip).ref = 1) (hvalid : (k.icache ip).valid = true)
    (hlinks : (k.icopy ip).nlink = 0) (hrun : (iput ip).run k = .ok () k') :
    getInodesUsed k = getInodesUsed k' + 1 ↔
      (∀ i, 1 ≤ i → i < ip → k.InodeUsed i) ∧ (ip + 1 < k.sb.ninodes → ¬k.InodeUsed (ip + 1)) := by
  obtain ⟨⟨hfree, hothers⟩, hsb⟩ :
      ((k'.dinode ip).type = .free ∧ OthersKept ip k k') ∧ k'.sb = k.sb := by
    unfold iput iputCheck at hrun
    rw [bind_assoc, run_get_bind, if_pos ⟨hlast, hvalid, hlinks⟩] at hrun
    split at hrun
    · cases hrun
    · rw [bind_assoc, run_modify_bind] at hrun
      change (iputFree ip).run (k.setEntry ip _) = _ at hrun
      have hdinode := iputFree_dinode hrun
      exact ⟨⟨hdinode.1, hdinode.2⟩, (iputFree_frame hrun).sb⟩
  have hrun := getInodesUsed_run k
  by_cases hbefore : ∀ i, 1 ≤ i → i < ip → k.InodeUsed i
  · -- The first function counts up to `ip` now.
    have hnew : getInodesUsed k' = ip - 1 := by
      refine getInodesUsed_eq ⟨by rw [hsb]; omega, fun j hj => ?_, fun _ => ?_⟩
      · rw [hothers _ (by omega)]
        exact hbefore _ (by omega) (by omega)
      · rwa [Nat.add_sub_cancel' hpos]
    rw [hnew, Nat.sub_add_cancel hpos, and_iff_right hbefore]
    constructor
    · intro heq hlt'
      rw [heq] at hrun
      rw [not_not, Nat.add_comm]
      exact hrun.ends (by omega)
    · intro hnext
      refine getInodesUsed_eq ⟨by omega, fun j hj => ?_, fun hlt' => ?_⟩
      · by_cases heq : 1 + j = ip
        · exact heq ▸ hused
        · exact hbefore _ (by omega) (by omega)
      · rw [Nat.add_comm]
        exact not_not.1 (hnext (by omega))
  · -- It stopped before `ip` already.
    refine iff_of_false (fun heq => ?_) fun h => hbefore h.1
    have hlt' : 1 + getInodesUsed k < ip := by
      by_contra hge
      refine hbefore fun i hi hip => ?_
      have := hrun.used (i - 1) (by omega)
      rwa [Nat.add_sub_cancel' hi] at this
    have hnew : getInodesUsed k' = getInodesUsed k := by
      refine getInodesUsed_eq ⟨by rw [hsb]; exact hrun.le, fun j hj => ?_, fun h => ?_⟩
      · rw [hothers _ (by omega)]
        exact hrun.used j hj
      · rw [hothers _ (by omega)]
        exact hrun.ends (by rwa [hsb] at h)
    omega

/-- When the two functions give the numbers of blocks and inodes in use, and when one step of the
allocators changes them by one. -/
theorem disk_statistics_iff (k : State) :
    (getNumberOfUsedBlocks k = usedBlocks k ↔ ∀ b < k.sb.size, k.bitmap b = true → b % 8 = 0) ∧
    (getInodesUsed k = usedInodes k ↔
      ∀ i j, 1 ≤ i → i < j → j < k.sb.ninodes → k.InodeUsed j → k.InodeUsed i) ∧
    (∀ b k', balloc.run k = .ok b k' →
      (getNumberOfUsedBlocks k' = getNumberOfUsedBlocks k + 1 ↔ b % 8 = 0)) ∧
    (∀ b k', b < k.sb.size → (bfree b).run k = .ok () k' →
      (getNumberOfUsedBlocks k = getNumberOfUsedBlocks k' + 1 ↔ b % 8 = 0)) ∧
    (∀ type inum k', type ≠ .free → (ialloc type).run k = .ok inum k' →
      (getInodesUsed k' = getInodesUsed k + 1 ↔
        (inum + 1 < k.sb.ninodes → ¬k.InodeUsed (inum + 1)))) ∧
    ∀ ip k', 1 ≤ ip → ip < k.sb.ninodes → k.InodeUsed ip → (k.icache ip).ref = 1 →
      (k.icache ip).valid = true → (k.icopy ip).nlink = 0 → (iput ip).run k = .ok () k' →
      (getInodesUsed k = getInodesUsed k' + 1 ↔
        (∀ i, 1 ≤ i → i < ip → k.InodeUsed i) ∧
        (ip + 1 < k.sb.ninodes → ¬k.InodeUsed (ip + 1))) :=
  ⟨usedBlocks_iff k, usedInodes_iff k, fun _ _ hrun => balloc_counts hrun,
    fun _ _ hb hrun => bfree_counts hb hrun, fun _ _ _ htype hrun => ialloc_counts htype hrun,
    fun _ _ hpos hlt hused hlast hvalid hlinks hrun =>
      iput_counts hpos hlt hused hlast hvalid hlinks hrun⟩

/-- On the small disk five blocks are in use, and one is counted. -/
theorem smallDisk_miscounted : getNumberOfUsedBlocks smallDisk = 1 ∧ usedBlocks smallDisk = 5 ∧
    getNumberOfUsedBlocks smallDisk ≠ usedBlocks smallDisk := by
  have hcounted : getNumberOfUsedBlocks smallDisk = 1 := by
    rw [getNumberOfUsedBlocks_eq]
    decide +kernel
  have hused : usedBlocks smallDisk = 5 := by decide +kernel
  exact ⟨hcounted, hused, by omega⟩

end Inodes

end Xv6.Kernel
