import Mathlib.Data.List.Perm.Subperm
import Xv6.Kernel.Inode

/-!
# Which sectors a transaction logs

A sector is logged once per transaction however often it is written, so the log
has room as long as the distinct sectors are few.  `Room S` says that they are
all in the list `S`; each function of the block layer has a lemma that says by
which sectors `S` grows.  None of these needs a well-formed disk.
-/

namespace Xv6.Kernel

open Xv6.Verified
open Exec

/-- The geometry that `mkfs` chooses, as far as the log depends on it: the log is
`LOGSIZE` blocks long and the bitmap fits one block. -/
structure Geometry (k : State) : Prop where
  log : k.log.size = LOGSIZE
  bits : k.sb.size ≤ BPB
  zero : k.bitmap 0 = true
  nodup : k.log.lh.Nodup

/-- The bitmap block. -/
def State.bitBlock (k : State) : Nat := k.sb.bblock 0

/-- A transaction is open and the sectors logged so far are among `S`. -/
structure Room (S : List Nat) (k : State) : Prop where
  geometry : Geometry k
  busy : k.log.busy ≠ none
  within : ∀ x, x ∈ k.log.lh → x ∈ S

/-- The reason for stopping is not one of the checks of `log_write`, and the transaction is
small. -/
def NotLog (e : Stop) (k : State) : Prop := ¬LogStop e ∧ k.log.lh.length ≤ 7

theorem notLog_panic {m : Panic} (hm : m.ofLog = false) {k : State} (hlen : k.log.lh.length ≤ 7) :
    NotLog (.panic m) k := by
  refine ⟨?_, hlen⟩
  rintro (heq | heq)
  · rw [Stop.panic.inj heq] at hm
    cases hm
  · rw [Stop.panic.inj heq] at hm
    cases hm

theorem Room.mono {S S' : List Nat} {k : State} (h : Room S k) (hsub : ∀ x, x ∈ S → x ∈ S') :
    Room S' k :=
  ⟨h.geometry, h.busy, fun x hx => hsub x (h.within x hx)⟩

/-- Only the log, the bitmap and the geometry matter. -/
theorem Room.same {S : List Nat} {k k' : State} (h : Room S k) (hlog : k'.log = k.log)
    (hsb : k'.sb = k.sb) (hbits : k'.bitmap = k.bitmap) : Room S k' := by
  refine ⟨⟨?_, ?_, ?_, ?_⟩, ?_, ?_⟩
  · rw [hlog]
    exact h.geometry.log
  · rw [hsb]
    exact h.geometry.bits
  · rw [hbits]
    exact h.geometry.zero
  · rw [hlog]
    exact h.geometry.nodup
  · rw [hlog]
    exact h.busy
  · rw [hlog]
    exact h.within

theorem Room.length_le {S : List Nat} {k : State} (h : Room S k) :
    k.log.lh.length ≤ S.length :=
  (h.geometry.nodup.subperm fun x hx => h.within x hx).length_le

/-- Up to eight sectors pass the check. -/
theorem Room.not_full {S : List Nat} {k : State} (h : Room S k) (hS : S.length ≤ 8) :
    ¬k.log.Full := by
  have hlen := h.length_le
  have hsize := h.geometry.log
  simp only [Log.Full, LOGSIZE] at hsize ⊢
  omega

theorem bblock_eq {k : State} (h : Geometry k) {b : Nat} (hb : b < k.sb.size) :
    k.sb.bblock b = k.bitBlock := by
  have hbits := h.bits
  have hdiv : b / BPB = 0 := Nat.div_eq_of_lt (by omega)
  simp only [State.bitBlock, Superblock.bblock, hdiv, Nat.zero_div]

theorem Geometry.logged {k : State} (h : Geometry k) (b : Nat) : Geometry (k.logged b) where
  log := by
    show (k.log.record b).size = LOGSIZE
    rw [Log.record_size]
    exact h.log
  bits := h.bits
  zero := h.zero
  nodup := Log.record_nodup b h.nodup

theorem Room.logged {S : List Nat} {k : State} (h : Room S k) {b : Nat} (hb : b ∈ S) :
    Room S (k.logged b) := by
  refine ⟨h.geometry.logged b, ?_, fun x hx => ?_⟩
  · show (k.log.record b).busy ≠ none
    rw [Log.record_busy]
    exact h.busy
  rcases (Log.mem_record k.log b x).1 hx with hold | rfl
  · exact h.within x hold
  · exact hb

theorem logWrite_room {S : List Nat} {k : State} (h : Room S k) (hS : S.length ≤ 8) (b : Nat) :
    wp (logWrite b) (fun _ k' => k' = k.logged b ∧ Room (b :: S) k') NotLog k := by
  unfold logWrite
  rw [wp_bind, wp_get, wp_ite, wp_ite]
  refine ⟨fun hfull => absurd hfull (h.not_full hS), fun _ =>
    ⟨fun hidle => absurd (Option.isNone_iff_eq_none.1 hidle) h.busy,
      fun _ => (wp_modify _).2 ⟨rfl, ?_⟩⟩⟩
  exact (h.mono fun x hx => List.mem_cons_of_mem b hx).logged List.mem_cons_self

/-- Logging a sector that is accounted for already. -/
theorem logWrite_within {S : List Nat} {k : State} (h : Room S k) (hS : S.length ≤ 8) {b : Nat}
    (hb : b ∈ S) :
    wp (logWrite b) (fun _ k' => k' = k.logged b ∧ Room S k') NotLog k := by
  refine wp_imp (logWrite_room h hS b) ?_
  rintro _ k' ⟨rfl, -⟩
  exact ⟨rfl, h.logged hb⟩

/-! ## Allocating -/

/-- `balloc` logs the bitmap block and the block it returns. -/
theorem balloc_room {S : List Nat} {k : State} (h : Room S k) (hS : S.length ≤ 7)
    (hbit : k.bitBlock ∈ S) :
    wp balloc (fun b k' => b ≠ 0 ∧ Fresh k b k' ∧ Room (b :: S) k') NotLog k := by
  have hroom : wp balloc (fun b k' => b ≠ 0 ∧ Room (b :: S) k') NotLog k := by
    unfold balloc
    rw [wp_bind, wp_get, wp_bind, wp_modify]
    cases hfree : firstFree k.bitmap k.sb.size 0 with
    | none => exact (wp_stop _).2 (notLog_panic rfl (Nat.le_trans h.length_le hS))
    | some b =>
        obtain ⟨-, hlt, hclear, -⟩ := firstFree_some hfree
        have hb0 : b ≠ 0 := by
          rintro rfl
          rw [h.geometry.zero] at hclear
          cases hclear
        have hlt' : b < k.sb.size := by omega
        simp only [bzero, wp_bind, wp_modify, wp_pure]
        rw [bblock_eq h.geometry hlt']
        obtain ⟨k₁, hk₁⟩ : ∃ k₁ : State, k₁ = { k with
            starved := k.starved || k.dataFull
            bitmap := Function.update k.bitmap b true
            allocs := k.allocs ++ [b] } := ⟨_, rfl⟩
        have hroom₁ : Room S k₁ := by
          rw [hk₁]
          refine ⟨⟨h.geometry.log, h.geometry.bits, ?_, h.geometry.nodup⟩, h.busy, h.within⟩
          show Function.update k.bitmap b true 0 = true
          rw [Function.update_of_ne (Ne.symm hb0)]
          exact h.geometry.zero
        have hlog := logWrite_within hroom₁ (Nat.le_succ_of_le hS) hbit
        rw [hk₁] at hlog
        refine wp_imp hlog ?_
        rintro _ k₂ ⟨-, hroom₂⟩
        have hzeroed : Room S (k₂.setData b Block.zero) := hroom₂.same rfl rfl rfl
        refine wp_imp (logWrite_room hzeroed (Nat.le_succ_of_le hS) b) ?_
        rintro _ k₃ ⟨-, hroom₃⟩
        exact ⟨hb0, hroom₃⟩
  refine wp_mono (wp_and hroom (balloc_spec k)) ?_ fun _ _ he => he.1
  rintro b k' ⟨⟨hb0, hr⟩, hf⟩
  exact ⟨hb0, hf, hr⟩

/-- How a mapping function may change the cached inodes: it fills empty addresses
of inode `ip`. -/
structure Fills (ip : Nat) (k k' : State) : Prop where
  frame : Frame k k'
  others : ∀ j, j ≠ ip → k'.icopy j = k.icopy j
  fields : ∃ a, k'.icopy ip = { k.icopy ip with addrs := a }
  keep : ∀ s, (k.icopy ip).addrs s ≠ 0 → (k'.icopy ip).addrs s = (k.icopy ip).addrs s

theorem Fills.rfl (ip : Nat) (k : State) : Fills ip k k :=
  ⟨Frame.rfl k, fun _ _ => Eq.refl _, ⟨(k.icopy ip).addrs, Eq.refl _⟩, fun _ _ => Eq.refl _⟩

theorem Fills.trans {ip : Nat} {k k' k'' : State} (h : Fills ip k k') (h' : Fills ip k' k'') :
    Fills ip k k'' := by
  refine ⟨h.frame.trans h'.frame, fun j hj => (h'.others j hj).trans (h.others j hj), ?_, ?_⟩
  · obtain ⟨a, ha⟩ := h.fields
    obtain ⟨a', ha'⟩ := h'.fields
    exact ⟨a', by rw [ha', ha]⟩
  · intro s hs
    have hs' := h.keep s hs
    rw [h'.keep s (by rw [hs']; exact hs), hs']

theorem Fills.of_icopy {ip : Nat} {k k' : State} (hf : Frame k k') (h : k'.icopy = k.icopy) :
    Fills ip k k' :=
  ⟨hf, fun j _ => by rw [h], ⟨(k.icopy ip).addrs, by rw [h]⟩, fun s _ => by rw [h]⟩

/-- `bmapDirect` logs the block it returns. -/
theorem bmapDirect_room {S : List Nat} {k : State} (h : Room S k) (hS : S.length ≤ 7)
    (hbit : k.bitBlock ∈ S) (ip s : Nat) :
    wp (bmapDirect ip s)
      (fun b k' => b ≠ 0 ∧ (k'.icopy ip).addrs s = b ∧ Fills ip k k' ∧
        (∀ t, t ≠ s → (k'.icopy ip).addrs t = (k.icopy ip).addrs t) ∧
        (((k.icopy ip).addrs s = 0 ∧ Room (b :: S) k') ∨ ((k.icopy ip).addrs s = b ∧ k' = k)))
      NotLog k := by
  unfold bmapDirect
  rw [wp_bind, wp_get, wp_ite]
  constructor
  · intro hempty
    rw [wp_bind]
    refine wp_imp (balloc_room h hS hbit) ?_
    rintro b k₁ ⟨hb, hfresh, hroom⟩
    rw [setAddr, wp_bind, wp_modify, wp_pure]
    have hcopy : k₁.icopy ip = k.icopy ip := by rw [hfresh.icopy]
    refine ⟨hb, ?_, ?_, fun t ht => ?_, .inl ⟨hempty, hroom.same rfl rfl rfl⟩⟩
    · rw [State.setCopy_self]
      exact Function.update_self _ _ _
    · refine ⟨hfresh.frame.trans (frame_setCopy k₁ ip _), fun j hj => ?_, ?_, fun t ht => ?_⟩
      · rw [State.setCopy_of_ne _ _ hj, hfresh.icopy]
      · rw [State.setCopy_self, hcopy]
        exact ⟨_, rfl⟩
      · rw [State.setCopy_self]
        have hts : t ≠ s := fun heq => ht (heq ▸ hempty)
        show Function.update (k₁.icopy ip).addrs s b t = _
        rw [Function.update_of_ne hts, hcopy]
    · rw [State.setCopy_self]
      show Function.update (k₁.icopy ip).addrs s b t = _
      rw [Function.update_of_ne ht, hcopy]
  · intro hfull
    rw [wp_pure]
    exact ⟨hfull, rfl, .rfl ip k, fun _ _ => rfl, .inr ⟨rfl, rfl⟩⟩

/-- An entry of the indirect block: the block returned is logged, and the
indirect block once more. -/
theorem bmapEntry_room {S : List Nat} {k : State} (h : Room S k) (hS : S.length ≤ 7)
    (hbit : k.bitBlock ∈ S) {ind : Nat} (hind : ind ∈ S) (j : Nat) :
    wp (bmapEntry ind j)
      (fun b k' => Frame k k' ∧ k'.icopy = k.icopy ∧ Room (b :: S) k') NotLog k := by
  unfold bmapEntry
  rw [wp_bind, wp_get, wp_ite]
  constructor
  · intro _
    rw [wp_bind]
    refine wp_imp (balloc_room h (by omega) hbit) ?_
    rintro b k₁ ⟨-, hfresh, hroom⟩
    rw [wp_bind, wp_modify, wp_bind]
    have hset : Room (b :: S) (k₁.setData ind ((k₁.data ind).setWord j b)) :=
      hroom.same rfl rfl rfl
    refine wp_imp (logWrite_within hset (by simp only [List.length_cons]; omega)
      (List.mem_cons_of_mem b hind)) ?_
    rintro _ k₂ ⟨rfl, hroom₂⟩
    rw [wp_pure]
    refine ⟨(hfresh.frame.trans (frame_setData k₁ ind _)).trans (frame_logged _ _), ?_, hroom₂⟩
    exact hfresh.icopy
  · intro _
    rw [wp_pure]
    exact ⟨Frame.rfl k, rfl, h.mono fun x hx => List.mem_cons_of_mem _ hx⟩

/-- The indirect block of an inode, if it has one. -/
def State.indirectOf (k : State) (ip : Nat) : List Nat :=
  if (k.icopy ip).addrs NDIRECT = 0 then [] else [(k.icopy ip).addrs NDIRECT]

theorem length_indirectOf (k : State) (ip : Nat) : (k.indirectOf ip).length ≤ 1 := by
  unfold State.indirectOf
  split <;> simp

/-- `bmap` logs the block it returns and the inode's indirect block. -/
theorem bmap_room {S : List Nat} {k : State} {ip : Nat} (h : Room (k.indirectOf ip ++ S) k)
    (hS : S.length ≤ 6) (hbit : k.bitBlock ∈ S) (bn : Nat) :
    wp (bmap ip bn)
      (fun b k' => Fills ip k k' ∧ Room (b :: (k'.indirectOf ip ++ S)) k') NotLog k := by
  have hlen := length_indirectOf k ip
  have hlen' : (k.indirectOf ip ++ S).length ≤ 7 := by
    rw [List.length_append]
    omega
  have hbit' : k.bitBlock ∈ k.indirectOf ip ++ S := List.mem_append_right _ hbit
  unfold bmap
  rw [wp_ite]
  constructor
  · intro hbn
    refine wp_imp (bmapDirect_room h hlen' hbit' ip bn) ?_
    rintro b k' ⟨-, -, hfills, hsame, hcase⟩
    have hind : k'.indirectOf ip = k.indirectOf ip := by
      unfold State.indirectOf
      rw [hsame NDIRECT (by omega)]
    rw [hind]
    rcases hcase with ⟨-, hroom⟩ | ⟨-, rfl⟩
    · exact ⟨hfills, hroom⟩
    · exact ⟨hfills, h.mono fun x hx => List.mem_cons_of_mem _ hx⟩
  · intro _
    rw [wp_ite]
    refine ⟨fun _ => ?_, fun _ => (wp_stop _).2 (notLog_panic rfl (Nat.le_trans h.length_le hlen'))⟩
    rw [wp_bind]
    refine wp_imp (bmapDirect_room h hlen' hbit' ip NDIRECT) ?_
    rintro ind k₁ ⟨hne, haddr, hfills, -, hcase⟩
    have hind : k₁.indirectOf ip = [ind] := by
      unfold State.indirectOf
      rw [haddr, if_neg hne]
    have hroom₁ : Room (ind :: S) k₁ := by
      rcases hcase with ⟨hempty, hroom⟩ | ⟨-, rfl⟩
      · have hnil : k.indirectOf ip = [] := if_pos hempty
        rwa [hnil] at hroom
      · rwa [hind] at h
    have hbit₁ : k₁.bitBlock ∈ ind :: S := by
      rw [State.bitBlock, hfills.frame.sb]
      exact List.mem_cons_of_mem _ hbit
    refine wp_imp (bmapEntry_room hroom₁ (by simp only [List.length_cons]; omega) hbit₁
      List.mem_cons_self (bn - NDIRECT)) ?_
    rintro b k' ⟨hframe, hcopy, hroom⟩
    have hind' : k'.indirectOf ip = [ind] := by
      unfold State.indirectOf
      rw [hcopy, haddr, if_neg hne]
    rw [hind']
    exact ⟨hfills.trans (.of_icopy hframe hcopy), hroom⟩

/-! ## Writing -/

/-- How many blocks the bytes from `off` to `off + n` touch. -/
def blocksOf (off n : Nat) : Nat := if n = 0 then 0 else (off % BSIZE + n - 1) / BSIZE + 1

/-- One round of `writei`'s loop deals with one of them. -/
theorem blocksOf_round {off n m : Nat} (hn : n ≠ 0) (hm : m = min n (BSIZE - off % BSIZE)) :
    blocksOf (off + m) (n - m) + 1 ≤ blocksOf off n := by
  unfold blocksOf
  rw [if_neg hn]
  simp only [BSIZE] at *
  split
  · omega
  · have hfull : m = 1024 - off % 1024 := by omega
    have halign : (off + m) % 1024 = 0 := by omega
    rw [halign]
    omega

/-- The loop of `writei` logs the blocks it writes and the indirect block. -/
theorem writeLoop_room {ip : Nat} (fuel : Nat) :
    ∀ {src : Nat → UInt8} {off n : Nat} {S : List Nat} {k : State},
      Room (k.indirectOf ip ++ S) k → k.bitBlock ∈ S → S.length + blocksOf off n ≤ 7 →
      wp (writeLoop ip fuel src off n)
        (fun _ k' => Fills ip k k' ∧ ∃ S', (∀ x, x ∈ S → x ∈ S') ∧
          S'.length ≤ S.length + blocksOf off n ∧ Room (k'.indirectOf ip ++ S') k') NotLog k := by
  induction fuel with
  | zero =>
      intro src off n S k h _ _
      exact (wp_pure _).2 ⟨.rfl ip k, S, fun _ hx => hx, by omega, h⟩
  | succ fuel ih =>
      intro src off n S k h hbit hlen
      rw [writeLoop, wp_ite]
      refine ⟨fun _ => (wp_pure _).2 ⟨.rfl ip k, S, fun _ hx => hx, by omega, h⟩, fun hn => ?_⟩
      obtain ⟨m, hm⟩ : ∃ m, m = min n (BSIZE - off % BSIZE) := ⟨_, rfl⟩
      have hround := blocksOf_round hn hm
      rw [← hm, wp_bind]
      refine wp_imp (bmap_room h (by omega) hbit _) ?_
      rintro b k₁ ⟨hfills₁, hroom₁⟩
      have hind := length_indirectOf k₁ ip
      rw [wp_bind, wp_modify, wp_bind]
      have hset : Room (b :: (k₁.indirectOf ip ++ S))
          (k₁.setData b ((k₁.data b).copyIn (off % BSIZE) m src)) := hroom₁.same rfl rfl rfl
      refine wp_imp (logWrite_within hset
        (by simp only [List.length_cons, List.length_append]; omega) List.mem_cons_self) ?_
      rintro _ k₂ ⟨hk₂, hroom₂⟩
      have hcopy : k₂.icopy = k₁.icopy := by
        rw [hk₂]
        rfl
      have hframe : Frame k₁ k₂ := by
        rw [hk₂]
        exact (frame_setData k₁ b _).trans (frame_logged _ _)
      have hfills₂ : Fills ip k k₂ := hfills₁.trans (.of_icopy hframe hcopy)
      have hroom : Room (k₂.indirectOf ip ++ b :: S) k₂ := by
        have hsame : k₂.indirectOf ip = k₁.indirectOf ip := by
          unfold State.indirectOf
          rw [hcopy]
        rw [hsame]
        refine hroom₂.mono fun x hx => ?_
        simp only [List.mem_cons, List.mem_append] at hx ⊢
        tauto
      have hbit₂ : k₂.bitBlock ∈ b :: S := by
        rw [State.bitBlock, hfills₂.frame.sb]
        exact List.mem_cons_of_mem b hbit
      refine wp_imp (ih hroom hbit₂ (by simp only [List.length_cons]; omega)) ?_
      rintro _ k' ⟨hfills, S', hsub, hlen', hroom'⟩
      refine ⟨hfills₂.trans hfills, S', fun x hx => hsub x (List.mem_cons_of_mem b hx), ?_, hroom'⟩
      simp only [List.length_cons] at hlen'
      omega

/-- `writei` logs the blocks it writes, the indirect block, the bitmap block and
the block of the inode. -/
theorem writei_room {ip : Nat} {src : Nat → UInt8} {off n : Nat} {S : List Nat} {k : State}
    (h : Room (k.indirectOf ip ++ S) k) (hbit : k.bitBlock ∈ S) (hinode : iblock ip ∈ S)
    (hlen : S.length + blocksOf off n ≤ 7) :
    wp (writei ip src off n)
      (fun _ k' => ∃ S', (∀ x, x ∈ S → x ∈ S') ∧
          S'.length ≤ S.length + blocksOf off n ∧ Room (k'.indirectOf ip ++ S') k') NotLog k := by
  have hsame : ∀ r : Int, wp (pure r : K Int)
      (fun _ k' => ∃ S', (∀ x, x ∈ S → x ∈ S') ∧
        S'.length ≤ S.length + blocksOf off n ∧ Room (k'.indirectOf ip ++ S') k') NotLog k :=
    fun r => (wp_pure r).2 ⟨S, fun _ hx => hx, by omega, h⟩
  unfold writei
  rw [wp_bind, wp_get, wp_ite]
  refine ⟨fun _ => ?_, fun _ => ?_⟩
  · rw [wp_ite]
    refine ⟨fun _ => hsame _, fun _ => ?_⟩
    split
    · exact hsame _
    · rw [wp_bind, wp_modify, wp_pure]
      exact ⟨S, fun _ hx => hx, by omega, h.same rfl rfl rfl⟩
  · rw [wp_ite, wp_ite]
    refine ⟨fun _ => hsame _, fun _ => ⟨fun _ => hsame _, fun _ => ?_⟩⟩
    rw [wp_bind]
    refine wp_imp (writeLoop_room n h hbit hlen) ?_
    rintro _ k₁ ⟨-, S', hsub, hlen', hroom⟩
    have hind := length_indirectOf k₁ ip
    unfold growSize
    rw [wp_bind, wp_bind, wp_get, wp_ite]
    refine ⟨fun _ => ?_, fun _ => (wp_pure _).2 ((wp_pure _).2 ⟨S', hsub, hlen', hroom⟩)⟩
    unfold iupdate
    rw [wp_bind, wp_modify, wp_bind, wp_modify]
    obtain ⟨k₂, hk₂⟩ : ∃ k₂ : State, k₂ = { k₁.setCopy ip { k₁.icopy ip with size := off + n } with
        dinode := Function.update k₁.dinode ip
          ((k₁.setCopy ip { k₁.icopy ip with size := off + n }).icopy ip) } := ⟨_, rfl⟩
    have hroom₂ : Room (k₁.indirectOf ip ++ S') k₂ := by
      rw [hk₂]
      exact hroom.same rfl rfl rfl
    have hlog := logWrite_within hroom₂ (by rw [List.length_append]; omega)
      (List.mem_append_right _ (hsub _ hinode))
    rw [hk₂] at hlog
    refine wp_imp hlog ?_
    rintro _ k₃ ⟨rfl, hroom₃⟩
    refine (wp_pure _).2 ⟨S', hsub, hlen', ?_⟩
    refine hroom₃.mono fun x hx => ?_
    simpa [State.indirectOf, State.setCopy, State.logged] using hx

end Xv6.Kernel
