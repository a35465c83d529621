import Xv6.Kernel.Content

/-!
# Freeing a file's blocks

`itrunc` walks the direct addresses, then the entries of the indirect block,
then the indirect block itself.  `Freed` follows the walk: after slots `P` of
inode `ip` have been freed, a bit is set exactly if it was before and no freed
slot held that block.  Ownership makes each `bfree` find its bit set.
-/

namespace Xv6.Kernel

open Xv6.Verified
open Xv6.Verified.Ownership
open Exec

/-! ## The walk -/

/-- The state part-way through `itrunc`, once the slots in `P` have been freed. -/
structure Freed (P : Nat → Prop) (ip : Nat) (k s : State) : Prop where
  frame : Frame k s
  bits : ∀ b, s.bitmap b = true ↔
    k.bitmap b = true ∧ ∀ t, P t → k.ref (ip, t) ≠ 0 → k.ref (ip, t) ≠ b
  data : ∀ c, c < k.log.start → s.data c = k.data c
  dinode : s.dinode = k.dinode
  others : ∀ j, j ≠ ip → s.icopy j = k.icopy j

/-- Slots that hold no block count as freed. -/
theorem Freed.mono {P P' : Nat → Prop} {ip : Nat} {k s : State} (h : Freed P ip k s)
    (hP : ∀ t, k.ref (ip, t) ≠ 0 → (P' t ↔ P t)) : Freed P' ip k s := by
  refine { h with bits := fun b => ?_ }
  rw [h.bits b]
  constructor
  · rintro ⟨hb, hne⟩
    exact ⟨hb, fun t ht h0 => hne t ((hP t h0).1 ht) h0⟩
  · rintro ⟨hb, hne⟩
    exact ⟨hb, fun t ht h0 => hne t ((hP t h0).2 ht) h0⟩

theorem Freed.setAddr {P : Nat → Prop} {ip : Nat} {k s : State} (h : Freed P ip k s)
    (d : Dinode) : Freed P ip k (s.setCopy ip d) :=
  { frame := h.frame.trans (frame_setCopy s ip d)
    bits := h.bits
    data := h.data
    dinode := h.dinode
    others := fun j hj => by rw [State.setCopy_of_ne _ _ hj, h.others j hj] }

/-- Freeing the block of one more slot. -/
theorem bfree_spec {P : Nat → Prop} {ip t : Nat} {k s : State} (ho : Owned k)
    (h : Freed P ip k s) (ht : ¬P t) (h0 : k.ref (ip, t) ≠ 0) :
    wp (bfree (k.ref (ip, t)))
      (fun _ s' => Freed (fun u => P u ∨ u = t) ip k s' ∧ s'.icopy = s.icopy)
      (fun e _ => LogStop e) s := by
  have hset : s.bitmap (k.ref (ip, t)) = true := by
    rw [h.bits]
    refine ⟨ho.excl.held _ h0, fun u hu hu0 heq => ?_⟩
    exact ht ((ho.inj hu0 heq).2 ▸ hu)
  unfold bfree
  rw [wp_bind, wp_get, wp_ite]
  refine ⟨fun hclear => by simp [hset] at hclear, fun _ => ?_⟩
  rw [wp_bind, wp_modify]
  refine wp_mono (logWrite_spec _ _) ?_ fun _ _ he => he.1
  rintro _ s' rfl
  refine ⟨?_, rfl⟩
  refine
    { frame := (h.frame.trans ?_).trans (frame_logged _ _)
      bits := fun b => ?_
      data := fun c hc => ?_
      dinode := h.dinode
      others := h.others }
  · exact { Frame.rfl s with allocs := ⟨[], by simp⟩ }
  · simp only [State.logged]
    by_cases hb : b = k.ref (ip, t)
    · rw [hb, Function.update_self]
      refine ⟨fun hf => absurd hf (by decide), fun hall => ?_⟩
      exact absurd rfl (hall.2 t (.inr rfl) h0)
    · rw [Function.update_of_ne hb, h.bits]
      refine and_congr_right fun _ => ⟨fun hall u hu hu0 => ?_, fun hall u hu => hall u (.inl hu)⟩
      rcases hu with hu | rfl
      · exact hall u hu hu0
      · exact Ne.symm hb
  · rw [data_logged _ _ (by simpa [h.frame.start] using hc)]
    exact h.data c hc

/-- The direct addresses after the first `i` were cleared. -/
def clearDirect (d : Dinode) (i : Nat) : Dinode :=
  { d with addrs := fun t => if t < i then 0 else d.addrs t }

theorem clearDirect_succ (d : Dinode) (i : Nat) :
    { clearDirect d i with addrs := Function.update (clearDirect d i).addrs i 0 } =
      clearDirect d (i + 1) := by
  simp only [clearDirect, Dinode.mk.injEq, true_and]
  funext t
  by_cases ht : t = i
  · simp [ht]
  · rw [Function.update_of_ne ht]
    have : t < i + 1 ↔ t < i := by omega
    simp [this]

theorem clearDirect_of_zero {d : Dinode} {i : Nat} (h : d.addrs i = 0) :
    clearDirect d (i + 1) = clearDirect d i := by
  simp only [clearDirect, Dinode.mk.injEq, true_and]
  funext t
  by_cases ht : t = i
  · simp [ht, h]
  · have : t < i + 1 ↔ t < i := by omega
    simp [this]

theorem truncDirect_spec {k : State} {ip : Nat} (ho : Owned k)
    (hv : (k.icache ip).valid = true) :
    wp (truncDirect ip)
      (fun _ s => Freed (fun t => t < NDIRECT) ip k s ∧
        s.icopy ip = clearDirect (k.icopy ip) NDIRECT)
      (fun e _ => LogStop e) k := by
  have hslots := slot_counts
  have hino : k.ino ip = k.icopy ip := by simp [State.ino, hv]
  refine wp_loopTo (I := fun i s => Freed (fun t => t < i) ip k s ∧
    s.icopy ip = clearDirect (k.icopy ip) i) NDIRECT ?_ ?_
  · refine ⟨⟨Frame.rfl k, fun b => ?_, fun _ _ => rfl, rfl, fun _ _ => rfl⟩, ?_⟩
    · simp
    · simp [clearDirect]
  rintro i s hi ⟨hf, hcopy⟩
  have haddr : (s.icopy ip).addrs i = k.ref (ip, i) := by
    rw [hcopy, ref_of_le k (by omega), hino]
    simp [clearDirect]
  rw [wp_bind, wp_get, wp_ite, haddr]
  constructor
  · intro h0
    rw [wp_pure]
    refine ⟨hf.mono fun t ht => ?_, ?_⟩
    · have hne : t ≠ i := fun heq => ht (heq ▸ h0)
      omega
    · rw [clearDirect_of_zero, hcopy]
      rwa [ref_of_le k (by omega), hino] at h0
  · intro h0
    rw [wp_bind]
    refine wp_imp (bfree_spec ho hf (Nat.lt_irrefl i) h0) ?_
    rintro _ s₁ ⟨hf₁, hsame⟩
    simp only [setAddr, wp_modify]
    refine ⟨(hf₁.setAddr _).mono fun t _ => ?_, ?_⟩
    · omega
    · rw [State.setCopy_self, hsame, hcopy, clearDirect_succ]

theorem truncEntries_spec {k s : State} {ip : Nat} (ho : Owned k)
    (hind : k.ref (ip, NDIRECT) ≠ 0) (h : Freed (fun t => t < NDIRECT) ip k s) :
    wp (truncEntries (k.data (k.ref (ip, NDIRECT))))
      (fun _ s' => Freed (fun t => t ≠ NDIRECT) ip k s' ∧ s'.icopy = s.icopy)
      (fun e _ => LogStop e) s := by
  have hslots := slot_counts
  have hentry : ∀ j, j < NINDIRECT →
      (k.data (k.ref (ip, NDIRECT))).word j = k.ref (ip, 13 + j) := by
    intro j hj
    rw [ref_of_gt k (s := 13 + j) (by omega) (by omega) hind, show 13 + j - 13 = j by omega]
  have hloop := wp_loopTo (s := s) (E := fun e _ => LogStop e)
    (f := fun j => if (k.data (k.ref (ip, NDIRECT))).word j = 0 then pure ()
      else bfree ((k.data (k.ref (ip, NDIRECT))).word j))
    (I := fun j s' => Freed (fun t => t < NDIRECT ∨ (13 ≤ t ∧ t < 13 + j)) ip k s' ∧
      s'.icopy = s.icopy) NINDIRECT ⟨h.mono fun t _ => by omega, rfl⟩ ?_
  · refine wp_imp hloop ?_
    rintro _ s' ⟨hf, hcopy⟩
    refine ⟨hf.mono fun t ht => ?_, hcopy⟩
    have hlt : t < NSLOT := by
      by_contra hge
      exact ht (by simp only [State.ref, slotAddr]; rw [if_neg (by omega), if_neg (by omega)])
    omega
  rintro j s' hj ⟨hf, hcopy⟩
  rw [hentry j hj, wp_ite]
  constructor
  · intro h0
    rw [wp_pure]
    refine ⟨hf.mono fun t ht => ?_, hcopy⟩
    have hne : t ≠ 13 + j := fun heq => ht (heq ▸ h0)
    omega
  · intro h0
    refine wp_imp (bfree_spec ho hf (by omega) h0) ?_
    rintro _ s₁ ⟨hf₁, hsame⟩
    exact ⟨hf₁.mono fun t _ => by omega, hsame.trans hcopy⟩

/-- `itrunc`'s two walks free every slot and leave an inode with no addresses. -/
theorem truncIndirect_spec {k s : State} {ip : Nat} (ho : Owned k)
    (hv : (k.icache ip).valid = true) (h : Freed (fun t => t < NDIRECT) ip k s)
    (hcopy : s.icopy ip = clearDirect (k.icopy ip) NDIRECT) :
    wp (truncIndirect ip)
      (fun _ s' => Freed (fun _ => True) ip k s' ∧
        s'.icopy ip = clearDirect (k.icopy ip) (NDIRECT + 1))
      (fun e _ => LogStop e) s := by
  have hslots := slot_counts
  have hino : k.ino ip = k.icopy ip := by simp [State.ino, hv]
  have haddr : (s.icopy ip).addrs NDIRECT = k.ref (ip, NDIRECT) := by
    rw [hcopy, ref_of_le k (Nat.le_refl _), hino]
    simp [clearDirect]
  unfold truncIndirect
  rw [wp_bind, wp_get, wp_ite, haddr]
  constructor
  · intro h0
    rw [wp_pure]
    refine ⟨h.mono fun t ht => ?_, ?_⟩
    · have hlt : t < NDIRECT := by
        by_contra hge
        exact ht (ref_of_no_indirect k (by omega) h0)
      simp [hlt]
    · rw [clearDirect_of_zero, hcopy]
      rwa [ref_of_le k (Nat.le_refl _), hino] at h0
  · intro h0
    rw [h.data _ (ho.ref_lt h0), wp_bind]
    refine wp_imp (truncEntries_spec ho h0 h) ?_
    rintro _ s₁ ⟨hf₁, hsame₁⟩
    rw [wp_bind]
    refine wp_imp (bfree_spec ho hf₁ (fun hne => hne rfl) h0) ?_
    rintro _ s₂ ⟨hf₂, hsame₂⟩
    simp only [setAddr, wp_modify]
    refine ⟨(hf₂.setAddr _).mono fun t _ => ?_, ?_⟩
    · have := eq_or_ne t NDIRECT
      tauto
    · rw [State.setCopy_self, hsame₂, hsame₁, hcopy, clearDirect_succ]

end Xv6.Kernel
