import Xv6.Kernel.Trunc

/-!
# Well-formed file systems

`Wf` is what holds whenever no function of the inode layer is in the middle of
its work: blocks are owned, a cached inode agrees with the disk, and a file or
directory has all blocks its size needs.  `State.node` is the inode as a user of
the layer sees it: the fields and the bytes, no blocks.

Each function has one lemma that says it keeps `Wf` and what it does to `node`.
-/

namespace Xv6.Kernel

open Xv6.Verified
open Xv6.Verified.Ownership
open Exec

/-- A file or a directory: an inode whose contents are blocks. -/
def InodeType.HasData (t : InodeType) : Prop := t = .file ∨ t = .dir

instance (t : InodeType) : Decidable t.HasData := by
  unfold InodeType.HasData
  infer_instance

/-- The invariant of the inode layer. -/
structure Wf (k : State) : Prop where
  owned : Owned k
  coherent : ∀ i, (k.icache i).valid = true → k.icopy i = k.dinode i
  live : ∀ i, (k.icache i).valid = true → (k.dinode i).type ≠ .free
  fits : ∀ i, (k.dinode i).type.HasData → (k.dinode i).size ≤ MAXFILE * BSIZE
  mapped : ∀ i, (k.dinode i).type.HasData → k.Mapped i 0 (k.dinode i).size

/-- An inode without its blocks: fields, size and bytes. -/
@[ext] structure Node where
  type : InodeType
  major : Int
  minor : Int
  nlink : Int
  size : Nat
  byte : Nat → UInt8

/-- The inode on disk, seen through its blocks. -/
def State.node (k : State) (i : Nat) : Node :=
  { type := (k.dinode i).type
    major := (k.dinode i).major
    minor := (k.dinode i).minor
    nlink := (k.dinode i).nlink
    size := (k.dinode i).size
    byte := k.byteAt i }

theorem Wf.ino {k : State} (h : Wf k) (i : Nat) : k.ino i = k.dinode i := by
  unfold State.ino
  split
  · rename_i hv
    exact h.coherent i hv
  · rfl

/-! ## The disk alone decides -/

/-- The file-system part of the disk is the same. -/
structure DiskSame (k k' : State) : Prop where
  sb : k'.sb = k.sb
  start : k'.log.start = k.log.start
  size : k'.log.size = k.log.size
  dinode : k'.dinode = k.dinode
  bitmap : k'.bitmap = k.bitmap
  data : ∀ b, b < k.log.start → k'.data b = k.data b

theorem DiskSame.rfl (k : State) : DiskSame k k :=
  ⟨Eq.refl _, Eq.refl _, Eq.refl _, Eq.refl _, Eq.refl _, fun _ _ => Eq.refl _⟩

theorem DiskSame.setEntry (k : State) (i : Nat) (e : CacheEntry) :
    DiskSame k (k.setEntry i e) :=
  ⟨Eq.refl _, Eq.refl _, Eq.refl _, Eq.refl _, Eq.refl _, fun _ _ => Eq.refl _⟩

/-- Caching other inodes, or other versions of none, keeps `Wf`. -/
theorem Wf.of_disk {k k' : State} (h : Wf k) (hd : DiskSame k k')
    (hv : ∀ i, (k'.icache i).valid = true →
      k'.icopy i = k'.dinode i ∧ (k'.dinode i).type ≠ .free) :
    Wf k' ∧ k'.ref = k.ref ∧ k'.node = k.node := by
  have hino : ∀ i, k'.ino i = k.ino i := by
    intro i
    rw [h.ino, ← hd.dinode]
    unfold State.ino
    split
    · rename_i hvi
      exact (hv i hvi).1
    · rfl
  have href : k'.ref = k.ref :=
    ref_congr hino fun i hi => hd.data _ (h.owned.ref_lt hi)
  have howned : Owned k' := by
    refine ⟨by rw [href, hd.bitmap]; exact h.owned.excl, ?_, ?_, ?_, ?_⟩
    · intro x hx
      rw [href] at hx ⊢
      simpa [State.DataBlock, hd.sb, hd.start] using h.owned.region x hx
    · rw [hd.sb, hd.bitmap]
      exact h.owned.marked
    · rw [hd.start, hd.size, hd.sb]
      exact h.owned.log_end
    · rw [hd.sb]
      exact h.owned.size_le
  refine ⟨⟨howned, fun i hi => (hv i hi).1, fun i hi => (hv i hi).2, ?_, ?_⟩, href, ?_⟩
  · rw [hd.dinode]
    exact h.fits
  · rw [hd.dinode]
    simpa only [State.Mapped, href] using h.mapped
  · funext i
    simp only [State.node, hd.dinode, Node.mk.injEq, true_and]
    funext o
    simp only [State.byteAt, href]
    split
    · rfl
    · rename_i h0
      rw [hd.data _ (h.owned.ref_lt h0)]

/-- Forgetting cached inodes keeps `Wf`. -/
theorem Wf.of_same {k k' : State} (h : Wf k) (hd : DiskSame k k')
    (hv : ∀ i, (k'.icache i).valid = true →
      (k.icache i).valid = true ∧ k'.icopy i = k.icopy i) : Wf k' := by
  refine (h.of_disk hd fun i hi => ?_).1
  obtain ⟨hvi, hcopy⟩ := hv i hi
  rw [hcopy, hd.dinode]
  exact ⟨h.coherent i hvi, h.live i hvi⟩

/-! ## One inode changes -/

/-- Put `Wf` together when only inode `ip` changed. -/
theorem Wf.of_others {k k' : State} (ip : Nat) (h : Wf k) (howned : Owned k')
    (hdin : ∀ i, i ≠ ip → k'.dinode i = k.dinode i)
    (hcopy : ∀ i, i ≠ ip → k'.icopy i = k.icopy i)
    (hcache : ∀ i, i ≠ ip → k'.icache i = k.icache i)
    (href : ∀ i s, i ≠ ip → k'.ref (i, s) = k.ref (i, s))
    (hip : (k'.icache ip).valid = true →
      k'.icopy ip = k'.dinode ip ∧ (k'.dinode ip).type ≠ .free)
    (hdata : (k'.dinode ip).type.HasData → (k'.dinode ip).size ≤ MAXFILE * BSIZE ∧
      k'.Mapped ip 0 (k'.dinode ip).size) : Wf k' := by
  have hvalid : ∀ i, (k'.icache i).valid = true →
      k'.icopy i = k'.dinode i ∧ (k'.dinode i).type ≠ .free := by
    intro i hv
    by_cases hi : i = ip
    · exact hi ▸ hip (hi ▸ hv)
    · rw [hcache i hi] at hv
      rw [hcopy i hi, hdin i hi]
      exact ⟨h.coherent i hv, h.live i hv⟩
  refine ⟨howned, fun i hv => (hvalid i hv).1, fun i hv => (hvalid i hv).2, ?_, ?_⟩
  · intro i ht
    by_cases hi : i = ip
    · exact hi ▸ (hdata (hi ▸ ht)).1
    · rw [hdin i hi] at ht ⊢
      exact h.fits i ht
  · intro i ht
    by_cases hi : i = ip
    · exact hi ▸ (hdata (hi ▸ ht)).2
    · rw [hdin i hi] at ht ⊢
      intro o hlo hhi
      rw [href i _ hi]
      exact h.mapped i ht o hlo hhi

/-- An inode none of whose blocks moved reads the same. -/
theorem node_eq {k k' : State} {i : Nat} (hdin : k'.dinode i = k.dinode i)
    (hbyte : ∀ o, k'.byteAt i o = k.byteAt i o) : k'.node i = k.node i := by
  simp only [State.node, hdin, Node.mk.injEq, true_and]
  exact funext hbyte

/-- The table after inode `ip` lost all its addresses. -/
theorem ref_drop {k k' : State} {ip : Nat} (ho : Owned k)
    (hino : ∀ i, i ≠ ip → k'.ino i = k.ino i)
    (hip : ∀ s, s ≤ NDIRECT → (k'.ino ip).addrs s = 0)
    (hdata : ∀ b, b < k.log.start → k'.data b = k.data b) :
    (∀ s, k'.ref (ip, s) = 0) ∧ ∀ i s, i ≠ ip → k'.ref (i, s) = k.ref (i, s) := by
  constructor
  · intro s
    rcases Nat.lt_or_ge s NDIRECT with hs | hs
    · rw [ref_of_le _ (Nat.le_of_lt hs), hip s (Nat.le_of_lt hs)]
    · refine ref_of_no_indirect _ hs ?_
      rw [ref_of_le _ (Nat.le_refl _), hip _ (Nat.le_refl _)]
  · intro i s hi
    simp only [State.ref, slotAddr, hino i hi]
    by_cases h0 : (k.ino i).addrs NDIRECT = 0
    · simp [h0]
    · have hlt : (k.ino i).addrs NDIRECT < k.log.start := by
        have := ho.ref_lt (x := (i, NDIRECT))
        rw [ref_of_le _ (Nat.le_refl _)] at this
        exact this h0
      rw [hdata _ hlt]

/-- Ownership after inode `ip` lost all its addresses, when no bit was cleared
but those of its blocks. -/
theorem owned_drop {k k' : State} {ip : Nat} (ho : Owned k) (hsb : k'.sb = k.sb)
    (hstart : k'.log.start = k.log.start) (hsize : k'.log.size = k.log.size)
    (hip : ∀ s, k'.ref (ip, s) = 0) (hrest : ∀ i s, i ≠ ip → k'.ref (i, s) = k.ref (i, s))
    (hbits : ∀ b, k.bitmap b = true → (∀ t, k.ref (ip, t) ≠ 0 → k.ref (ip, t) ≠ b) →
      k'.bitmap b = true) : Owned k' := by
  refine ⟨ho.excl.drop ?_ ?_, ?_, ?_, ?_, ?_⟩
  · rintro ⟨i, s⟩
    by_cases hi : i = ip
    · exact .inr (hi ▸ hip s)
    · exact .inl (hrest i s hi)
  · rintro ⟨i, s⟩ hx hbit
    have hi : i ≠ ip := fun heq => hx (heq ▸ hip s)
    rw [hrest i s hi] at hx
    exact hbits _ hbit fun t _ heq => hi (ho.inj hx heq.symm).1
  · rintro ⟨i, s⟩ hx
    have hi : i ≠ ip := fun heq => hx (heq ▸ hip s)
    rw [hrest i s hi] at hx ⊢
    simpa [State.DataBlock, hsb, hstart] using ho.region (i, s) hx
  · intro b hb
    rw [hsb] at hb
    refine hbits b (ho.marked b hb) fun t h0 heq => ?_
    have := (ho.region _ h0).1
    omega
  · rw [hstart, hsize, hsb]
    exact ho.log_end
  · rw [hsb]
    exact ho.size_le

/-- The bytes of the others after inode `ip` lost all its addresses. -/
theorem byteAt_drop {k k' : State} {ip : Nat} (ho : Owned k)
    (hip : ∀ s, k'.ref (ip, s) = 0) (hrest : ∀ i s, i ≠ ip → k'.ref (i, s) = k.ref (i, s))
    (hdata : ∀ b, b < k.log.start → k'.data b = k.data b) (i o : Nat) :
    k'.byteAt i o = if i = ip then 0 else k.byteAt i o := by
  unfold State.byteAt
  by_cases hi : i = ip
  · rw [if_pos hi, hi, hip, if_pos rfl]
  · rw [if_neg hi, hrest i _ hi]
    split
    · rfl
    · rename_i h0
      rw [hdata _ (ho.ref_lt h0)]

/-! ## A small disk

Sixty blocks, fifteen inodes, an empty root directory, two processes in it. -/

/-- The root directory's only block: `.` and `..`. -/
def rootBlock : Block := fun o =>
  if o = 0 ∨ o = 16 then 1 else if o = 2 ∨ o = 18 ∨ o = 19 then 46 else 0

/-- The state after booting from the small disk. -/
def smallDisk : State where
  sb := ⟨60, 46, 15, 10⟩
  dinode i :=
    if i = 1 then ⟨.dir, 0, 0, 1, 32, fun s => if s = 0 then 4 else 0⟩ else Dinode.zero
  bitmap b := decide (b < 5)
  data b := if b = 4 then rootBlock else Block.zero
  icopy _ := Dinode.zero
  icache i := if i = 1 then ⟨2, none, false⟩ else ⟨0, none, false⟩
  log := ⟨50, 10, none, []⟩
  ftable _ := ⟨.none, 0, false, false, 0, 0⟩
  ptable p :=
    if p < 2 then ⟨.live, some 1, fun _ => none⟩ else ⟨.unused, none, fun _ => none⟩
  cur := 0
  devsw _ := ⟨none, none⟩
  devCalls := 0
  allocs := []
  starved := false
  foreign := false

theorem smallDisk_dinode {i : Nat} (h : i ≠ 1) : smallDisk.dinode i = Dinode.zero := if_neg h

theorem smallDisk_ref (x : Nat × Nat) : smallDisk.ref x = if x = (1, 0) then 4 else 0 := by
  obtain ⟨i, s⟩ := x
  have hino : smallDisk.ino i = smallDisk.dinode i := by
    unfold State.ino smallDisk
    by_cases hi : i = 1 <;> simp [hi]
  simp only [State.ref, slotAddr, hino]
  by_cases hi : i = 1
  · subst hi
    simp [smallDisk]
    omega
  · rw [smallDisk_dinode hi]
    simp [Dinode.zero, hi]

theorem smallDisk_wf : Wf smallDisk := by
  have hinvalid : ∀ i, (smallDisk.icache i).valid = false := by
    intro i
    unfold smallDisk
    by_cases hi : i = 1 <;> simp [hi]
  have hnodata : ∀ i, (smallDisk.dinode i).type.HasData → i = 1 := by
    intro i ht
    by_contra hi
    rw [smallDisk_dinode hi] at ht
    rcases ht with ht | ht <;> cases ht
  refine ⟨⟨⟨?_, ?_⟩, ?_, ?_, rfl, by decide⟩, ?_, ?_, ?_, ?_⟩
  · intro x y hx hxy
    rw [smallDisk_ref] at hx
    rw [smallDisk_ref, smallDisk_ref] at hxy
    by_cases h1 : x = (1, 0)
    · by_cases h2 : y = (1, 0)
      · rw [h1, h2]
      · simp [h1, h2] at hxy
    · simp [h1] at hx
  · intro x hx
    rw [smallDisk_ref] at hx ⊢
    split
    · decide
    · rename_i h1
      simp [h1] at hx
  · intro x hx
    rw [smallDisk_ref] at hx ⊢
    split
    · decide
    · rename_i h1
      simp [h1] at hx
  · intro b hb
    have hstart : smallDisk.sb.dataStart = 4 := by decide
    rw [hstart] at hb
    exact decide_eq_true (by omega)
  · intro i hv
    rw [hinvalid] at hv
    cases hv
  · intro i hv
    rw [hinvalid] at hv
    cases hv
  · intro i ht
    rw [hnodata i ht]
    decide
  · intro i ht o _ ho
    obtain rfl := hnodata i ht
    have hsize : o < 32 := by simpa [smallDisk] using ho
    have hbn : o / BSIZE = 0 := Nat.div_eq_of_lt (by simp only [BSIZE]; omega)
    rw [hbn, smallDisk_ref]
    decide

end Xv6.Kernel
