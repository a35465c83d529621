import Xv6.Kernel.LogCrash
import Xv6.Kernel.Threads

/-!
# What a commit writes

`log_write` copies a block into the log when it is called.  What the kernel stores into the block
afterwards is not in that copy, and a block that is changed without a call of `log_write` is not in
the log at all.  `InLog` says that neither happens: if the disk holds `home` below the log, then a
commit would turn each of these blocks into what the buffer cache shows, but for blocks that are
`dirty`.  Each function of the block and inode layers makes one block dirty at a time and logs it
before it goes on, so that between two acts none is.
-/

namespace Xv6.Kernel

open Xv6.Verified
open Exec

/-- Two blocks with the same bytes. -/
def Block.Same (b c : Block) : Prop := ∀ o, o < BSIZE → b o = c o

theorem Block.Same.rfl {b : Block} : b.Same b := fun _ _ => Eq.refl _

theorem Block.Same.trans {b c d : Block} (h : b.Same c) (h' : c.Same d) : b.Same d :=
  fun o ho => (h o ho).trans (h' o ho)

/-- What block `x` of the disk holds after a commit, if it holds `home x` before. -/
def State.installed (k : State) (home : Nat → Block) (x : Nat) : Block :=
  if x ∈ k.log.lh then k.data (k.log.start + k.log.slot x + 1) else home x

/-- A commit writes what the buffer cache shows, but for the blocks in `dirty`.  The first two
blocks are never logged, nothing is logged without a transaction, and no inode has a number that the
disk has no room for. -/
structure InLog (home : Nat → Block) (dirty : Nat → Prop) (k : State) : Prop where
  agree : ∀ x, x < k.log.start → ¬dirty x → (k.installed home x).Same (k.image x)
  below : ∀ x ∈ k.log.lh, 2 ≤ x ∧ x < k.log.start
  nodup : k.log.lh.Nodup
  room : k.log.lh.length ≤ LOGSIZE ∧ (k.log.lh ≠ [] → k.log.lh.length + 1 ≤ k.log.size)
  head : headCount (k.data k.log.start) = 0
  idle : k.log.busy = none → k.log.lh = []
  layout : k.sb.dataStart ≤ k.log.start
  spare : ∀ i, k.sb.ninodes ≤ i → k.dinode i = Dinode.zero

/-- No block is dirty. -/
abbrev Clean (home : Nat → Block) (k : State) : Prop := InLog home (fun _ => False) k

/-! ## Where blocks are -/

section Places

variable {sb : Superblock} {b ip : Nat}

theorem four_le_dataStart : 4 ≤ sb.dataStart := by
  rw [Superblock.dataStart]
  have hbits := Nat.le_add_left 1 (sb.size / BPB)
  have hinodes := Nat.le_add_left 3 (sb.ninodes / IPB)
  omega

theorem bblock_inside (hb : b < sb.size) :
    sb.ninodes / IPB + 3 ≤ sb.bblock b ∧ sb.bblock b < sb.dataStart := by
  have hdiv : b / BPB ≤ sb.size / BPB := Nat.div_le_div_right (by omega)
  rw [Superblock.bblock, Superblock.dataStart, Nat.add_assoc, Nat.add_comm (b / BPB)]
  exact ⟨Nat.le_add_right _ _, Nat.add_lt_add_left (Nat.lt_succ_of_le hdiv) _⟩

theorem iblock_inside (hip : ip < sb.ninodes) :
    2 ≤ iblock ip ∧ iblock ip < sb.ninodes / IPB + 3 := by
  have hdiv : ip / IPB ≤ sb.ninodes / IPB := Nat.div_le_div_right (by omega)
  rw [iblock]
  exact ⟨Nat.le_add_left _ _, Nat.add_lt_add_of_le_of_lt hdiv (by decide)⟩

theorem inodes_le_dataStart : sb.ninodes / IPB + 3 ≤ sb.dataStart := Nat.le_add_right _ _

end Places

section InLog

variable {home : Nat → Block} {D D' : Nat → Prop} {k k' : State}

/-- Blocks below the log may change if they are dirty afterwards. -/
theorem InLog.move (h : InLog home D k) (hlh : k'.log.lh = k.log.lh)
    (hstart : k'.log.start = k.log.start) (hsize : k'.log.size = k.log.size)
    (hbusy : k'.log.busy = none → k.log.busy = none) (hsb : k'.sb = k.sb)
    (hdata : ∀ x, k.log.start ≤ x → k'.data x = k.data x)
    (hspare : ∀ i, k.sb.ninodes ≤ i → k'.dinode i = k.dinode i)
    (himage : ∀ x, x < k.log.start → ¬D' x → ¬D x ∧ (k.image x).Same (k'.image x)) :
    InLog home D' k' := by
  refine ⟨fun x hx hD => ?_, ?_, ?_, ?_, ?_, fun hb => ?_, ?_, fun i hi => ?_⟩
  · rw [hstart] at hx
    obtain ⟨hD, hsame⟩ := himage x hx hD
    have hinst : k'.installed home x = k.installed home x := by
      unfold State.installed Log.slot
      rw [hlh, hstart, hdata _ (by omega)]
    rw [hinst]
    exact (h.agree x hx hD).trans hsame
  · rw [hlh, hstart]
    exact h.below
  · rw [hlh]
    exact h.nodup
  · rw [hlh, hsize]
    exact h.room
  · rw [hstart, hdata _ (Nat.le_refl _)]
    exact h.head
  · rw [hlh]
    exact h.idle (hbusy hb)
  · rw [hsb, hstart]
    exact h.layout
  · rw [hsb] at hi
    rw [hspare i hi]
    exact h.spare i hi

/-- Nothing on the disk changes. -/
theorem InLog.still (h : InLog home D k) (hlh : k'.log.lh = k.log.lh)
    (hstart : k'.log.start = k.log.start) (hsize : k'.log.size = k.log.size)
    (hbusy : k'.log.busy = none → k.log.busy = none) (hsb : k'.sb = k.sb)
    (hdinode : k'.dinode = k.dinode) (hbitmap : k'.bitmap = k.bitmap) (hdata : k'.data = k.data) :
    InLog home D k' := by
  refine h.move hlh hstart hsize hbusy hsb (fun x _ => by rw [hdata])
    (fun i _ => by rw [hdinode]) fun x _ hD => ⟨hD, ?_⟩
  have himage : k'.image x = k.image x := by
    simp only [State.image, hsb, hdinode, hbitmap, hdata]
  rw [himage]
  exact .rfl

/-! ## One block -/

theorem image_logged (k : State) (b : Nat) {x : Nat} (hx : x < k.log.start) :
    (k.logged b).image x = k.image x := by
  have hdata : (k.logged b).data x = k.data x := data_logged k b hx
  simp only [State.image, hdata]
  rfl

/-- The slot of a sector does not change when another one is logged. -/
theorem slot_record {l : Log} {b x : Nat} (hx : x ∈ l.lh) : (l.record b).slot x = l.slot x := by
  unfold Log.record Log.slot
  split
  · rfl
  · exact List.idxOf_append_of_mem hx

theorem slot_record_self (l : Log) (b : Nat) : (l.record b).slot b = l.slot b := by
  unfold Log.record Log.slot
  split
  · rfl
  · rename_i hb
    rw [List.idxOf_append_of_notMem hb, List.idxOf_eq_length hb]
    simp

theorem slot_ne {l : Log} {b x : Nat} (hx : x ∈ l.lh) (hne : x ≠ b) : l.slot x ≠ l.slot b := by
  intro heq
  exact hne ((List.idxOf_inj hx).1 heq)

/-- A dirty block that is logged is clean. -/
theorem InLog.log {b : Nat} (h : InLog home (fun x => x = b) k)
    (hb : 2 ≤ b ∧ b < k.log.start)
    (hfull : ¬k.log.Full) (hbusy : k.log.busy ≠ none) : Clean home (k.logged b) := by
  have hlen : (k.log.record b).lh.length ≤ k.log.lh.length + 1 := by
    unfold Log.record
    split
    · omega
    · simp
  simp only [Log.Full, LOGSIZE] at hfull
  refine ⟨fun x hx _ => ?_, fun x hx => ?_, Log.record_nodup b h.nodup, ?_, ?_,
    fun hb => absurd ?_ hbusy, ?_, h.spare⟩
  · have hx' : x < k.log.start := by simpa using hx
    rw [image_logged k b hx']
    by_cases hxb : x = b
    · subst hxb
      have hmem : x ∈ (k.log.record x).lh := (Log.mem_record _ _ _).2 (.inr rfl)
      have hinst : (k.logged x).installed home x = k.image x := by
        show (if x ∈ (k.log.record x).lh then _ else _) = _
        rw [if_pos hmem]
        show Function.update k.data _ _ ((k.log.record x).start + (k.log.record x).slot x + 1) = _
        rw [Log.record_start, slot_record_self, Function.update_self]
      rw [hinst]
      exact .rfl
    · have hinst : (k.logged b).installed home x = k.installed home x := by
        show (if x ∈ (k.log.record b).lh then
          Function.update k.data (k.log.start + k.log.slot b + 1) (k.image b)
            ((k.log.record b).start + (k.log.record b).slot x + 1) else home x) = _
        unfold State.installed
        by_cases hx : x ∈ k.log.lh
        · have hslot := slot_ne hx hxb
          rw [if_pos hx, if_pos ((Log.mem_record _ _ _).2 (.inl hx)), Log.record_start,
            slot_record hx, Function.update_of_ne (by omega)]
        · rw [if_neg hx, if_neg fun hmem => ((Log.mem_record _ _ _).1 hmem).elim hx hxb]
      rw [hinst]
      exact h.agree x hx' hxb
  · rcases (Log.mem_record _ _ _).1 hx with hold | rfl
    · simpa using h.below x hold
    · simpa using hb
  · show (k.log.record b).lh.length ≤ LOGSIZE ∧
      ((k.log.record b).lh ≠ [] → (k.log.record b).lh.length + 1 ≤ (k.log.record b).size)
    have hroom := h.room
    rw [Log.record_size]
    simp only [LOGSIZE] at hroom ⊢
    unfold Log.record at hlen ⊢
    split
    · exact hroom
    · simp only [List.length_append, List.length_singleton]
      omega
  · show headCount (Function.update k.data (k.log.start + k.log.slot b + 1) _
      (k.log.record b).start) = 0
    rw [Log.record_start, Function.update_of_ne (by omega)]
    exact h.head
  · exact (Log.record_busy k.log b).symm.trans hb
  · show k.sb.dataStart ≤ (k.log.record b).start
    rw [Log.record_start]
    exact h.layout

theorem logWrite_clean {b : Nat} (h : InLog home (fun x => x = b) k)
    (hb : 2 ≤ b ∧ b < k.log.start) :
    wp (logWrite b) (fun _ k' => k' = k.logged b ∧ Clean home k') (fun e _ => LogStop e) k := by
  unfold logWrite
  rw [wp_bind, wp_get, wp_ite, wp_ite]
  exact ⟨fun _ => (wp_stop _).2 (.inl rfl), fun hfull => ⟨fun _ => (wp_stop _).2 (.inr rfl),
    fun hbusy => (wp_modify _).2 ⟨rfl, h.log hb hfull fun hnone => hbusy (by rw [hnone]; rfl)⟩⟩⟩

/-- Storing into a block below the log. -/
theorem InLog.setData (h : Clean home k) {b : Nat} (hb : 2 ≤ b ∧ b < k.log.start) (c : Block) :
    InLog home (fun x => x = b) (k.setData b c) := by
  refine h.move rfl rfl rfl id rfl (fun x hx => State.setData_of_ne _ _ (by omega))
    (fun _ _ => rfl) ?_
  intro x _ hxb
  refine ⟨id, ?_⟩
  have himage : (k.setData b c).image x = k.image x := by
    simp only [State.image, State.setData_of_ne k c hxb]
    rfl
  rw [himage]
  exact .rfl

/-- Storing an inode into its block. -/
theorem InLog.setDinode (h : Clean home k) {ip : Nat} (hip : ip < k.sb.ninodes) (d : Dinode) :
    InLog home (fun x => x = iblock ip) { k with dinode := Function.update k.dinode ip d } := by
  refine h.move rfl rfl rfl id rfl (fun _ _ => rfl)
    (fun i hi => Function.update_of_ne (by omega) _ _) fun x _ hx => ⟨id, fun o ho => ?_⟩
  simp only [State.image]
  split
  · rfl
  · split
    · rename_i hin
      have hne : (x - 2) * IPB + o / 64 ≠ ip := by
        rintro rfl
        apply hx
        simp only [iblock, IPB, BSIZE] at *
        omega
      simp only [Function.update_of_ne hne]
    · rfl

/-- The bits of a block of the bitmap are those of the blocks it is for. -/
theorem bitmapByte_update (bitmap : Nat → Bool) {b c o : Nat} (v : Bool) (ho : o < BSIZE)
    (h : b < c ∨ c + BPB ≤ b) :
    bitmapByte (Function.update bitmap b v) c o = bitmapByte bitmap c o := by
  unfold bitmapByte
  congr 1
  refine List.foldl_ext _ _ _ fun acc r hr => ?_
  have hr := List.mem_range.1 hr
  rw [Function.update_of_ne (by simp only [BSIZE, BPB] at *; omega)]

/-- Setting or clearing a bit. -/
theorem InLog.setBit (h : Clean home k) {b : Nat} {v : Bool} (hlog : k'.log = k.log)
    (hsb : k'.sb = k.sb) (hdinode : k'.dinode = k.dinode) (hdata : k'.data = k.data)
    (hbitmap : k'.bitmap = Function.update k.bitmap b v) :
    InLog home (fun x => x = k.sb.bblock b) k' := by
  refine h.move (by rw [hlog]) (by rw [hlog]) (by rw [hlog]) (by rw [hlog]; exact id) hsb
    (fun _ _ => by rw [hdata])
    (fun _ _ => by rw [hdinode]) ?_
  refine fun x _ hx => ⟨id, fun o ho => ?_⟩
  simp only [State.image, hsb, hdinode, hdata, hbitmap]
  split
  · rfl
  split
  · rfl
  split
  · rename_i hin
    refine (bitmapByte_update k.bitmap v ho ?_).symm
    by_contra hno
    apply hx
    simp only [Superblock.bblock, BPB] at *
    omega
  · rfl

/-! ## Blocks -/

theorem bblock_bounds (h : InLog home D k) {b : Nat} (hb : b < k.sb.size) :
    2 ≤ k.sb.bblock b ∧ k.sb.bblock b < k.log.start := by
  have hlayout := h.layout
  have hinside := bblock_inside hb
  have hlow := Nat.le_add_left 3 (k.sb.ninodes / IPB)
  omega

theorem iblock_bounds (h : InLog home D k) {ip : Nat} (hip : ip < k.sb.ninodes) :
    2 ≤ iblock ip ∧ iblock ip < k.log.start := by
  have hlayout := h.layout
  have hinside := iblock_inside hip
  have hlow : k.sb.ninodes / IPB + 3 ≤ k.sb.dataStart := inodes_le_dataStart
  omega

theorem bzero_clean (h : Clean home k) {b : Nat} (hb : 2 ≤ b ∧ b < k.log.start) :
    wp (bzero b) (fun _ k' => Clean home k') (fun _ _ => True) k := by
  unfold bzero
  rw [wp_bind, wp_modify]
  exact wp_mono (logWrite_clean (h.setData hb _) hb) (fun _ _ h' => h'.2) fun _ _ _ => trivial

/-- Data blocks are behind the first two. -/
theorem DataBlock.bounds {b : Nat} (h : k.DataBlock b) : 2 ≤ b ∧ b < k.log.start := by
  have hlo : 4 ≤ k.sb.dataStart := four_le_dataStart
  exact ⟨Nat.le_trans (by omega) h.1, h.2⟩

/-- While there is a free data block, it is the first free block of all. -/
theorem firstFree_dataBlock (ho : Owned k) (hfull : k.dataFull = false) {b : Nat}
    (hfree : firstFree k.bitmap k.sb.size 0 = some b) : k.DataBlock b := by
  obtain ⟨-, -, hclear, hbefore⟩ := firstFree_some hfree
  have hlo : k.sb.dataStart ≤ b := by
    by_contra hlt
    have hset := ho.marked b (by omega)
    rw [hclear] at hset
    cases hset
  refine ⟨hlo, ?_⟩
  by_contra hge
  unfold State.dataFull at hfull
  cases hff : firstFree k.bitmap (k.log.start - k.sb.dataStart) k.sb.dataStart with
  | none =>
      rw [hff] at hfull
      cases hfull
  | some c =>
      obtain ⟨-, hc, hbit, -⟩ := firstFree_some hff
      have hset := hbefore c (by omega) (by omega)
      rw [hbit] at hset
      cases hset

theorem balloc_clean (ho : Owned k) (h : Clean home k) :
    wp balloc (fun _ k' => k'.starved = false → Clean home k') (fun _ _ => True) k := by
  cases hs : k.starved || k.dataFull with
  | true =>
      refine wp_mono (balloc_owned ho) (fun b k' hfresh hfed => ?_) fun _ _ _ => trivial
      rw [hfresh.starved, hs] at hfed
      cases hfed
  | false =>
      have hfull := (Bool.or_eq_false_iff.1 hs).2
      unfold balloc
      rw [wp_bind, wp_get, wp_bind, wp_modify]
      cases hfree : firstFree k.bitmap k.sb.size 0 with
      | none => exact (wp_stop _).2 trivial
      | some b =>
          have hdata := firstFree_dataBlock ho hfull hfree
          have hsize : b < k.sb.size := by
            have := (firstFree_some hfree).2.1
            omega
          rw [wp_bind, wp_modify, wp_bind]
          have hdirty : InLog home (fun x => x = k.sb.bblock b) { k with
              starved := k.starved || k.dataFull
              bitmap := Function.update k.bitmap b true
              allocs := k.allocs ++ [b] } := h.setBit rfl rfl rfl rfl rfl
          refine wp_mono (logWrite_clean hdirty (bblock_bounds h hsize)) ?_ fun _ _ _ => trivial
          rintro _ k₁ ⟨rfl, hclean⟩
          rw [wp_bind]
          have hbounds := DataBlock.bounds hdata
          refine wp_imp (bzero_clean hclean (by simpa using hbounds)) fun _ k₂ h₂ => ?_
          exact (wp_pure _).2 fun _ => h₂

theorem bfree_clean (h : Clean home k) {b : Nat} (hb : b < k.sb.size) :
    wp (bfree b) (fun _ k' => Clean home k' ∧ k'.icopy = k.icopy ∧ k'.sb = k.sb)
      (fun _ _ => True) k := by
  unfold bfree
  rw [wp_bind, wp_get, wp_ite]
  refine ⟨fun _ => (wp_stop _).2 trivial, fun _ => ?_⟩
  rw [wp_bind, wp_modify]
  have hdirty : InLog home (fun x => x = k.sb.bblock b)
      { k with bitmap := Function.update k.bitmap b false } := h.setBit rfl rfl rfl rfl rfl
  refine wp_mono (logWrite_clean hdirty (bblock_bounds h hb)) ?_ fun _ _ _ => trivial
  rintro _ k' ⟨rfl, hclean⟩
  exact ⟨hclean, rfl, rfl⟩

/-- Sequencing for what is promised while `balloc` finds a free block. -/
theorem wp_bind_clean {α β : Type} {m : K α} {f : α → K β} {P : α → State → Prop}
    {Q : β → State → Prop} (hm : wp m (fun a k' => k'.starved = false → P a k') (fun _ _ => True) k)
    (hframe : ∀ a, Preserves Frame (f a))
    (hf : ∀ a k', P a k' → wp (f a) (fun b k'' => k''.starved = false → Q b k'')
      (fun _ _ => True) k') :
    wp (m >>= f) (fun b k'' => k''.starved = false → Q b k'') (fun _ _ => True) k := by
  rw [wp_bind]
  refine wp_imp hm fun a k' ha => ?_
  cases hs : k'.starved with
  | false => exact hf a k' (ha hs)
  | true =>
      refine wp_mono ((hframe a).wp k') (fun b k'' hfr hfed => ?_) fun _ _ _ => trivial
      rw [hfr.fed hfed] at hs
      cases hs

/-! ## Inodes -/

theorem iupdate_clean (h : Clean home k) {ip : Nat} (hip : ip < k.sb.ninodes) :
    wp (iupdate ip) (fun _ k' => Clean home k') (fun _ _ => True) k := by
  unfold iupdate
  rw [wp_bind, wp_modify]
  exact wp_mono (logWrite_clean (h.setDinode hip _) (iblock_bounds h hip)) (fun _ _ h' => h'.2)
    fun _ _ _ => trivial

theorem InLog.setCopy (h : InLog home D k) (ip : Nat) (d : Dinode) :
    InLog home D (k.setCopy ip d) :=
  h.still rfl rfl rfl id rfl rfl rfl rfl

theorem InLog.setEntry (h : InLog home D k) (ip : Nat) (e : CacheEntry) :
    InLog home D (k.setEntry ip e) :=
  h.still rfl rfl rfl id rfl rfl rfl rfl

theorem bumpNlink_clean (h : Clean home k) {ip : Nat} (hip : ip < k.sb.ninodes) (δ : Int) :
    wp (bumpNlink ip δ) (fun _ k' => Clean home k') (fun _ _ => True) k := by
  unfold bumpNlink
  rw [wp_bind, wp_modify]
  exact iupdate_clean (h.setCopy ip _) hip

theorem initInode_clean (h : Clean home k) {ip : Nat} (hip : ip < k.sb.ninodes)
    (major minor : Int) :
    wp (initInode ip major minor) (fun _ k' => Clean home k') (fun _ _ => True) k := by
  unfold initInode
  rw [wp_bind, wp_modify]
  exact iupdate_clean (h.setCopy ip _) hip

theorem bmapDirect_clean (ho : Owned k) (h : Clean home k) (ip s : Nat) :
    wp (bmapDirect ip s) (fun _ k' => k'.starved = false → Clean home k') (fun _ _ => True) k := by
  unfold bmapDirect
  rw [wp_bind, wp_get, wp_ite]
  refine ⟨fun _ => ?_, fun _ => (wp_pure _).2 fun _ => h⟩
  rw [wp_bind]
  refine wp_imp (balloc_clean ho h) fun b k₁ h₁ => ?_
  rw [wp_bind, setAddr, wp_modify, wp_pure]
  exact fun hfed => (h₁ hfed).setCopy ip _

theorem bmapEntry_clean (ho : Owned k) (h : Clean home k) {ind : Nat}
    (hind : 2 ≤ ind ∧ ind < k.log.start)
    (j : Nat) :
    wp (bmapEntry ind j) (fun _ k' => k'.starved = false → Clean home k') (fun _ _ => True) k := by
  unfold bmapEntry
  rw [wp_bind, wp_get, wp_ite]
  refine ⟨fun _ => ?_, fun _ => (wp_pure _).2 fun _ => h⟩
  have hboth : wp balloc (fun _ k' => k'.starved = false → Clean home k' ∧
      k'.log.start = k.log.start) (fun _ _ => True) k :=
    wp_mono (wp_and (balloc_clean ho h) (balloc_frame.wp k))
      (fun _ _ hb hfed => ⟨hb.1 hfed, hb.2.start⟩) fun _ _ _ => trivial
  refine wp_bind_clean hboth (fun b => .bind (.modify fun s => frame_setData s ind _)
    fun _ => .bind (logWrite_frame ind) fun _ => .pure _) ?_
  rintro b k₁ ⟨h₁, hstart⟩
  rw [wp_bind, wp_modify, wp_bind]
  have hlt : 2 ≤ ind ∧ ind < k₁.log.start := by omega
  refine wp_mono (logWrite_clean (h₁.setData hlt _) hlt) ?_ fun _ _ _ => trivial
  exact fun _ _ h₂ => (wp_pure _).2 fun _ => h₂.2

theorem bmap_clean (ho : Owned k) (h : Clean home k) {ip bn : Nat}
    (hv : (k.icache ip).valid = true) :
    wp (bmap ip bn) (fun _ k' => k'.starved = false → Clean home k') (fun _ _ => True) k := by
  unfold bmap
  rw [wp_ite, wp_ite]
  refine ⟨fun _ => bmapDirect_clean ho h ip bn, fun _ => ⟨fun _ => ?_, fun _ =>
    (wp_stop _).2 trivial⟩⟩
  have hboth : wp (bmapDirect ip NDIRECT) (fun b k' => k'.starved = false →
      Maps ip NDIRECT k b k' ∧ Clean home k') (fun _ _ => True) k :=
    wp_mono (wp_and (bmapDirect_spec ho hv (Nat.le_refl _)) (bmapDirect_clean ho h ip NDIRECT))
      (fun _ _ hb hfed => ⟨hb.1 hfed, hb.2 hfed⟩) fun _ _ _ => trivial
  refine wp_bind_clean hboth (fun ind => bmapEntry_frame ind _) ?_
  rintro ind k₁ ⟨hmaps, h₁⟩
  refine bmapEntry_clean hmaps.grown.owned h₁ ?_ _
  have hne := hmaps.ne_zero
  rw [hmaps.block] at hne ⊢
  exact DataBlock.bounds (hmaps.grown.owned.region _ hne)

/-! ## Contents -/

theorem writeLoop_clean {ip : Nat} (fuel : Nat) : ∀ {k : State} (src : Nat → UInt8) (off n : Nat),
    Owned k → Clean home k → (k.icache ip).valid = true → off + n ≤ MAXFILE * BSIZE →
    wp (writeLoop ip fuel src off n) (fun _ k' => k'.starved = false → Clean home k')
      (fun _ _ => True) k := by
  induction fuel with
  | zero => exact fun _ _ _ _ h _ _ => (wp_pure _).2 fun _ => h
  | succ fuel ih =>
      intro k src off n ho h hv hmax
      rw [writeLoop, wp_ite]
      refine ⟨fun _ => (wp_pure _).2 fun _ => h, fun hn => ?_⟩
      obtain ⟨m, hm⟩ : ∃ m, m = min n (BSIZE - off % BSIZE) := ⟨_, rfl⟩
      rw [← hm]
      simp only [MAXFILE, BSIZE] at hmax hm
      have hboth : wp (bmap ip (off / BSIZE)) (fun b k' => k'.starved = false →
          Maps ip (blockSlot (off / BSIZE)) k b k' ∧ Clean home k') (fun _ _ => True) k :=
        wp_mono (wp_and (bmap_spec ho hv (by simp only [MAXFILE, BSIZE]; omega))
          (bmap_clean ho h hv)) (fun _ _ hb hfed => ⟨hb.1 hfed, hb.2 hfed⟩) fun _ _ _ => trivial
      refine wp_bind_clean hboth (fun b => .bind (.modify fun k => frame_setData k b _) fun _ =>
        .bind (logWrite_frame b) fun _ => writeLoop_frame ip fuel _ _ _) ?_
      rintro _ k₁ ⟨⟨hg, rfl, hb, -⟩, h₁⟩
      rw [wp_bind, wp_modify, wp_bind]
      have hlt := DataBlock.bounds (hg.owned.region _ hb)
      refine wp_mono (logWrite_clean (h₁.setData hlt _) hlt) ?_ fun _ _ _ => trivial
      rintro _ k₂ ⟨rfl, h₂⟩
      have hstore := written_store (m := m) hg.owned hb (by simp only [BSIZE]; omega) src
      refine ih _ _ _ hstore.owned h₂ ?_ ?_
      · rw [hstore.frame.icache, hg.frame.icache]
        exact hv
      · simp only [MAXFILE, BSIZE]
        omega

theorem growSize_clean (h : Clean home k) {ip : Nat} (hip : ip < k.sb.ninodes) (off n : Nat) :
    wp (growSize ip off n) (fun _ k' => Clean home k') (fun _ _ => True) k := by
  unfold growSize
  rw [wp_bind, wp_get, wp_ite]
  refine ⟨fun _ => ?_, fun _ => (wp_pure _).2 h⟩
  rw [wp_bind, wp_modify]
  exact iupdate_clean (h.setCopy ip _) hip

theorem writei_clean (h : Wf k) (hc : Clean home k) {ip : Nat} (hip : ip < k.sb.ninodes)
    (hv : (k.icache ip).valid = true) (src : Nat → UInt8) {off n : Nat} (hoff : off < UINT)
    (hn : n < UINT) :
    wp (writei ip src off n) (fun _ k' => k'.starved = false → Clean home k')
      (fun _ _ => True) k := by
  rcases InodeType.data_or_dev (h.live ip hv) with ht | ht
  · by_cases hbad : off > (k.dinode ip).size ∨ (off + n) % UINT < off ∨
        (off + n) % UINT > MAXFILE * BSIZE
    · exact wp_of_ok (run_writei_error h hv ht hbad) fun _ => hc
    · have hmax : off + n ≤ MAXFILE * BSIZE := by
        simp only [UINT, MAXFILE, BSIZE] at *
        omega
      have hmod : (off + n) % UINT = off + n := Nat.mod_eq_of_lt (by
        simp only [MAXFILE, BSIZE, UINT] at *
        omega)
      have hdev : (k.dinode ip).type ≠ .dev := by
        rcases ht with ht | ht <;> rw [ht] <;> decide
      unfold writei
      rw [wp_bind, wp_get]
      simp only [h.coherent ip hv, hdev, if_false, hmod]
      rw [if_neg (by omega), if_neg (by omega)]
      have hboth : wp (writeLoop ip n src off n) (fun _ k' => k'.starved = false →
          Clean home k' ∧ k'.sb = k.sb) (fun _ _ => True) k :=
        wp_mono (wp_and (writeLoop_clean n src off n h.owned hc hv hmax)
          ((writeLoop_frame ip n src off n).wp k))
          (fun _ _ hb hfed => ⟨hb.1 hfed, hb.2.sb⟩) fun _ _ _ => trivial
      refine wp_bind_clean hboth
        (fun _ => .bind (growSize_frame ip _ _) fun _ => .pure _) ?_
      rintro _ k₁ ⟨h₁, hsb⟩
      rw [wp_bind]
      refine wp_imp (growSize_clean h₁ (by rw [hsb]; exact hip) _ _) fun _ k₂ h₂ => ?_
      exact (wp_pure _).2 fun _ => h₂
  · refine wp_mono (writei_dev (by rw [h.coherent ip hv, ht])) ?_ fun _ _ _ => trivial
    rintro _ k' (rfl | rfl) _
    · exact hc
    · exact hc.still rfl rfl rfl id rfl rfl rfl rfl

/-! ## Freeing and allocating -/

theorem Owned.ref_lt_size (ho : Owned k) {x : Nat × Nat} (hx : k.ref x ≠ 0) :
    k.ref x < k.sb.size := by
  have hlt := ho.ref_lt hx
  have hend := ho.log_end
  omega

theorem truncDirect_clean (ho : Owned k) (h : Clean home k) {ip : Nat}
    (hv : (k.icache ip).valid = true) :
    wp (truncDirect ip) (fun _ k' => Clean home k') (fun _ _ => True) k := by
  have hino : k.ino ip = k.icopy ip := by simp [State.ino, hv]
  have hloop := wp_loopTo (s := k) (E := fun _ _ => True)
    (f := fun i => do
      let k ← get
      if (k.icopy ip).addrs i = 0 then pure ()
      else do
        bfree ((k.icopy ip).addrs i)
        setAddr ip i 0)
    (I := fun _ s => Clean home s ∧ s.sb = k.sb ∧ ∀ t, t < NDIRECT → (s.icopy ip).addrs t ≠ 0 →
      (s.icopy ip).addrs t < k.sb.size) NDIRECT ?_ ?_
  · exact wp_imp hloop fun _ _ hI => hI.1
  · refine ⟨h, rfl, fun t ht h0 => ?_⟩
    have href : k.ref (ip, t) = (k.icopy ip).addrs t := by
      rw [ref_of_le k (Nat.le_of_lt ht), hino]
    rw [← href] at h0 ⊢
    exact ho.ref_lt_size h0
  · rintro i s hi ⟨hs, hsb, hlow⟩
    rw [wp_bind, wp_get, wp_ite]
    refine ⟨fun _ => (wp_pure _).2 ⟨hs, hsb, hlow⟩, fun h0 => ?_⟩
    rw [wp_bind]
    refine wp_imp (bfree_clean hs (by rw [hsb]; exact hlow i hi h0)) ?_
    rintro _ s₁ ⟨h₁, hcopy, hsb₁⟩
    rw [setAddr, wp_modify]
    refine ⟨h₁.setCopy ip _, hsb₁.trans hsb, fun t ht h0 => ?_⟩
    rw [State.setCopy_self, hcopy] at h0 ⊢
    by_cases hti : t = i
    · subst hti
      simp at h0
    · simp only [Function.update_of_ne hti] at h0 ⊢
      exact hlow t ht h0

theorem truncEntries_clean (h : Clean home k) {a : Block}
    (ha : ∀ j, j < NINDIRECT → a.word j ≠ 0 → a.word j < k.sb.size) :
    wp (truncEntries a) (fun _ k' => Clean home k' ∧ k'.sb = k.sb) (fun _ _ => True) k := by
  refine wp_loopTo (I := fun _ s => Clean home s ∧ s.sb = k.sb) NINDIRECT ⟨h, rfl⟩ ?_
  rintro j s hj ⟨hs, hsb⟩
  rw [wp_ite]
  refine ⟨fun _ => (wp_pure _).2 ⟨hs, hsb⟩, fun h0 => ?_⟩
  refine wp_imp (bfree_clean hs (by rw [hsb]; exact ha j hj h0)) ?_
  rintro _ s₁ ⟨h₁, -, hsb₁⟩
  exact ⟨h₁, hsb₁.trans hsb⟩

theorem itrunc_clean (ho : Owned k) (h : Clean home k) {ip : Nat} (hip : ip < k.sb.ninodes)
    (hv : (k.icache ip).valid = true) :
    wp (itrunc ip) (fun _ k' => Clean home k') (fun _ _ => True) k := by
  have hslots := slot_counts
  have hino : k.ino ip = k.icopy ip := by simp [State.ino, hv]
  unfold itrunc
  rw [wp_bind]
  refine wp_mono (wp_and (truncDirect_spec ho hv) (truncDirect_clean ho h hv)) ?_
    fun _ _ _ => trivial
  rintro _ s₁ ⟨⟨hf, hcopy⟩, h₁⟩
  have haddr : (s₁.icopy ip).addrs NDIRECT = k.ref (ip, NDIRECT) := by
    rw [hcopy, ref_of_le k (Nat.le_refl _), hino]
    simp [clearDirect]
  have hend : ∀ s, Clean home s → s.sb = k.sb →
      wp (do
        modify fun k => k.setCopy ip { k.icopy ip with size := 0 }
        iupdate ip) (fun _ k' => Clean home k') (fun _ _ => True) s := by
    intro s hs hsb
    rw [wp_bind, wp_modify]
    exact iupdate_clean (hs.setCopy ip _) (by show ip < s.sb.ninodes; rw [hsb]; exact hip)
  rw [wp_bind, truncIndirect, wp_bind, wp_get, wp_ite, haddr]
  refine ⟨fun _ => (wp_pure _).2 (hend s₁ h₁ hf.frame.sb), fun h0 => ?_⟩
  rw [hf.data _ (ho.ref_lt h0), wp_bind]
  refine wp_imp (truncEntries_clean h₁ fun j hj hw => ?_) ?_
  · have hentry : (k.data (k.ref (ip, NDIRECT))).word j = k.ref (ip, 13 + j) := by
      rw [ref_of_gt k (s := 13 + j) (by omega) (by omega) h0, show 13 + j - 13 = j by omega]
    rw [hentry] at hw ⊢
    rw [hf.frame.sb]
    exact ho.ref_lt_size hw
  rintro _ s₂ ⟨h₂, hsb₂⟩
  rw [wp_bind]
  refine wp_imp (bfree_clean h₂ (by rw [hsb₂, hf.frame.sb]; exact ho.ref_lt_size h0)) ?_
  rintro _ s₃ ⟨h₃, -, hsb₃⟩
  rw [setAddr, wp_modify]
  exact hend _ (h₃.setCopy ip _) (hsb₃.trans (hsb₂.trans hf.frame.sb))

theorem iputFree_clean (ho : Owned k) (h : Clean home k) {ip : Nat} (hip : ip < k.sb.ninodes)
    (hv : (k.icache ip).valid = true) :
    wp (iputFree ip) (fun _ k' => Clean home k') (fun _ _ => True) k := by
  unfold iputFree
  rw [wp_bind]
  refine wp_mono (wp_and (itrunc_clean ho h hip hv) ((itrunc_frame ip).wp k)) ?_
    fun _ _ _ => trivial
  rintro _ s ⟨hs, hf⟩
  rw [wp_bind, wp_modify, wp_bind]
  refine wp_imp (iupdate_clean (hs.setCopy ip _) ?_) fun _ s₁ h₁ => ?_
  · show ip < s.sb.ninodes
    rw [hf.sb]
    exact hip
  · exact (wp_modify _).2 (h₁.setEntry ip _)

theorem iget_clean (h : Clean home k) (inum : Nat) :
    wp (iget inum) (fun _ k' => Clean home k') (fun _ _ => True) k := by
  refine wp_mono (iget_spec k inum) ?_ fun _ _ _ => trivial
  rintro _ k' rfl
  exact h.setEntry inum _

theorem ialloc_clean (h : Clean home k) (type : InodeType) :
    wp (ialloc type) (fun _ k' => Clean home k') (fun _ _ => True) k := by
  unfold ialloc
  rw [wp_bind, wp_get]
  cases hff : firstFreeInode k.dinode (k.sb.ninodes - 1) 1 with
  | none => exact (wp_stop _).2 trivial
  | some inum =>
      obtain ⟨hpos, hlt, -⟩ := firstFreeInode_some hff
      rw [wp_bind, wp_modify, wp_bind]
      refine wp_mono (logWrite_clean (h.setDinode (by omega) _)
        (iblock_bounds h (by omega))) ?_ fun _ _ _ => trivial
      rintro _ k₁ ⟨rfl, h₁⟩
      rw [wp_bind]
      exact wp_imp (iget_clean h₁ inum) fun _ _ h₂ => (wp_pure _).2 h₂

end InLog

end Xv6.Kernel
