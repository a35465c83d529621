import Xv6.Kernel.Blocks

/-!
# What a file contains

`State.byteAt` reads byte `o` of an inode through its block table.  `readi` of a
mapped range returns those bytes and changes nothing; `writei` replaces exactly
the range it was given, in that inode alone, which rests on ownership: the block
it stores into is in no other slot.
-/

namespace Xv6.Kernel

open Xv6.Verified
open Exec

/-- Byte `o` of inode `i`, zero where no block is mapped. -/
def State.byteAt (k : State) (i o : Nat) : UInt8 :=
  if k.ref (i, blockSlot (o / BSIZE)) = 0 then 0
  else k.data (k.ref (i, blockSlot (o / BSIZE))) (o % BSIZE)

/-- The bytes of inode `i` from `off` to `off + n`. -/
def State.bytes (k : State) (i off n : Nat) : List UInt8 :=
  (List.range n).map fun o => k.byteAt i (off + o)

@[simp] theorem length_bytes (k : State) (i off n : Nat) : (k.bytes i off n).length = n := by
  simp [State.bytes]

/-- Every block of the range has been allocated. -/
def State.Mapped (k : State) (i off n : Nat) : Prop :=
  ∀ o, off ≤ o → o < off + n → k.ref (i, blockSlot (o / BSIZE)) ≠ 0

theorem State.Mapped.mono {k : State} {i off n off' n' : Nat} (h : k.Mapped i off n)
    (hlo : off ≤ off') (hhi : off' + n' ≤ off + n) : k.Mapped i off' n' :=
  fun o ho ho' => h o (by omega) (by omega)

theorem bytes_append (k : State) (i off m n : Nat) :
    k.bytes i off m ++ k.bytes i (off + m) n = k.bytes i off (m + n) := by
  simp [State.bytes, List.range_add, List.map_append, Nat.add_assoc, Function.comp_def]

/-! ## Reading -/

/-- `bmap` of a block that is there. -/
theorem run_bmap_of_mapped {k : State} {ip bn : Nat} (hv : (k.icache ip).valid = true)
    (hbn : bn < MAXFILE) (h : k.ref (ip, blockSlot bn) ≠ 0) :
    (bmap ip bn).run k = .ok (k.ref (ip, blockSlot bn)) k := by
  have hslots := slot_counts
  have hino : k.ino ip = k.icopy ip := by simp [State.ino, hv]
  unfold bmap
  by_cases hd : bn < NDIRECT
  · have hslot : blockSlot bn = bn := if_pos hd
    rw [hslot, ref_of_le k (by omega), hino] at h ⊢
    simp [hd, bmapDirect, h]
  · have hslot : blockSlot bn = bn + 1 := if_neg hd
    rw [hslot] at h ⊢
    have hind : k.ref (ip, NDIRECT) ≠ 0 := fun h0 =>
      h (ref_of_no_indirect k (by omega) h0)
    have hword := ref_of_gt k (s := bn + 1) (by omega) (by omega) hind
    rw [show bn + 1 - 13 = bn - NDIRECT by omega] at hword
    rw [hword] at h ⊢
    rw [ref_of_le k (Nat.le_refl _), hino] at h hind ⊢
    have hlt : bn - NDIRECT < NINDIRECT := by omega
    simp [hd, hlt, bmapDirect, bmapEntry, hind, h, run_bind]

/-- A read of mapped bytes returns them and leaves the state as it was. -/
theorem run_readLoop {k : State} {ip fuel off n : Nat} (hv : (k.icache ip).valid = true)
    (hmap : k.Mapped ip off n) (hmax : off + n ≤ MAXFILE * BSIZE) (hfuel : n ≤ fuel) :
    (readLoop ip fuel off n).run k = .ok (k.bytes ip off n) k := by
  induction fuel generalizing off n with
  | zero =>
      obtain rfl : n = 0 := by omega
      simp [readLoop, State.bytes]
  | succ fuel ih =>
      by_cases hn : n = 0
      · simp [readLoop, State.bytes, hn]
      · simp only [readLoop, hn, if_false]
        simp only [MAXFILE, BSIZE] at hmax ⊢
        have hblock := hmap off (Nat.le_refl _) (by omega)
        simp only [BSIZE] at hblock
        rw [run_bind_ok (run_bmap_of_mapped hv (by simp only [MAXFILE]; omega) hblock),
          run_get_bind]
        obtain ⟨m, hm⟩ : ∃ m, m = min n (1024 - off % 1024) := ⟨_, rfl⟩
        rw [← hm, run_bind_ok (ih (hmap.mono (by omega) (by omega))
          (by simp only [MAXFILE, BSIZE]; omega) (by omega)), run_pure]
        have hfirst : (List.range m).map (fun o => k.data
            (k.ref (ip, blockSlot (off / 1024))) (off % 1024 + o)) = k.bytes ip off m := by
          refine List.map_congr_left fun o ho => ?_
          rw [List.mem_range] at ho
          have hdiv : (off + o) / 1024 = off / 1024 := by omega
          have hmod : (off + o) % 1024 = off % 1024 + o := by omega
          simp only [State.byteAt, BSIZE, hdiv, hmod, if_neg hblock]
        rw [hfirst, bytes_append, show m + (n - m) = n by omega]

/-! ## Mapping keeps contents -/

theorem Grown.byteAt {ip : Nat} {k k' : State} (h : Grown ip k k') (i o : Nat) :
    k'.byteAt i o = k.byteAt i o := by
  have hs := blockSlot_ne (o / BSIZE)
  simp only [State.byteAt]
  generalize blockSlot (o / BSIZE) = t at hs
  by_cases h0 : k.ref (i, t) = 0
  · rw [if_pos h0]
    split
    · rfl
    · rename_i h1
      rw [h.zeroed (i, t) hs h0 h1]
      rfl
  · rw [if_neg h0, if_neg (h.mapped h0), h.keep _ h0, h.blocks (i, t) hs h0]

/-! ## Writing -/

/-- What writing the range does: it is mapped and holds `src`; all other bytes of
all inodes are as before.  A range that was mapped needs no new block, and then
the inode itself is as before. -/
structure Written (ip off n : Nat) (src : Nat → UInt8) (k k' : State) : Prop
    extends Extends ip k k' where
  range : k'.Mapped ip off n
  bytes : ∀ i o, k'.byteAt i o =
    if i = ip ∧ off ≤ o ∧ o < off + n then src (o - off) else k.byteAt i o
  copy : k.Mapped ip off n → k'.icopy = k.icopy

/-- Storing into a block of a file and logging it: the table is unchanged. -/
theorem ref_store {k : State} {x : Nat × Nat} (ho : Owned k) (hs : x.2 ≠ NDIRECT)
    (c : Block) :
    ((k.setData (k.ref x) c).logged (k.ref x)).ref = k.ref := by
  have hset : (k.setData (k.ref x) c).ref = k.ref := by
    refine ref_congr (fun _ => rfl) fun i hi => State.setData_of_ne _ _ fun heq => ?_
    exact hs (ho.inj hi heq).2.symm
  rw [ref_logged, hset]
  intro i hi
  rw [hset] at hi ⊢
  exact ho.ref_lt hi

theorem extends_store {k : State} (ip : Nat) {s : Nat} (ho : Owned k) (hs : s ≠ NDIRECT)
    (c : Block) :
    Extends ip k ((k.setData (k.ref (ip, s)) c).logged (k.ref (ip, s))) := by
  have hframe := (frame_setData k (k.ref (ip, s)) c).trans (frame_logged _ (k.ref (ip, s)))
  have href := ref_store (x := (ip, s)) ho hs c
  exact
    { frame := hframe
      owned := ho.congr href rfl hframe
      dinode := rfl
      others := fun _ _ => rfl
      fields := ⟨(k.icopy ip).addrs, rfl⟩
      keep := fun x _ => by rw [href]
      elsewhere := fun x _ => by rw [href]
      bits := fun _ h => h
      taken := fun _ h => .inl h }

/-- The bytes after storing `c` into the `bn`-th block of `ip`. -/
theorem byteAt_store {k : State} {ip bn : Nat} (ho : Owned k)
    (hx : k.ref (ip, blockSlot bn) ≠ 0) (c : Block) (i o : Nat) :
    ((k.setData (k.ref (ip, blockSlot bn)) c).logged (k.ref (ip, blockSlot bn))).byteAt i o =
      if i = ip ∧ o / BSIZE = bn then c (o % BSIZE) else k.byteAt i o := by
  have href := ref_store (x := (ip, blockSlot bn)) ho (blockSlot_ne bn) c
  simp only [State.byteAt, href]
  by_cases h0 : k.ref (i, blockSlot (o / BSIZE)) = 0
  · have hnot : ¬(i = ip ∧ o / BSIZE = bn) := by
      rintro ⟨rfl, rfl⟩
      exact hx h0
    rw [if_pos h0, if_neg hnot, if_pos h0]
  · rw [if_neg h0, if_neg h0, data_logged _ _ (by simpa using ho.ref_lt h0)]
    by_cases hhere : i = ip ∧ o / BSIZE = bn
    · obtain ⟨rfl, rfl⟩ := hhere
      rw [State.setData_self, if_pos ⟨rfl, rfl⟩]
    · rw [if_neg hhere, State.setData_of_ne]
      intro heq
      have hxy := ho.inj h0 heq
      exact hhere ⟨hxy.1, blockSlot_inj hxy.2⟩

/-- One round of `writei`'s loop: `m` bytes, all in one block. -/
theorem written_store {k : State} {ip off m : Nat} (ho : Owned k)
    (hx : k.ref (ip, blockSlot (off / BSIZE)) ≠ 0) (hm : off % BSIZE + m ≤ BSIZE)
    (src : Nat → UInt8) :
    Written ip off m src k
      ((k.setData (k.ref (ip, blockSlot (off / BSIZE)))
        ((k.data (k.ref (ip, blockSlot (off / BSIZE)))).copyIn (off % BSIZE) m src)).logged
        (k.ref (ip, blockSlot (off / BSIZE)))) := by
  have hext := extends_store ip ho (blockSlot_ne (off / BSIZE))
    ((k.data (k.ref (ip, blockSlot (off / BSIZE)))).copyIn (off % BSIZE) m src)
  simp only [BSIZE] at hx hm hext ⊢
  refine { toExtends := hext, range := ?_, bytes := ?_, copy := fun _ => rfl }
  · intro o hlo hhi
    have href := ref_store (x := (ip, blockSlot (off / 1024))) ho (blockSlot_ne _)
      ((k.data (k.ref (ip, blockSlot (off / 1024)))).copyIn (off % 1024) m src)
    rw [href, BSIZE, show o / 1024 = off / 1024 by omega]
    exact hx
  · intro i o
    have hstore := byteAt_store ho hx
      ((k.data (k.ref (ip, blockSlot (off / 1024)))).copyIn (off % 1024) m src) i o
    rw [hstore, BSIZE]
    by_cases hin : i = ip ∧ off ≤ o ∧ o < off + m
    · rw [if_pos hin, if_pos ⟨hin.1, by omega⟩, Block.copyIn, if_pos (by omega)]
      exact congrArg src (by omega)
    · rw [if_neg hin]
      by_cases hhere : i = ip ∧ o / 1024 = off / 1024
      · obtain ⟨rfl, hdiv⟩ := hhere
        rw [if_pos ⟨rfl, hdiv⟩, Block.copyIn, if_neg (by omega), State.byteAt, BSIZE, hdiv,
          if_neg hx]
      · rw [if_neg hhere]

theorem Written.trans {ip off m n : Nat} {src : Nat → UInt8} {k₁ k₂ k₃ : State}
    (h : Written ip off m src k₁ k₂)
    (h' : Written ip (off + m) n (fun o => src (o + m)) k₂ k₃) :
    Written ip off (m + n) src k₁ k₃ := by
  refine { toExtends := h.toExtends.trans h'.toExtends, range := ?_, bytes := ?_, copy := ?_ }
  · intro o hlo hhi
    by_cases hm : o < off + m
    · exact h'.toExtends.mapped (h.range o hlo hm)
    · exact h'.range o (by omega) (by omega)
  · intro i o
    rw [h'.bytes, h.bytes]
    by_cases hi : i = ip
    · by_cases hlo : off + m ≤ o ∧ o < off + m + n
      · rw [if_pos ⟨hi, hlo⟩, if_pos ⟨hi, by omega, by omega⟩]
        exact congrArg src (by omega)
      · rw [if_neg fun hc => hlo hc.2]
        by_cases hfirst : off ≤ o ∧ o < off + m
        · rw [if_pos ⟨hi, hfirst⟩, if_pos ⟨hi, by omega, by omega⟩]
        · rw [if_neg fun hc => hfirst hc.2, if_neg fun hc => by omega]
    · rw [if_neg fun hc => hi hc.1, if_neg fun hc => hi hc.1, if_neg fun hc => hi hc.1]
  · intro hmap
    have hlater : k₂.Mapped ip (off + m) n := fun o hlo hhi =>
      h.toExtends.mapped (hmap o (by omega) (by omega))
    rw [h'.copy hlater, h.copy (hmap.mono (Nat.le_refl _) (by omega))]

/-- Mapping a block first does not change what the write does. -/
theorem Grown.written {ip off n : Nat} {src : Nat → UInt8} {k₁ k₂ k₃ : State}
    (h : Grown ip k₁ k₂) (hsame : k₁.Mapped ip off n → k₂ = k₁)
    (h' : Written ip off n src k₂ k₃) : Written ip off n src k₁ k₃ :=
  { toExtends := h.toExtends.trans h'.toExtends
    range := h'.range
    bytes := fun i o => by rw [h'.bytes, h.byteAt]
    copy := fun hmap => by
      have hk := hsame hmap
      rw [h'.copy (by rwa [hk]), hk] }

theorem Written.empty {ip off : Nat} {src : Nat → UInt8} {k : State} (ho : Owned k) :
    Written ip off 0 src k k :=
  { toExtends := Extends.rfl ho
    range := fun o _ _ => by omega
    bytes := fun i o => by rw [if_neg]; omega
    copy := fun _ => rfl }

theorem writeLoop_spec {k : State} {ip fuel : Nat} {src : Nat → UInt8} {off n : Nat}
    (ho : Owned k) (hv : (k.icache ip).valid = true) (hmax : off + n ≤ MAXFILE * BSIZE)
    (hfuel : n ≤ fuel) :
    wp (writeLoop ip fuel src off n)
      (fun _ k' => k'.starved = false → Written ip off n src k k') AllocStop k := by
  induction fuel generalizing k src off n with
  | zero =>
      obtain rfl : n = 0 := by omega
      exact (wp_pure _).2 fun _ => Written.empty ho
  | succ fuel ih =>
      rw [writeLoop, wp_ite]
      refine ⟨fun hn => ?_, fun hn => ?_⟩
      · subst hn
        exact (wp_pure _).2 fun _ => Written.empty ho
      · obtain ⟨m, hm⟩ : ∃ m, m = min n (BSIZE - off % BSIZE) := ⟨_, rfl⟩
        rw [← hm]
        simp only [MAXFILE, BSIZE] at hmax hm
        refine wp_bind_fed (bmap_spec ho hv (by simp only [MAXFILE, BSIZE]; omega)) ?_ ?_
        · exact fun b => .bind (.modify fun k => frame_setData k b _) fun _ =>
            .bind (logWrite_frame b) fun _ => writeLoop_frame ip fuel _ _ _
        rintro _ k₁ ⟨hg, rfl, hb, hsame⟩
        rw [wp_bind, wp_modify, wp_bind]
        refine wp_mono (logWrite_spec _ _) ?_ fun _ _ h _ => h.1
        rintro _ k₂ rfl
        have hstore := written_store (m := m) hg.owned hb
          (by simp only [BSIZE]; omega) src
        refine wp_imp (ih hstore.owned ?_ ?_ ?_) ?_
        · rw [hstore.frame.icache, hg.frame.icache]
          exact hv
        · simp only [MAXFILE, BSIZE]
          omega
        · omega
        · intro _ k' hrest hfed
          have hall := hstore.trans (hrest hfed)
          rw [show m + (n - m) = n by omega] at hall
          exact hg.written (fun hmap => hsame (hmap off (Nat.le_refl _) (by omega))) hall

end Xv6.Kernel
