import Xv6.Kernel.Wf

/-!
# The inode layer, function by function

For a well-formed file system: what `readi` and `writei` return and do to the
inode's bytes, what `iupdate` after a field assignment does, what freeing and
allocating an inode do.  `Node.read` and `Node.write` are the abstract
operations on an array of bytes.
-/

namespace Xv6.Kernel

open Xv6.Verified
open Exec

/-! ## Bytes of a node -/

/-- Reading from an array of bytes, with the checks of `readi`. -/
def Node.read (nd : Node) (off n : Nat) : Option (List UInt8) :=
  if off > nd.size ∨ (off + n) % UINT < off then none
  else some ((List.range (if (off + n) % UINT > nd.size then nd.size - off else n)).map
    fun o => nd.byte (off + o))

/-- Replacing the bytes from `off` to `off + n`, growing the array if needed. -/
def Node.write (nd : Node) (src : Nat → UInt8) (off n : Nat) : Node :=
  { nd with
    size := max nd.size (off + n)
    byte := fun o => if off ≤ o ∧ o < off + n then src (o - off) else nd.byte o }

/-! ## `readi` -/

/-- `readi` of a file or directory reads the bytes and changes nothing. -/
theorem run_readi {k : State} {ip off n : Nat} (h : Wf k)
    (hv : (k.icache ip).valid = true) (ht : (k.dinode ip).type.HasData)
    (hoff : off < UINT) (hn : n < UINT) :
    (readi ip off n).run k = .ok ((k.node ip).read off n) k := by
  have hcopy := h.coherent ip hv
  have hdev : (k.dinode ip).type ≠ .dev := by
    rcases ht with ht | ht <;> rw [ht] <;> decide
  have hfits := h.fits ip ht
  have hmapped := h.mapped ip ht
  have hsize : (k.node ip).size = (k.dinode ip).size := rfl
  unfold readi Node.read
  rw [run_get_bind]
  simp only [hcopy, hdev, if_false, hsize]
  by_cases hbad : off > (k.dinode ip).size ∨ (off + n) % UINT < off
  · rw [if_pos hbad, if_pos hbad, run_pure]
  · rw [if_neg hbad, if_neg hbad]
    obtain ⟨m, hm⟩ : ∃ m, m = if (off + n) % UINT > (k.dinode ip).size
      then (k.dinode ip).size - off else n := ⟨_, rfl⟩
    have hend : off + m ≤ (k.dinode ip).size := by
      simp only [UINT] at *
      split at hm <;> omega
    rw [← hm, run_bind_ok (run_readLoop hv
      (hmapped.mono (Nat.zero_le _) (by omega)) (Nat.le_trans hend hfits) (Nat.le_refl _)),
      run_pure]
    rfl

/-! ## `iupdate` -/

/-- What `iupdate` leaves when the in-memory inode was set to `d`. -/
structure Stored (ip : Nat) (d : Dinode) (k k' : State) : Prop where
  frame : Frame k k'
  dinode : k'.dinode = Function.update k.dinode ip d
  icopy : k'.icopy = Function.update k.icopy ip d
  bitmap : k'.bitmap = k.bitmap
  data : ∀ b, b < k.log.start → k'.data b = k.data b

theorem iupdate_spec (k : State) (ip : Nat) (d : Dinode) :
    wp (iupdate ip) (fun _ k' => Stored ip d k k') (fun e _ => LogStop e)
      (k.setCopy ip d) := by
  have hframed := (iupdate_frame ip).wp (k.setCopy ip d)
  refine wp_mono (wp_and hframed (?_ : wp (iupdate ip)
    (fun _ k' => Frame (k.setCopy ip d) k' → Stored ip d k k') (fun e _ => LogStop e) _))
    (fun _ _ h => h.2 h.1) fun _ _ h => h.2
  unfold iupdate
  rw [wp_bind, wp_modify]
  refine wp_mono (logWrite_spec _ _) ?_ fun _ _ he => he.1
  rintro _ k' rfl hframe
  refine ⟨(frame_setCopy k ip d).trans hframe, ?_, rfl, rfl, fun b hb => ?_⟩
  · simp [State.logged, State.setCopy]
  · exact data_logged _ _ hb

namespace Stored

variable {ip : Nat} {d : Dinode} {k k' : State}

theorem ino_of_ne (h : Stored ip d k k') {i : Nat} (hi : i ≠ ip) : k'.ino i = k.ino i := by
  simp [State.ino, h.frame.icache, h.icopy, h.dinode, Function.update_of_ne hi]

theorem ino_self (h : Stored ip d k k') : k'.ino ip = d := by
  simp [State.ino, h.icopy, h.dinode]

/-- The table does not change if the addresses do not. -/
theorem ref_eq (h : Stored ip d k k') (ho : Owned k) (ha : d.addrs = (k.ino ip).addrs) :
    k'.ref = k.ref := by
  funext ⟨i, s⟩
  simp only [State.ref, slotAddr]
  have haddrs : (k'.ino i).addrs = (k.ino i).addrs := by
    by_cases hi : i = ip
    · rw [hi, h.ino_self, ha]
    · rw [h.ino_of_ne hi]
  rw [haddrs]
  by_cases h0 : (k.ino i).addrs NDIRECT = 0
  · simp [h0]
  · have hlt : (k.ino i).addrs NDIRECT < k.log.start := by
      have := ho.ref_lt (x := (i, NDIRECT))
      rw [ref_of_le _ (Nat.le_refl _)] at this
      exact this h0
    rw [h.data _ hlt]

theorem byteAt (h : Stored ip d k k') (ho : Owned k) (ha : d.addrs = (k.ino ip).addrs)
    (i o : Nat) : k'.byteAt i o = k.byteAt i o := by
  simp only [State.byteAt, h.ref_eq ho ha]
  split
  · rfl
  · rename_i h0
    rw [h.data _ (ho.ref_lt h0)]

end Stored

/-! ## Assigning fields -/

/-- What an assignment to other fields than type, size and addresses does. -/
structure Assigned (ip : Nat) (nd : Node) (k k' : State) : Prop where
  frame : Frame k k'
  wf : Wf k'
  node : k'.node = Function.update k.node ip nd
  ref : k'.ref = k.ref
  bitmap : k'.bitmap = k.bitmap

theorem Stored.assigned {ip : Nat} {d : Dinode} {k k' : State} (hs : Stored ip d k k')
    (h : Wf k) (hv : (k.icache ip).valid = true) (htype : d.type = (k.dinode ip).type)
    (hsize : d.size = (k.dinode ip).size) (haddrs : d.addrs = (k.dinode ip).addrs) :
    Assigned ip { k.node ip with major := d.major, minor := d.minor, nlink := d.nlink } k k' := by
  have ha : d.addrs = (k.ino ip).addrs := by rw [h.ino, haddrs]
  have href := hs.ref_eq h.owned ha
  have hbyte := hs.byteAt h.owned ha
  have hdin : k'.dinode ip = d := by rw [hs.dinode, Function.update_self]
  have hwf : Wf k' := by
    refine h.of_others ip (h.owned.congr href hs.bitmap hs.frame) ?_ ?_ ?_ ?_ ?_ ?_
    · intro i hi
      rw [hs.dinode, Function.update_of_ne hi]
    · intro i hi
      rw [hs.icopy, Function.update_of_ne hi]
    · intro i _
      rw [hs.frame.icache]
    · intro i s _
      rw [href]
    · intro _
      rw [hs.icopy, Function.update_self, hdin, htype]
      exact ⟨rfl, h.live ip hv⟩
    · rw [hdin, htype, hsize]
      intro ht
      refine ⟨h.fits ip ht, ?_⟩
      simpa only [State.Mapped, href] using h.mapped ip ht
  refine ⟨hs.frame, hwf, ?_, href, hs.bitmap⟩
  funext i
  by_cases hi : i = ip
  · subst hi
    rw [Function.update_self]
    simp only [State.node, hdin, htype, hsize, Node.mk.injEq, true_and]
    exact funext (hbyte i)
  · rw [Function.update_of_ne hi]
    exact node_eq (by rw [hs.dinode, Function.update_of_ne hi]) (hbyte i)

theorem bumpNlink_spec {k : State} {ip : Nat} {δ : Int} (h : Wf k)
    (hv : (k.icache ip).valid = true) :
    wp (bumpNlink ip δ)
      (fun _ k' => Assigned ip
        { k.node ip with nlink := toShort ((k.node ip).nlink + δ) } k k')
      (fun e _ => LogStop e) k := by
  have hcopy := h.coherent ip hv
  unfold bumpNlink
  rw [wp_bind, wp_modify]
  refine wp_imp (iupdate_spec k ip _) ?_
  intro _ k' hs
  have := hs.assigned h hv (by rw [hcopy]) (by rw [hcopy]) (by rw [hcopy])
  simpa [hcopy, State.node] using this

theorem initInode_spec {k : State} {ip : Nat} (major minor : Int) (h : Wf k)
    (hv : (k.icache ip).valid = true) :
    wp (initInode ip major minor)
      (fun _ k' => Assigned ip
        { k.node ip with major := major, minor := minor, nlink := 1 } k k')
      (fun e _ => LogStop e) k := by
  have hcopy := h.coherent ip hv
  unfold initInode
  rw [wp_bind, wp_modify]
  refine wp_imp (iupdate_spec k ip _) ?_
  intro _ k' hs
  exact hs.assigned h hv (by rw [hcopy]) (by rw [hcopy]) (by rw [hcopy])

/-! ## `writei` -/

/-- What `writei` does when it writes. -/
structure Wrote (ip : Nat) (nd : Node) (k k' : State) : Prop where
  frame : Frame k k'
  wf : Wf k'
  node : k'.node = Function.update k.node ip nd
  keep : ∀ x, k.ref x ≠ 0 → k'.ref x = k.ref x
  elsewhere : ∀ x, x.1 ≠ ip → k'.ref x = k.ref x
  bits : ∀ b, k.bitmap b = true → k'.bitmap b = true
  taken : ∀ b, k'.bitmap b = true → k.bitmap b = true ∨ b ≠ 0 ∧ ∃ x, k'.ref x = b

/-- A write that stays inside the file. -/
theorem Written.wrote_inside {ip off n : Nat} {src : Nat → UInt8} {k k' : State}
    (hw : Written ip off n src k k') (h : Wf k) (hv : (k.icache ip).valid = true)
    (ht : (k.dinode ip).type.HasData) (hin : off + n ≤ (k.dinode ip).size) :
    Wrote ip ((k.node ip).write src off n) k k' := by
  have hicopy := hw.copy ((h.mapped ip ht).mono (Nat.zero_le _) (by omega))
  have hwf : Wf k' := by
    refine h.of_others ip hw.owned ?_ ?_ ?_ ?_ ?_ ?_
    · intro i _
      rw [hw.dinode]
    · intro i _
      rw [hicopy]
    · intro i _
      rw [hw.frame.icache]
    · exact fun i s hi => hw.elsewhere (i, s) hi
    · intro _
      rw [hicopy, hw.dinode]
      exact ⟨h.coherent ip hv, h.live ip hv⟩
    · rw [hw.dinode]
      intro _
      exact ⟨h.fits ip ht, fun o hlo hhi => hw.toExtends.mapped (h.mapped ip ht o hlo hhi)⟩
  refine ⟨hw.frame, hwf, ?_, hw.keep, hw.elsewhere, hw.bits, hw.taken⟩
  funext i
  by_cases hi : i = ip
  · subst hi
    rw [Function.update_self]
    simp only [State.node, Node.write, hw.dinode, Node.mk.injEq, true_and]
    refine ⟨by omega, funext fun o => ?_⟩
    rw [hw.bytes]
    simp
  · rw [Function.update_of_ne hi]
    exact node_eq (by rw [hw.dinode]) fun o => by rw [hw.bytes, if_neg fun hc => hi hc.1]

/-- A write that makes the file longer, once the new size is stored. -/
theorem Written.wrote_longer {ip off n : Nat} {src : Nat → UInt8} {k k₁ k' : State}
    (hw : Written ip off n src k k₁)
    (hs : Stored ip { k₁.icopy ip with size := off + n } k₁ k') (h : Wf k)
    (hv : (k.icache ip).valid = true) (ht : (k.dinode ip).type.HasData)
    (hoff : off ≤ (k.dinode ip).size) (hmax : off + n ≤ MAXFILE * BSIZE)
    (hlong : (k.dinode ip).size < off + n) :
    Wrote ip ((k.node ip).write src off n) k k' := by
  have hcopy := h.coherent ip hv
  have hino₁ : k₁.ino ip = k₁.icopy ip := by simp [State.ino, hw.frame.icache, hv]
  have href := hs.ref_eq hw.owned (by rw [hino₁])
  have hbyte := hs.byteAt hw.owned (by rw [hino₁])
  obtain ⟨a, hfields⟩ := hw.fields
  have hdin : k'.dinode ip = { k.dinode ip with addrs := a, size := off + n } := by
    rw [hs.dinode, Function.update_self, hfields, hcopy]
  have hothers : ∀ i, i ≠ ip → k'.dinode i = k.dinode i := fun i hi => by
    rw [hs.dinode, Function.update_of_ne hi, hw.dinode]
  have hwf : Wf k' := by
    refine h.of_others ip (hw.owned.congr href hs.bitmap hs.frame) hothers
      ?_ ?_ ?_ ?_ ?_
    · intro i hi
      rw [hs.icopy, Function.update_of_ne hi, hw.others i hi]
    · intro i _
      rw [hs.frame.icache, hw.frame.icache]
    · intro i s hi
      rw [href, hw.elsewhere (i, s) hi]
    · intro _
      rw [hs.icopy, hs.dinode, Function.update_self, Function.update_self, hfields, hcopy]
      exact ⟨rfl, h.live ip hv⟩
    · intro _
      have hsize : (k'.dinode ip).size = off + n := by rw [hdin]
      rw [hsize]
      refine ⟨hmax, fun o hlo hhi => ?_⟩
      rw [href]
      by_cases hold : o < off
      · exact hw.toExtends.mapped (h.mapped ip ht o (Nat.zero_le _) (by omega))
      · exact hw.range o (by omega) (by omega)
  refine ⟨hw.frame.trans hs.frame, hwf, ?_, ?_, ?_, ?_, ?_⟩
  · funext i
    by_cases hi : i = ip
    · subst hi
      rw [Function.update_self]
      simp only [State.node, Node.write, hdin, Node.mk.injEq, true_and]
      refine ⟨by omega, funext fun o => ?_⟩
      rw [hbyte, hw.bytes]
      simp
    · rw [Function.update_of_ne hi]
      exact node_eq (hothers i hi) fun o => by
        rw [hbyte, hw.bytes, if_neg fun hc => hi hc.1]
  · rw [href]
    exact hw.keep
  · rw [href]
    exact hw.elsewhere
  · rw [hs.bitmap]
    exact hw.bits
  · rw [href, hs.bitmap]
    exact hw.taken

/-- **`writei`.**  A write that passes the checks returns `n` and replaces the
bytes it was given. -/
theorem writei_spec {k : State} {ip : Nat} {src : Nat → UInt8} {off n : Nat} (h : Wf k)
    (hv : (k.icache ip).valid = true) (ht : (k.dinode ip).type.HasData)
    (hoff : off ≤ (k.dinode ip).size) (hmax : off + n ≤ MAXFILE * BSIZE) :
    wp (writei ip src off n)
      (fun r k' => k'.starved = false → r = n ∧
        Wrote ip ((k.node ip).write src off n) k k') AllocStop k := by
  have hcopy := h.coherent ip hv
  have hdev : (k.dinode ip).type ≠ .dev := by
    rcases ht with ht | ht <;> rw [ht] <;> decide
  have hmod : (off + n) % UINT = off + n := Nat.mod_eq_of_lt (by
    simp only [MAXFILE, BSIZE, UINT] at *; omega)
  unfold writei
  rw [wp_bind, wp_get]
  simp only [hcopy, hdev, if_false, hmod]
  rw [if_neg (by omega), if_neg (by omega)]
  refine wp_bind_fed (writeLoop_spec h.owned hv hmax (Nat.le_refl _)) ?_ ?_
  · exact fun _ => .bind (growSize_frame ip _ _) fun _ => .pure _
  intro _ k₁ hw
  have hsize₁ : (k₁.icopy ip).size = (k.dinode ip).size := by
    obtain ⟨a, ha⟩ := hw.fields
    rw [ha, hcopy]
  rw [growSize, wp_bind, wp_bind, wp_get, wp_ite, hsize₁]
  constructor
  · rintro ⟨-, hlong⟩
    rw [wp_bind, wp_modify]
    refine wp_mono (iupdate_spec k₁ ip _) ?_ fun _ _ he _ => he
    intro _ k₂ hs
    rw [wp_pure]
    exact fun _ => ⟨rfl, hw.wrote_longer hs h hv ht hoff hmax hlong⟩
  · intro hshort
    rw [wp_pure, wp_pure]
    exact fun _ => ⟨rfl, hw.wrote_inside h hv ht (by omega)⟩

/-- A write that fails a check returns -1 and changes nothing. -/
theorem run_writei_error {k : State} {ip : Nat} {src : Nat → UInt8} {off n : Nat}
    (h : Wf k) (hv : (k.icache ip).valid = true) (ht : (k.dinode ip).type.HasData)
    (hbad : off > (k.dinode ip).size ∨ (off + n) % UINT < off ∨
      (off + n) % UINT > MAXFILE * BSIZE) :
    (writei ip src off n).run k = .ok (-1) k := by
  have hcopy := h.coherent ip hv
  have hdev : (k.dinode ip).type ≠ .dev := by
    rcases ht with ht | ht <;> rw [ht] <;> decide
  unfold writei
  rw [run_get_bind]
  simp only [hcopy, hdev, if_false]
  by_cases h1 : off > (k.dinode ip).size ∨ (off + n) % UINT < off
  · rw [if_pos h1, run_pure]
  · rw [if_neg h1, if_pos (by tauto), run_pure]

/-! ## Freeing an inode -/

/-- An inode after `itrunc`: no addresses, no size. -/
def Dinode.emptied (d : Dinode) : Dinode := { clearDirect d (NDIRECT + 1) with size := 0 }

theorem Dinode.emptied_addrs (d : Dinode) {s : Nat} (hs : s ≤ NDIRECT) :
    d.emptied.addrs s = 0 := by
  simp only [emptied, clearDirect]
  exact if_pos (by omega)

/-- What `itrunc` does: the inode holds no block, and exactly the bits of the
blocks it held were cleared. -/
structure Emptied (ip : Nat) (k k' : State) : Prop where
  frame : Frame k k'
  bits : ∀ b, k'.bitmap b = true ↔
    k.bitmap b = true ∧ ∀ t, k.ref (ip, t) ≠ 0 → k.ref (ip, t) ≠ b
  data : ∀ b, b < k.log.start → k'.data b = k.data b
  dinode : k'.dinode = Function.update k.dinode ip (k.icopy ip).emptied
  icopy : k'.icopy = Function.update k.icopy ip (k.icopy ip).emptied

/-- **`itrunc`.**  It cannot panic but in `log_write`: every `bfree` it makes
finds the bit set. -/
theorem itrunc_spec {k : State} {ip : Nat} (ho : Owned k)
    (hv : (k.icache ip).valid = true) :
    wp (itrunc ip) (fun _ k' => Emptied ip k k') (fun e _ => LogStop e) k := by
  unfold itrunc
  rw [wp_bind]
  refine wp_imp (truncDirect_spec ho hv) ?_
  rintro _ s₁ ⟨hf₁, hcopy₁⟩
  rw [wp_bind]
  refine wp_imp (truncIndirect_spec ho hv hf₁ hcopy₁) ?_
  rintro _ s₂ ⟨hf, hcopy⟩
  rw [wp_bind, wp_modify, hcopy]
  refine wp_imp (iupdate_spec s₂ ip _) ?_
  intro _ k' hs
  refine ⟨hf.frame.trans hs.frame, fun b => ?_, fun b hb => ?_, ?_, ?_⟩
  · rw [hs.bitmap, hf.bits]
    simp
  · rw [hs.data b (by rwa [hf.frame.start]), hf.data b hb]
  · rw [hs.dinode, hf.dinode]
    rfl
  · rw [hs.icopy]
    funext j
    by_cases hj : j = ip
    · rw [hj, Function.update_self, Function.update_self]
      rfl
    · rw [Function.update_of_ne hj, Function.update_of_ne hj, hf.others j hj]

/-- What giving up the last reference to an unlinked inode does. -/
structure Released (ip : Nat) (k k' : State) : Prop where
  frame : Frame (k.setEntry ip ⟨(k.icache ip).ref - 1, none, false⟩) k'
  wf : Wf k'
  node : k'.node = Function.update k.node ip
    { k.node ip with type := .free, size := 0, byte := fun _ => 0 }
  dropped : ∀ s, k'.ref (ip, s) = 0
  elsewhere : ∀ i s, i ≠ ip → k'.ref (i, s) = k.ref (i, s)
  bits : ∀ b, k'.bitmap b = true ↔
    k.bitmap b = true ∧ ∀ t, k.ref (ip, t) ≠ 0 → k.ref (ip, t) ≠ b

theorem Frame.setEntry {k k' : State} (h : Frame k k') (ip : Nat) (e : CacheEntry) :
    Frame (k.setEntry ip e) (k'.setEntry ip e) :=
  { sb := h.sb
    start := h.start
    size := h.size
    busy := h.busy
    icache := by simp only [State.setEntry, h.icache]
    ftable := h.ftable
    ptable := h.ptable
    cur := h.cur
    devsw := h.devsw
    devCalls := h.devCalls
    starved := h.starved
    allocs := h.allocs
    foreign := h.foreign }

/-- Freeing changes one cache entry and the disk, whatever the disk is like. -/
theorem iputFree_frame {k k' : State} {ip : Nat} (hrun : (iputFree ip).run k = .ok () k') :
    Frame (k.setEntry ip ⟨(k.icache ip).ref - 1, none, false⟩) k' := by
  unfold iputFree at hrun
  obtain ⟨_, k₁, htrunc, hrest⟩ := run_bind_eq_ok hrun
  rw [run_modify_bind] at hrest
  obtain ⟨_, k₂, hupdate, hlast⟩ := run_bind_eq_ok hrest
  have hf : Frame k k₂ := ((ok_of_wp ((itrunc_frame ip).wp k) htrunc).trans
    (frame_setCopy k₁ _ _)).trans (ok_of_wp ((iupdate_frame ip).wp _) hupdate)
  cases hlast
  rw [← hf.icache]
  exact hf.setEntry ip _

/-- **The freeing part of `iput`.** -/
theorem iputFree_spec {k : State} {ip : Nat} (h : Wf k)
    (hv : (k.icache ip).valid = true) :
    wp (iputFree ip) (fun _ k' => Released ip k k') (fun e _ => LogStop e) k := by
  have hcopy := h.coherent ip hv
  unfold iputFree
  rw [wp_bind]
  refine wp_imp (itrunc_spec h.owned hv) ?_
  intro _ k₁ he
  rw [wp_bind, wp_modify, wp_bind]
  refine wp_imp (iupdate_spec k₁ ip _) ?_
  intro _ k₂ hs
  rw [wp_modify, hs.frame.icache, he.frame.icache]
  rw [he.icopy, Function.update_self] at hs
  have hframe := (he.frame.trans hs.frame).setEntry ip ⟨(k.icache ip).ref - 1, none, false⟩
  generalize hk' : k₂.setEntry ip ⟨(k.icache ip).ref - 1, none, false⟩ = k' at hframe ⊢
  have hdin : k'.dinode = Function.update k.dinode ip
      { (k.icopy ip).emptied with type := .free } := by
    rw [← hk', State.setEntry_dinode, hs.dinode, he.dinode, Function.update_idem]
  have hicopy : k'.icopy = Function.update k.icopy ip
      { (k.icopy ip).emptied with type := .free } := by
    rw [← hk', State.setEntry_icopy, hs.icopy, he.icopy, Function.update_idem]
  have hcache : ∀ i, i ≠ ip → k'.icache i = k.icache i := fun i hi => by
    rw [hframe.icache, State.setEntry_of_ne _ _ hi]
  have hinvalid : (k'.icache ip).valid = false := by
    rw [hframe.icache, State.setEntry_self]
  have hdata : ∀ b, b < k.log.start → k'.data b = k.data b := fun b hb => by
    rw [← hk', State.setEntry_data, hs.data b (by rwa [he.frame.start]), he.data b hb]
  have hino : ∀ i, i ≠ ip → k'.ino i = k.ino i := fun i hi => by
    simp only [State.ino, hcache i hi, hicopy, hdin, Function.update_of_ne hi]
  have hino_ip : k'.ino ip = { (k.icopy ip).emptied with type := .free } := by
    simp [State.ino, hinvalid, hdin]
  obtain ⟨hdrop, hrest⟩ := ref_drop h.owned hino
    (fun s hs => by rw [hino_ip]; exact Dinode.emptied_addrs _ hs) hdata
  have hbits : ∀ b, k'.bitmap b = true ↔
      k.bitmap b = true ∧ ∀ t, k.ref (ip, t) ≠ 0 → k.ref (ip, t) ≠ b := fun b => by
    rw [← hk', State.setEntry_bitmap, hs.bitmap, he.bits]
  have howned := owned_drop h.owned hframe.sb hframe.start hframe.size hdrop hrest
    fun b hb hne => (hbits b).2 ⟨hb, hne⟩
  have hbyte := byteAt_drop h.owned hdrop hrest hdata
  refine ⟨hframe, ?_, ?_, hdrop, hrest, hbits⟩
  · refine h.of_others _ howned ?_ ?_ hcache hrest ?_ ?_
    · intro i hi
      rw [hdin, Function.update_of_ne hi]
    · intro i hi
      rw [hicopy, Function.update_of_ne hi]
    · simp [hinvalid]
    · rw [hdin, Function.update_self]
      simp [InodeType.HasData]
  · funext i
    by_cases hi : i = ip
    · subst hi
      rw [Function.update_self]
      simp only [State.node, hdin, Function.update_self, hcopy, Node.mk.injEq, true_and]
      refine ⟨rfl, rfl, rfl, rfl, funext fun o => ?_⟩
      rw [hbyte, if_pos rfl]
    · rw [Function.update_of_ne hi]
      exact node_eq (by rw [hdin, Function.update_of_ne hi]) fun o => by
        rw [hbyte, if_neg hi]

/-! ## Allocating an inode -/

/-- The cache entry after `iget`. -/
def CacheEntry.got (e : CacheEntry) : CacheEntry :=
  if 0 < e.ref then { e with ref := e.ref + 1 } else ⟨1, none, false⟩

theorem iget_spec (k : State) (i : Nat) :
    wp (iget i) (fun _ k' => k' = k.setEntry i (k.icache i).got)
      (fun e k' => e = .panic .igetNoInodes ∧ k' = k) k := by
  unfold iget CacheEntry.got
  rw [wp_bind, wp_get, wp_ite]
  refine ⟨fun h => ?_, fun h => ?_⟩
  · simp [h]
  · rw [wp_ite]
    simp [h, panic]

theorem firstFreeInode_some {dinode : Nat → Dinode} {n i c : Nat}
    (h : firstFreeInode dinode n i = some c) :
    i ≤ c ∧ c < i + n ∧ (dinode c).type = .free := by
  induction n generalizing i with
  | zero => simp [firstFreeInode] at h
  | succ n ih =>
      rw [firstFreeInode] at h
      split at h
      · rename_i hfree
        cases h
        exact ⟨Nat.le_refl _, by omega, hfree⟩
      · obtain ⟨h1, h2, h3⟩ := ih h
        exact ⟨by omega, by omega, h3⟩

/-- Allocating changes one cache entry and the disk, whatever the disk is like. -/
theorem ialloc_frame {k k' : State} {type : InodeType} {inum : Nat}
    (hrun : (ialloc type).run k = .ok inum k') :
    Frame (k.setEntry inum (k.icache inum).got) k' := by
  unfold ialloc at hrun
  rw [run_get_bind] at hrun
  split at hrun
  · cases hrun
  · rename_i c _
    rw [run_modify_bind] at hrun
    obtain ⟨_, k₁, hlog, hrest⟩ := run_bind_eq_ok hrun
    obtain ⟨_, k₂, hget, hret⟩ := run_bind_eq_ok hrest
    cases hret
    have hf : Frame k k₁ := by
      refine Frame.trans ?_ (ok_of_wp ((logWrite_frame _).wp _) hlog)
      exact { Frame.rfl k with allocs := ⟨[], by simp⟩ }
    rw [ok_of_wp (iget_spec k₁ inum) hget, hf.icache]
    exact hf.setEntry inum _

/-- What `ialloc` does. -/
structure Allocated (type : InodeType) (inum : Nat) (k k' : State) : Prop where
  first : firstFreeInode k.dinode (k.sb.ninodes - 1) 1 = some inum
  free : (k.dinode inum).type = .free
  pos : 1 ≤ inum
  lt : inum < k.sb.ninodes
  frame : Frame (k.setEntry inum (k.icache inum).got) k'
  wf : Wf k'
  node : k'.node = Function.update k.node inum ⟨type, 0, 0, 0, 0, fun _ => 0⟩
  dropped : ∀ s, k'.ref (inum, s) = 0
  elsewhere : ∀ i s, i ≠ inum → k'.ref (i, s) = k.ref (i, s)
  bitmap : k'.bitmap = k.bitmap

/-- How `ialloc` can stop. -/
def IallocStop (e : Stop) : Prop :=
  LogStop e ∨ e = .panic .iallocNoInodes ∨ e = .panic .igetNoInodes

theorem ialloc_spec {k : State} {type : InodeType} (h : Wf k) :
    wp (ialloc type) (fun inum k' => Allocated type inum k k') (fun e _ => IallocStop e) k := by
  unfold ialloc
  rw [wp_bind, wp_get]
  cases hff : firstFreeInode k.dinode (k.sb.ninodes - 1) 1 with
  | none => exact (wp_stop _).2 (.inr (.inl rfl))
  | some inum =>
      obtain ⟨hpos, hlt, hfree⟩ := firstFreeInode_some hff
      have hinvalid : (k.icache inum).valid = false := by
        cases hv : (k.icache inum).valid with
        | false => rfl
        | true => exact absurd hfree (h.live inum hv)
      simp only [wp_bind, wp_modify]
      refine wp_mono (logWrite_spec _ _) ?_ fun _ _ he => .inl he.1
      rintro _ k₁ rfl
      refine wp_mono (iget_spec _ _) ?_ fun _ _ he => .inr (.inr he.1)
      rintro _ k' hk'
      rw [wp_pure]
      have hframe : Frame (k.setEntry inum (k.icache inum).got) k' := by
        rw [hk']
        refine (Frame.trans ?_ (frame_logged _ _)).setEntry inum (k.icache inum).got
        exact { Frame.rfl k with allocs := ⟨[], by simp⟩ }
      have hdin : k'.dinode = Function.update k.dinode inum { Dinode.zero with type := type } := by
        rw [hk']
        rfl
      have hicopy : k'.icopy = k.icopy := by
        rw [hk']
        rfl
      have hbitmap : k'.bitmap = k.bitmap := by
        rw [hk']
        rfl
      have hdata : ∀ b, b < k.log.start → k'.data b = k.data b := by
        intro b hb
        rw [hk']
        exact data_logged _ _ hb
      have hcache : ∀ i, i ≠ inum → k'.icache i = k.icache i := fun i hi => by
        rw [hframe.icache, State.setEntry_of_ne _ _ hi]
      have hstale : (k'.icache inum).valid = false := by
        rw [hframe.icache, State.setEntry_self, CacheEntry.got]
        split
        · exact hinvalid
        · rfl
      have hino : ∀ i, i ≠ inum → k'.ino i = k.ino i := fun i hi => by
        simp only [State.ino, hcache i hi, hicopy, hdin, Function.update_of_ne hi]
      have hino_new : k'.ino inum = { Dinode.zero with type := type } := by
        simp [State.ino, hstale, hdin]
      obtain ⟨hdrop, hrest⟩ := ref_drop h.owned hino
        (fun s _ => by rw [hino_new]; rfl) hdata
      have howned := owned_drop h.owned hframe.sb hframe.start hframe.size hdrop hrest
        fun b hb _ => by rw [hbitmap]; exact hb
      have hbyte := byteAt_drop h.owned hdrop hrest hdata
      refine ⟨hff, hfree, hpos, by omega, hframe, ?_, ?_, hdrop, hrest, hbitmap⟩
      · refine h.of_others _ howned ?_ ?_ hcache hrest ?_ ?_
        · intro i hi
          rw [hdin, Function.update_of_ne hi]
        · intro i _
          rw [hicopy]
        · simp [hstale]
        · rw [hdin, Function.update_self]
          exact fun _ => ⟨Nat.zero_le _, fun o _ ho => by simp [Dinode.zero] at ho⟩
      · funext i
        by_cases hi : i = inum
        · subst hi
          rw [Function.update_self]
          simp only [State.node, hdin, Function.update_self, Dinode.zero, Node.mk.injEq, true_and]
          exact funext fun o => by rw [hbyte, if_pos rfl]
        · rw [Function.update_of_ne hi]
          exact node_eq (by rw [hdin, Function.update_of_ne hi]) fun o => by
            rw [hbyte, if_neg hi]

/-! ## What each way of returning means -/

section Returns

variable {k k' : State}

/-- Inodes have data, or are devices, or are free. -/
theorem InodeType.data_or_dev {t : InodeType} (hfree : t ≠ .free) : t.HasData ∨ t = .dev := by
  cases t with
  | free => exact absurd rfl hfree
  | dir => exact .inl (.inr rfl)
  | file => exact .inl (.inl rfl)
  | dev => exact .inr rfl

/-- A device is asked at most once and nothing else changes. -/
theorem readi_dev {ip off n : Nat} (ht : (k.icopy ip).type = .dev) :
    wp (readi ip off n) (fun _ k' => k' = k ∨ k' = { k with devCalls := k.devCalls + 1 })
      (fun _ _ => False) k := by
  unfold readi
  rw [wp_bind, wp_get]
  simp only [ht, if_true]
  split
  · exact (wp_pure _).2 (.inl rfl)
  · split
    · exact (wp_pure _).2 (.inl rfl)
    · rw [wp_bind, wp_modify]
      exact (wp_pure _).2 (.inr rfl)

theorem writei_dev {ip off n : Nat} {src : Nat → UInt8} (ht : (k.icopy ip).type = .dev) :
    wp (writei ip src off n) (fun _ k' => k' = k ∨ k' = { k with devCalls := k.devCalls + 1 })
      (fun _ _ => False) k := by
  unfold writei
  rw [wp_bind, wp_get]
  simp only [ht, if_true]
  split
  · exact (wp_pure _).2 (.inl rfl)
  · split
    · exact (wp_pure _).2 (.inl rfl)
    · rw [wp_bind, wp_modify]
      exact (wp_pure _).2 (.inr rfl)

/-- `readi` asks a device or moves within the block layer. -/
theorem readi_moves (k : State) (ip off n : Nat) :
    wp (readi ip off n) (fun _ k' => Frame k k' ∨ k' = { k with devCalls := k.devCalls + 1 })
      (fun _ k' => Frame k k') k := by
  by_cases ht : (k.icopy ip).type = .dev
  · refine wp_mono (readi_dev ht) ?_ fun _ _ h => h.elim
    rintro _ k' (rfl | rfl)
    · exact .inl (Frame.rfl _)
    · exact .inr rfl
  · unfold readi
    rw [wp_bind, wp_get]
    simp only [ht, if_false]
    split
    · exact (wp_pure _).2 (.inl (Frame.rfl _))
    · rw [wp_bind]
      refine wp_mono ((readLoop_frame ip _ _ _).wp k) ?_ fun _ _ h => h
      intro _ k' hf
      exact (wp_pure _).2 (.inl hf)

theorem writei_ok {ip off n : Nat} {src : Nat → UInt8} {r : Int}
    (hrun : (writei ip src off n).run k = .ok r k') :
    Frame k k' ∨ k' = { k with devCalls := k.devCalls + 1 } := by
  by_cases ht : (k.icopy ip).type = .dev
  · rcases ok_of_wp (writei_dev ht) hrun with rfl | rfl
    · exact .inl (Frame.rfl _)
    · exact .inr rfl
  · unfold writei at hrun
    rw [run_get_bind] at hrun
    simp only [ht, if_false] at hrun
    split at hrun
    · cases hrun
      exact .inl (Frame.rfl _)
    · split at hrun
      · cases hrun
        exact .inl (Frame.rfl _)
      · obtain ⟨_, k₁, hloop, hrest⟩ := run_bind_eq_ok hrun
        obtain ⟨_, k₂, hgrow, hret⟩ := run_bind_eq_ok hrest
        cases hret
        exact .inl ((ok_of_wp ((writeLoop_frame ip _ _ _ _).wp k) hloop).trans
          (ok_of_wp ((growSize_frame ip _ _).wp k₁) hgrow))

theorem ilock_ok {ip : Nat} (hrun : (ilock ip).run k = .ok () k') :
    (k.icache ip).busy = none ∧
      ((k.icache ip).valid = false → (k.dinode ip).type ≠ .free) ∧
      k' = { k with
        icache := Function.update k.icache ip ⟨(k.icache ip).ref, some k.cur, true⟩
        icopy := if (k.icache ip).valid then k.icopy
          else Function.update k.icopy ip (k.dinode ip) } := by
  unfold ilock at hrun
  rw [run_get_bind, run_ite] at hrun
  split at hrun
  · cases hrun
  · rw [run_ite] at hrun
    split at hrun
    · cases hrun
    · rename_i hb
      have hidle : (k.icache ip).busy = none := by simpa using hb
      rw [run_modify_bind, run_ite] at hrun
      cases hv : (k.icache ip).valid with
      | true =>
          simp only [hv, if_true, run_pure] at hrun
          cases hrun
          refine ⟨hidle, by simp, ?_⟩
          simp [State.setEntry, ← hv]
      | false =>
          simp only [hv, run_modify_bind, run_ite] at hrun
          simp only [State.setEntry, State.setCopy, Function.update_self,
            Function.update_idem] at hrun
          split at hrun
          · contradiction
          · split at hrun
            · cases hrun
            · rename_i hfree
              cases hrun
              exact ⟨hidle, fun _ => hfree, by simp⟩

theorem ilock_stop {ip : Nat} {e : Stop} (hrun : (ilock ip).run k = .fail e k') :
    (e = .panic .ilock ∧ (k.icache ip).ref < 1) ∨ (e = .blocked ∧ k' = k) ∨
      (e = .panic .ilockNoType ∧ (k.icache ip).valid = false ∧ (k.dinode ip).type = .free) := by
  unfold ilock at hrun
  rw [run_get_bind, run_ite] at hrun
  split at hrun
  · rename_i href
    cases hrun
    exact .inl ⟨rfl, href⟩
  · rw [run_ite] at hrun
    split at hrun
    · cases hrun
      exact .inr (.inl ⟨rfl, rfl⟩)
    · rw [run_modify_bind, run_ite] at hrun
      split at hrun
      · cases hrun
      · rename_i hv
        rw [run_modify_bind, run_ite] at hrun
        split at hrun
        · rename_i hfree
          cases hrun
          exact .inr (.inr ⟨rfl, by simpa using hv, hfree⟩)
        · cases hrun

theorem iunlock_ok {ip : Nat} (hrun : (iunlock ip).run k = .ok () k') :
    k' = k.setEntry ip { k.icache ip with busy := none } := by
  unfold iunlock at hrun
  rw [run_get_bind, run_ite] at hrun
  split at hrun
  · cases hrun
  · cases hrun
    rfl

theorem iputCheck_ok {ip : Nat} {r : Bool} (hrun : (iputCheck ip).run k = .ok r k') :
    (r = true ∧ ((k.icache ip).ref = 1 ∧ (k.icache ip).valid = true ∧ (k.icopy ip).nlink = 0) ∧
      (k.icache ip).busy = none ∧
      k' = k.setEntry ip { k.icache ip with busy := some k.cur }) ∨
    (r = false ∧
      ¬((k.icache ip).ref = 1 ∧ (k.icache ip).valid = true ∧ (k.icopy ip).nlink = 0) ∧
      k' = k.setEntry ip { k.icache ip with ref := (k.icache ip).ref - 1 }) := by
  unfold iputCheck at hrun
  rw [run_get_bind, run_ite] at hrun
  split at hrun
  · rename_i hlast
    rw [run_ite] at hrun
    split at hrun
    · cases hrun
    · rename_i hb
      cases hrun
      exact .inl ⟨rfl, hlast, by simpa using hb, rfl⟩
  · rename_i hlast
    cases hrun
    exact .inr ⟨rfl, hlast, rfl⟩

theorem iputCheck_stop {ip : Nat} {e : Stop} (hrun : (iputCheck ip).run k = .fail e k') :
    e = .panic .iputBusy ∧ k' = k := by
  unfold iputCheck at hrun
  rw [run_get_bind, run_ite] at hrun
  split at hrun
  · rw [run_ite] at hrun
    split at hrun
    · cases hrun
      exact ⟨rfl, rfl⟩
    · cases hrun
  · cases hrun

end Returns

end Xv6.Kernel
