import Xv6.Kernel.Ops

/-!
# Which blocks `balloc` hands out

`allocs` records every block that `balloc` has taken, also in a call that halted later.  A
function that allocates clears no bit, and a function that clears bits does not allocate;
so as long as the bits below the data region are set and some data block is free, the
blocks are data blocks.
-/

namespace Xv6.Kernel

open Xv6.Verified
open Exec

/-- The bits of the blocks in front of the data region are set. -/
def State.MetaMarked (k : State) : Prop := ∀ b, b < k.sb.dataStart → k.bitmap b = true

/-- What is taken between two states comes from the data region. -/
structure Drawn (k k' : State) : Prop where
  sb : k'.sb = k.sb
  start : k'.log.start = k.log.start
  fed : k'.starved = false → k.starved = false
  taken : k'.starved = false → k.MetaMarked → ∀ b, b ∈ k'.allocs → b ∈ k.allocs ∨ k.DataBlock b

/-- The same, and no bit is cleared. -/
structure Taking (k k' : State) : Prop where
  drawn : Drawn k k'
  bits : ∀ b, k.bitmap b = true → k'.bitmap b = true

/-- Nothing is taken. -/
structure NoTake (k k' : State) : Prop where
  sb : k'.sb = k.sb
  start : k'.log.start = k.log.start
  fed : k'.starved = false → k.starved = false
  allocs : k'.allocs = k.allocs

section Relations

variable {k k' : State}

theorem NoTake.drawn (h : NoTake k k') : Drawn k k' :=
  ⟨h.sb, h.start, h.fed, fun _ _ b hb => .inl (by rw [← h.allocs]; exact hb)⟩

instance : IsPreorder State NoTake where
  refl _ := ⟨rfl, rfl, id, rfl⟩
  trans _ _ _ h h' :=
    ⟨h'.sb.trans h.sb, h'.start.trans h.start, fun hs => h.fed (h'.fed hs),
      h'.allocs.trans h.allocs⟩

theorem Taking.trans {k₁ k₂ k₃ : State} (h : Taking k₁ k₂) (h' : Taking k₂ k₃) : Taking k₁ k₃ := by
  refine ⟨⟨h'.drawn.sb.trans h.drawn.sb, h'.drawn.start.trans h.drawn.start,
    fun hs => h.drawn.fed (h'.drawn.fed hs), fun hs hm b hb => ?_⟩, fun b hb =>
      h'.bits b (h.bits b hb)⟩
  have hm₂ : k₂.MetaMarked := by
    intro c hc
    rw [h.drawn.sb] at hc
    exact h.bits c (hm c hc)
  rcases h'.drawn.taken hs hm₂ b hb with hold | hdata
  · exact h.drawn.taken (h'.drawn.fed hs) hm b hold
  · right
    unfold State.DataBlock at hdata ⊢
    rw [h.drawn.sb, h.drawn.start] at hdata
    exact hdata

instance : IsPreorder State Taking where
  refl _ := ⟨⟨rfl, rfl, id, fun _ _ _ hb => .inl hb⟩, fun _ hb => hb⟩
  trans _ _ _ := Taking.trans

/-- A change that concerns neither the bitmap nor what has been taken. -/
theorem Taking.of_same (hsb : k'.sb = k.sb) (hstart : k'.log.start = k.log.start)
    (hstarved : k'.starved = k.starved) (hallocs : k'.allocs = k.allocs)
    (hbits : k'.bitmap = k.bitmap) : Taking k k' := by
  refine ⟨⟨hsb, hstart, fun hs => by rw [← hstarved]; exact hs, fun _ _ b hb => ?_⟩, fun b hb => ?_⟩
  · rw [hallocs] at hb
    exact .inl hb
  · rw [hbits]
    exact hb

theorem logWrite_taking (b : Nat) : Preserves Taking (logWrite b) :=
  .bind .get fun _ => .ite (.stop _) (.ite (.stop _)
    (.modify fun k => .of_same rfl (State.logged_start k b) rfl rfl rfl))

theorem bzero_taking (b : Nat) : Preserves Taking (bzero b) :=
  .bind (.modify fun _ => .of_same rfl rfl rfl rfl rfl) fun _ => logWrite_taking b

/-- The block that `balloc` picks. -/
theorem taking_first {b : Nat} (hfree : firstFree k.bitmap k.sb.size 0 = some b) :
    Taking k { k with
      starved := k.starved || k.dataFull
      bitmap := Function.update k.bitmap b true
      allocs := k.allocs ++ [b] } := by
  obtain ⟨-, -, hbit, hbefore⟩ := firstFree_some hfree
  refine ⟨⟨rfl, rfl, fun hs => (Bool.or_eq_false_iff.1 hs).1, fun hs hm c hc => ?_⟩, fun c hc => ?_⟩
  · rcases List.mem_append.1 hc with hc | hc
    · exact .inl hc
    · right
      obtain rfl := List.mem_singleton.1 hc
      have hfull : k.dataFull = false := (Bool.or_eq_false_iff.1 hs).2
      constructor
      · by_contra hlt
        rw [hm c (by omega)] at hbit
        cases hbit
      · by_contra hge
        unfold State.dataFull at hfull
        cases hff : firstFree k.bitmap (k.log.start - k.sb.dataStart) k.sb.dataStart with
        | none => simp [hff] at hfull
        | some d =>
            obtain ⟨hlow, hd, hclear, -⟩ := firstFree_some hff
            rw [hbefore d (Nat.zero_le _) (by omega)] at hclear
            cases hclear
  · by_cases hcb : c = b
    · exact hcb ▸ Function.update_self _ _ _
    · exact (Function.update_of_ne hcb _ _).trans hc

theorem balloc_taking : Preserves Taking balloc := by
  constructor
  intro k
  unfold balloc
  rw [wp_bind, wp_get, wp_bind, wp_modify]
  cases hfree : firstFree k.bitmap k.sb.size 0 with
  | none =>
      apply (wp_stop _).2
      refine ⟨⟨rfl, rfl, fun hs => (Bool.or_eq_false_iff.1 hs).1, fun _ _ b hb => .inl hb⟩,
        fun b hb => hb⟩
  | some b =>
      show wp (modify _ >>= _) _ _ _
      rw [wp_bind, wp_modify]
      have hfirst := taking_first hfree
      have hrest : Preserves Taking (do logWrite (k.sb.bblock b); bzero b; return b) :=
        .bind (logWrite_taking _) fun _ => .bind (bzero_taking b) fun _ => .pure b
      exact wp_mono (hrest.wp _) (fun _ _ h => hfirst.trans h) fun _ _ h => hfirst.trans h

theorem setAddr_taking (ip s b : Nat) : Preserves Taking (setAddr ip s b) :=
  .modify fun _ => .of_same rfl rfl rfl rfl rfl

theorem iupdate_taking (ip : Nat) : Preserves Taking (iupdate ip) :=
  .bind (.modify fun _ => .of_same rfl rfl rfl rfl rfl) fun _ => logWrite_taking _

theorem bmapDirect_taking (ip bn : Nat) : Preserves Taking (bmapDirect ip bn) :=
  .bind .get fun _ => .ite
    (.bind balloc_taking fun b => .bind (setAddr_taking ip bn b) fun _ => .pure b) (.pure _)

theorem bmapEntry_taking (ind j : Nat) : Preserves Taking (bmapEntry ind j) :=
  .bind .get fun _ => .ite (.bind balloc_taking fun b =>
    .bind (.modify fun _ => .of_same rfl rfl rfl rfl rfl) fun _ => .bind (logWrite_taking _)
      fun _ => .pure b) (.pure _)

theorem bmap_taking (ip bn : Nat) : Preserves Taking (bmap ip bn) :=
  .ite (bmapDirect_taking ip bn)
    (.ite (.bind (bmapDirect_taking ip _) fun ind => bmapEntry_taking ind _) (.stop _))

theorem writeLoop_taking (ip fuel : Nat) (src : Nat → UInt8) (off n : Nat) :
    Preserves Taking (writeLoop ip fuel src off n) := by
  induction fuel generalizing src off n with
  | zero => exact .pure ()
  | succ fuel ih =>
      exact .ite (.pure ()) (.bind (bmap_taking ip _) fun b =>
        .bind (.modify fun _ => .of_same rfl rfl rfl rfl rfl) fun _ => .bind (logWrite_taking b)
          fun _ => ih _ _ _)

theorem readLoop_taking (ip fuel off n : Nat) : Preserves Taking (readLoop ip fuel off n) := by
  induction fuel generalizing off n with
  | zero => exact .pure []
  | succ fuel ih =>
      exact .ite (.pure []) (.bind (bmap_taking ip _) fun b => .bind .get fun k =>
        .bind (ih _ _) fun _ => .pure _)

theorem growSize_taking (ip off n : Nat) : Preserves Taking (growSize ip off n) :=
  .bind .get fun _ => .ite (.bind (.modify fun _ => .of_same rfl rfl rfl rfl rfl)
    fun _ => iupdate_taking ip) (.pure ())

theorem readi_taking (ip off n : Nat) : Preserves Taking (readi ip off n) := by
  refine .bind .get fun k => .ite (.ite (.pure _) ?_) (.ite (.pure _)
    (.bind (readLoop_taking ip _ _ _) fun _ => .pure _))
  split
  · exact .pure _
  · exact .bind (.modify fun _ => .of_same rfl rfl rfl rfl rfl) fun _ => .pure _

theorem writei_taking (ip : Nat) (src : Nat → UInt8) (off n : Nat) :
    Preserves Taking (writei ip src off n) := by
  refine .bind .get fun k => .ite (.ite (.pure _) ?_) (.ite (.pure _) (.ite (.pure _)
    (.bind (writeLoop_taking ip _ _ _ _) fun _ => .bind (growSize_taking ip _ _) fun _ =>
      .pure _)))
  split
  · exact .pure _
  · exact .bind (.modify fun _ => .of_same rfl rfl rfl rfl rfl) fun _ => .pure _

/-! ## Functions that take nothing -/

theorem logWrite_noTake (b : Nat) : Preserves NoTake (logWrite b) :=
  .bind .get fun _ => .ite (.stop _) (.ite (.stop _)
    (.modify fun k => ⟨rfl, State.logged_start k b, id, rfl⟩))

theorem bfree_noTake (b : Nat) : Preserves NoTake (bfree b) :=
  .bind .get fun _ => .ite (.stop _)
    (.bind (.modify fun _ => ⟨rfl, rfl, id, rfl⟩) fun _ => logWrite_noTake _)

theorem setAddr_noTake (ip s b : Nat) : Preserves NoTake (setAddr ip s b) :=
  .modify fun _ => ⟨rfl, rfl, id, rfl⟩

theorem iupdate_noTake (ip : Nat) : Preserves NoTake (iupdate ip) :=
  .bind (.modify fun _ => ⟨rfl, rfl, id, rfl⟩) fun _ => logWrite_noTake _

theorem itrunc_noTake (ip : Nat) : Preserves NoTake (itrunc ip) := by
  have hdirect : Preserves NoTake (truncDirect ip) :=
    .loopTo (fun i => .bind .get fun _ => .ite (.pure ())
      (.bind (bfree_noTake _) fun _ => setAddr_noTake ip i 0)) _
  have hentries : ∀ a, Preserves NoTake (truncEntries a) := fun a =>
    .loopTo (fun _ => .ite (.pure ()) (bfree_noTake _)) _
  have hindirect : Preserves NoTake (truncIndirect ip) :=
    .bind .get fun _ => .ite (.pure ()) (.bind (hentries _) fun _ =>
      .bind (bfree_noTake _) fun _ => setAddr_noTake ip _ 0)
  exact .bind hdirect fun _ => .bind hindirect fun _ =>
    .bind (.modify fun _ => ⟨rfl, rfl, id, rfl⟩) fun _ => iupdate_noTake ip

theorem iput_noTake (ip : Nat) : Preserves NoTake (iput ip) := by
  have hcheck : Preserves NoTake (iputCheck ip) :=
    .bind .get fun _ => .ite (.ite (.stop _) (.bind (.modify fun _ => ⟨rfl, rfl, id, rfl⟩)
      fun _ => .pure _)) (.bind (.modify fun _ => ⟨rfl, rfl, id, rfl⟩) fun _ => .pure _)
  have hfree : Preserves NoTake (iputFree ip) :=
    .bind (itrunc_noTake ip) fun _ => .bind (.modify fun _ => ⟨rfl, rfl, id, rfl⟩) fun _ =>
      .bind (iupdate_noTake ip) fun _ => .modify fun _ => ⟨rfl, rfl, id, rfl⟩
  exact .bind hcheck fun _ => .ite hfree (.pure ())

theorem iget_noTake (inum : Nat) : Preserves NoTake (iget inum) :=
  .bind .get fun _ => .ite (.modify fun _ => ⟨rfl, rfl, id, rfl⟩)
    (.ite (.stop _) (.modify fun _ => ⟨rfl, rfl, id, rfl⟩))

theorem ialloc_noTake (type : InodeType) : Preserves NoTake (ialloc type) := by
  refine .bind .get fun k => ?_
  cases firstFreeInode k.dinode (k.sb.ninodes - 1) 1 with
  | none => exact .stop _
  | some inum =>
      exact .bind (.modify fun _ => ⟨rfl, rfl, id, rfl⟩) fun _ =>
        .bind (logWrite_noTake _) fun _ => .bind (iget_noTake inum) fun _ => .pure _

theorem ilock_noTake (ip : Nat) : Preserves NoTake (ilock ip) :=
  .bind .get fun _ => .ite (.stop _) (.ite (.stop _)
    (.bind (.modify fun _ => ⟨rfl, rfl, id, rfl⟩) fun _ => .ite (.pure _)
      (.bind (.modify fun _ => ⟨rfl, rfl, id, rfl⟩) fun _ => .ite (.stop _) (.pure _))))

/-- Every operation takes blocks from the data region only. -/
theorem Op.drawn (o : Op) : Preserves Drawn o.code := by
  have hnone : ∀ {α : Type} {m : K α}, Preserves NoTake m → Preserves Drawn m :=
    fun h => h.imp fun _ _ hk => hk.drawn
  have hsome : ∀ {α : Type} {m : K α}, Preserves Taking m → Preserves Drawn m :=
    fun h => h.imp fun _ _ hk => hk.drawn
  cases o with
  | beginTrans =>
      exact hnone (.bind .get fun _ => .ite (.stop _) (.modify fun _ => ⟨rfl, rfl, id, rfl⟩))
  | commitTrans => exact hnone (.modify fun _ => ⟨rfl, rfl, id, rfl⟩)
  | iget inum => exact hnone (iget_noTake inum)
  | ilock ip => exact hnone (ilock_noTake ip)
  | iunlock ip =>
      exact hnone (.bind .get fun _ => .ite (.stop _) (.modify fun _ => ⟨rfl, rfl, id, rfl⟩))
  | readi ip off n => exact hsome (.bind (readi_taking ip _ _) fun _ => .pure _)
  | writei ip src off n => exact hsome (.bind (writei_taking ip _ _ _) fun _ => .pure _)
  | iput ip => exact hnone (iput_noTake ip)
  | ialloc type => exact hnone (.bind (ialloc_noTake type) fun _ => .pure _)

end Relations

/-! ## Runs -/

/-- All blocks taken so far are data blocks of `k₀`. -/
def AllocsIn (k₀ k : State) : Prop := k.starved = false → ∀ b, b ∈ k.allocs → k₀.DataBlock b

section Runs

variable {k₀ k k' : State}

/-- One more operation, whether it returns or halts. -/
theorem Drawn.allocsIn (h : Drawn k k') (hsb : k.sb = k₀.sb) (hstart : k.log.start = k₀.log.start)
    (hwf : k.starved = false → Wf k) (hin : AllocsIn k₀ k) : AllocsIn k₀ k' := by
  intro hs b hb
  have hfed := h.fed hs
  rcases h.taken hs (hwf hfed).owned.marked b hb with hold | hdata
  · exact hin hfed b hold
  · unfold State.DataBlock at hdata ⊢
    rw [hsb, hstart] at hdata
    exact hdata

/-- A run takes data blocks. -/
theorem Steps.allocsIn (hs : Steps k₀ k) (h : Wf k₀) (hnone : k₀.allocs = []) :
    k.sb = k₀.sb ∧ k.log.start = k₀.log.start ∧ AllocsIn k₀ k := by
  induction hs with
  | refl =>
      refine ⟨rfl, rfl, fun _ b hb => ?_⟩
      rw [hnone] at hb
      cases hb
  | step o hpre hallowed hrun ih =>
      obtain ⟨hsb, hstart, hin⟩ := ih
      have hdrawn := ok_of_wp (o.drawn.wp _) hrun
      exact ⟨hdrawn.sb.trans hsb, hdrawn.start.trans hstart,
        hdrawn.allocsIn hsb hstart (fun hfed => hpre.wf h hfed) hin⟩

/-- The next operation does, even if it halts. -/
theorem Steps.next_allocsIn (hs : Steps k₀ k) (h : Wf k₀) (hnone : k₀.allocs = []) (o : Op) :
    wp o.code (fun _ k' => AllocsIn k₀ k') (fun _ k' => AllocsIn k₀ k') k := by
  obtain ⟨hsb, hstart, hin⟩ := hs.allocsIn h hnone
  have hwf : k.starved = false → Wf k := fun hfed => hs.wf h hfed
  exact wp_mono (o.drawn.wp k) (fun _ _ hd => hd.allocsIn hsb hstart hwf hin)
    fun _ _ hd => hd.allocsIn hsb hstart hwf hin

end Runs

/-! ## The block `balloc` returns -/

/-- The first clear bit. -/
theorem firstFree_eq {bm : Nat → Bool} {n b : Nat} (hlt : b < n) (hclear : bm b = false)
    (hset : ∀ c, c < b → bm c = true) : firstFree bm n 0 = some b := by
  cases hff : firstFree bm n 0 with
  | none =>
      rw [firstFree_none hff b (Nat.zero_le _) (by omega)] at hclear
      cases hclear
  | some c =>
      obtain ⟨-, -, hc, hbefore⟩ := firstFree_some hff
      rcases Nat.lt_trichotomy c b with h | h | h
      · rw [hset c h] at hc
        cases hc
      · rw [h]
      · rw [hbefore b (Nat.zero_le _) h] at hclear
        cases hclear

theorem run_logWrite {k : State} (hfull : ¬k.log.Full) (hbusy : k.log.busy ≠ none) (b : Nat) :
    (logWrite b).run k = .ok () (k.logged b) := by
  have hnone : ¬k.log.busy.isNone = true := by simpa using hbusy
  rw [logWrite, run_get_bind, run_ite, if_neg hfull, run_ite, if_neg hnone, run_modify]

/-- `balloc` in a transaction that has logged nothing returns the first clear bit. -/
theorem run_balloc {k : State} {b : Nat} (hfree : firstFree k.bitmap k.sb.size 0 = some b)
    (hlog : k.log.lh = []) (hsize : k.log.size = LOGSIZE) (hbusy : k.log.busy ≠ none) :
    balloc.run k = .ok b (({ k with
      starved := k.starved || k.dataFull
      bitmap := Function.update k.bitmap b true
      allocs := k.allocs ++ [b] }.logged (k.sb.bblock b)).setData b Block.zero |>.logged b) := by
  have hroom : ∀ l : Log, l.lh.length ≤ 1 → l.size = LOGSIZE → ¬l.Full := by
    rintro l hlen hl (hc | hc) <;> simp only [LOGSIZE] at * <;> omega
  have hone : (k.log.record (k.sb.bblock b)).lh.length ≤ 1 := by
    rw [Log.record, hlog, if_neg (by simp)]
    exact Nat.le_refl _
  obtain ⟨k₁, hk₁⟩ : ∃ k₁ : State, k₁ = { k with
      starved := k.starved || k.dataFull
      bitmap := Function.update k.bitmap b true
      allocs := k.allocs ++ [b] } := ⟨_, rfl⟩
  have hlog₁ : k₁.log = k.log := by rw [hk₁]
  have hrest : balloc.run k =
      (do logWrite (k.sb.bblock b); bzero b; return b : K Nat).run k₁ := by
    rw [hk₁]
    unfold balloc
    rw [run_get_bind, run_modify_bind, hfree]
    exact run_modify_bind _ _ _
  have hfirst : (logWrite (k.sb.bblock b)).run k₁ = .ok () (k₁.logged (k.sb.bblock b)) := by
    apply run_logWrite
    · rw [hlog₁]
      exact hroom _ (by simp [hlog]) hsize
    · rw [hlog₁]
      exact hbusy
  have hsecond : (bzero b).run (k₁.logged (k.sb.bblock b)) =
      .ok () (((k₁.logged (k.sb.bblock b)).setData b Block.zero).logged b) := by
    have hlog₂ : (k₁.logged (k.sb.bblock b)).log = k.log.record (k.sb.bblock b) := by
      rw [← hlog₁]
      rfl
    rw [bzero, run_modify_bind]
    apply run_logWrite
    · rw [State.setData_log, hlog₂]
      exact hroom _ hone ((Log.record_size _ _).trans hsize)
    · rw [State.setData_log, hlog₂, Log.record_busy]
      exact hbusy
  rw [hrest, run_bind_ok hfirst, run_bind_ok hsecond, run_pure, hk₁]

end Xv6.Kernel
