import Xv6.Kernel.Fs

/-!
# What the block layer leaves alone

`Frame k k'` collects what no function from `log_write` up to `readi` and
`writei` changes, and which way the recorded facts move.  It is a preorder, so
each function's lemma is an instance of `Preserves` put together from those of
the functions it calls.
-/

namespace Xv6.Kernel

open Xv6.Verified
open Exec

/-- The state outside the disk and the cached inodes is the same, and what has
been recorded stays recorded. -/
structure Frame (k k' : State) : Prop where
  sb : k'.sb = k.sb
  start : k'.log.start = k.log.start
  size : k'.log.size = k.log.size
  busy : k'.log.busy = k.log.busy
  icache : k'.icache = k.icache
  ftable : k'.ftable = k.ftable
  ptable : k'.ptable = k.ptable
  cur : k'.cur = k.cur
  devsw : k'.devsw = k.devsw
  devCalls : k'.devCalls = k.devCalls
  starved : k.starved = true → k'.starved = true
  allocs : ∃ bs, k'.allocs = k.allocs ++ bs
  foreign : k.log.busy = some k.cur → k'.foreign = k.foreign

namespace Frame

theorem rfl (k : State) : Frame k k where
  sb := Eq.refl _
  start := Eq.refl _
  size := Eq.refl _
  busy := Eq.refl _
  icache := Eq.refl _
  ftable := Eq.refl _
  ptable := Eq.refl _
  cur := Eq.refl _
  devsw := Eq.refl _
  devCalls := Eq.refl _
  starved := id
  allocs := ⟨[], by simp⟩
  foreign _ := Eq.refl _

theorem trans {k₁ k₂ k₃ : State} (h : Frame k₁ k₂) (h' : Frame k₂ k₃) : Frame k₁ k₃ where
  sb := h'.sb.trans h.sb
  start := h'.start.trans h.start
  size := h'.size.trans h.size
  busy := h'.busy.trans h.busy
  icache := h'.icache.trans h.icache
  ftable := h'.ftable.trans h.ftable
  ptable := h'.ptable.trans h.ptable
  cur := h'.cur.trans h.cur
  devsw := h'.devsw.trans h.devsw
  devCalls := h'.devCalls.trans h.devCalls
  starved hs := h'.starved (h.starved hs)
  allocs := by
    obtain ⟨bs, hbs⟩ := h.allocs
    obtain ⟨cs, hcs⟩ := h'.allocs
    exact ⟨bs ++ cs, by rw [hcs, hbs, List.append_assoc]⟩
  foreign hb := (h'.foreign (by rw [h.busy, h.cur, hb])).trans (h.foreign hb)

instance : IsPreorder State Frame where
  refl := rfl
  trans _ _ _ := trans

/-- A run that ends unstarved was never starved. -/
theorem fed {k k' : State} (h : Frame k k') (hs : k'.starved = false) :
    k.starved = false := by
  cases hk : k.starved with
  | false => exact Eq.refl _
  | true => simp [h.starved hk] at hs

end Frame

/-! ## One lemma for each function -/

theorem frame_logged (k : State) (b : Nat) : Frame k (k.logged b) :=
  { Frame.rfl k with
    start := by simp [State.logged]
    size := by simp [State.logged]
    busy := by simp [State.logged]
    allocs := ⟨[], by simp [State.logged]⟩
    foreign := fun h => by simp [State.logged, h] }

theorem logWrite_frame (b : Nat) : Preserves Frame (logWrite b) :=
  .bind .get fun _ => .ite (.stop _) (.ite (.stop _) (.modify fun k => frame_logged k b))

theorem frame_setData (k : State) (b : Nat) (c : Block) : Frame k (k.setData b c) :=
  { Frame.rfl k with allocs := ⟨[], by simp [State.setData]⟩ }

theorem bzero_frame (b : Nat) : Preserves Frame (bzero b) :=
  .bind (.modify fun k => frame_setData k b _) fun _ => logWrite_frame b

theorem balloc_frame : Preserves Frame balloc := by
  refine .bind .get fun k => .bind (.modify fun s => ?_) fun _ => ?_
  · exact { Frame.rfl s with
      starved := fun h => by simp [h]
      allocs := ⟨[], by simp⟩ }
  · cases firstFree k.bitmap k.sb.size 0 with
    | none => exact .stop _
    | some b =>
        refine .bind (.modify fun s => ?_) fun _ =>
          .bind (logWrite_frame _) fun _ => .bind (bzero_frame b) fun _ => .pure b
        exact { Frame.rfl s with allocs := ⟨[b], Eq.refl _⟩ }

theorem bfree_frame (b : Nat) : Preserves Frame (bfree b) :=
  .bind .get fun _ => .ite (.stop _)
    (.bind (.modify fun k => { Frame.rfl k with allocs := ⟨[], by simp⟩ })
      fun _ => logWrite_frame _)

theorem frame_setCopy (k : State) (ip : Nat) (d : Dinode) : Frame k (k.setCopy ip d) :=
  { Frame.rfl k with allocs := ⟨[], by simp [State.setCopy]⟩ }

theorem setAddr_frame (ip s b : Nat) : Preserves Frame (setAddr ip s b) :=
  .modify fun k => frame_setCopy k _ _

theorem iupdate_frame (ip : Nat) : Preserves Frame (iupdate ip) :=
  .bind (.modify fun k => { Frame.rfl k with allocs := ⟨[], by simp⟩ })
    fun _ => logWrite_frame _

theorem bumpNlink_frame (ip : Nat) (δ : Int) : Preserves Frame (bumpNlink ip δ) :=
  .bind (.modify fun k => frame_setCopy k _ _) fun _ => iupdate_frame ip

theorem initInode_frame (ip : Nat) (major minor : Int) :
    Preserves Frame (initInode ip major minor) :=
  .bind (.modify fun k => frame_setCopy k _ _) fun _ => iupdate_frame ip

theorem bmapDirect_frame (ip bn : Nat) : Preserves Frame (bmapDirect ip bn) :=
  .bind .get fun _ => .ite
    (.bind balloc_frame fun b => .bind (setAddr_frame ip bn b) fun _ => .pure b) (.pure _)

theorem bmapEntry_frame (ind j : Nat) : Preserves Frame (bmapEntry ind j) :=
  .bind .get fun _ => .ite (.bind balloc_frame fun b =>
    .bind (.modify fun k => frame_setData k ind _) fun _ => .bind (logWrite_frame _)
      fun _ => .pure b) (.pure _)

theorem bmap_frame (ip bn : Nat) : Preserves Frame (bmap ip bn) :=
  .ite (bmapDirect_frame ip bn)
    (.ite (.bind (bmapDirect_frame ip _) fun ind => bmapEntry_frame ind _) (.stop _))

theorem truncDirect_frame (ip : Nat) : Preserves Frame (truncDirect ip) :=
  .loopTo (fun i => .bind .get fun _ => .ite (.pure ())
    (.bind (bfree_frame _) fun _ => setAddr_frame ip i 0)) _

theorem truncEntries_frame (a : Block) : Preserves Frame (truncEntries a) :=
  .loopTo (fun _ => .ite (.pure ()) (bfree_frame _)) _

theorem truncIndirect_frame (ip : Nat) : Preserves Frame (truncIndirect ip) :=
  .bind .get fun _ => .ite (.pure ()) (.bind (truncEntries_frame _) fun _ =>
    .bind (bfree_frame _) fun _ => setAddr_frame ip _ 0)

theorem itrunc_frame (ip : Nat) : Preserves Frame (itrunc ip) :=
  .bind (truncDirect_frame ip) fun _ => .bind (truncIndirect_frame ip) fun _ =>
    .bind (.modify fun s => frame_setCopy s _ _) fun _ => iupdate_frame ip

theorem growSize_frame (ip off n : Nat) : Preserves Frame (growSize ip off n) :=
  .bind .get fun _ => .ite
    (.bind (.modify fun s => frame_setCopy s _ _) fun _ => iupdate_frame ip) (.pure ())

theorem writeLoop_frame (ip : Nat) (fuel : Nat) :
    ∀ src off n, Preserves Frame (writeLoop ip fuel src off n) := by
  induction fuel with
  | zero => exact fun _ _ _ => .pure ()
  | succ fuel ih =>
      intro src off n
      exact .ite (.pure ()) (.bind (bmap_frame ip _) fun b =>
        .bind (.modify fun k => frame_setData k b _) fun _ => .bind (logWrite_frame b)
          fun _ => ih _ _ _)

theorem readLoop_frame (ip : Nat) (fuel : Nat) :
    ∀ off n, Preserves Frame (readLoop ip fuel off n) := by
  induction fuel with
  | zero => exact fun _ _ => .pure []
  | succ fuel ih =>
      intro off n
      exact .ite (.pure []) (.bind (bmap_frame ip _) fun b => .bind .get fun k =>
        .bind (ih _ _) fun _ => .pure _)

end Xv6.Kernel
