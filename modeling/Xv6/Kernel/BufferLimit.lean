import Xv6.Kernel.Bio
import Xv6.Kernel.Ops
import Xv6.Kernel.WriteThrough
import Xv6.Verified.Cuts
import Mathlib.Data.Finset.Card

/-!
# `readi` and `writei` with `NBUF` buffers

The block and inode layers use the disk as the buffer cache shows it, as if `bread` always found a
buffer.  There are `NBUF` of them.  `bget` does not recycle the ones that the process holds, nor the
dirty ones, which are those of the blocks in the open transaction, and halts the machine when there
is no other.  Here is `kernel/fs.c` once more, as far as `readi` and `writei` use it, with every
call of `bread` at its place.

`Shows.bget` relates this `bget` to the search in the ring of `kernel/bio.c`.  `Agrees` relates the
code to the one without the cache: both do the same, unless `bget` finds no buffer,
and it only does not if eight blocks have been logged already.  That the process never waits for a
buffer it holds itself is part of this.
-/

namespace Xv6.Kernel.Buffered

open Xv6.Verified
open Exec
open Bio (NBUF NODEV)

/-- Why the code halts: for a reason the block layer knows, without a buffer, or asleep until it
releases a buffer itself. -/
inductive Halt where
  | kernel (e : Stop)
  | noBuffers
  | ownBuffer
  deriving DecidableEq, Repr

/-- Kernel code over the buffer cache. -/
abbrev M := Exec Halt State

/-! ## The code -/

/-- `bget` of block `b` while the process holds `held` and `dirty` are to be written.  The buffers
of both stay; as long as there is another one, `b` is in it or it is recycled. -/
def bget (held dirty : List Nat) (b : Nat) : M Unit :=
  if b ∈ held then stop .ownBuffer
  else if b ∉ dirty ∧ NBUF ≤ (held ++ dirty).dedup.length then stop .noBuffers
  else pure ()

/-- `bread`: `log_write` has marked the blocks of the transaction dirty. -/
def bread (held : List Nat) (b : Nat) : M Unit := do
  let k ← get
  bget held k.log.lh b

/-- `log_write` of `b`, which is among the buffers held. -/
def logWrite (held : List Nat) (b : Nat) : M Unit := do
  let k ← get
  if k.log.Full then stop (.kernel (.panic .tooBigTransaction))
  else if k.log.busy.isNone then stop (.kernel (.panic .writeOutsideTrans))
  else do
    bread held (k.log.start + k.log.slot b + 1)
    modify fun k => k.logged b

/-- `bzero`. -/
def bzero (held : List Nat) (b : Nat) : M Unit := do
  bread held b
  modify fun k => k.setData b Block.zero
  logWrite (b :: held) b

/-- The first `n` blocks of the bitmap, one after the other. -/
def scanBitmap (held : List Nat) (n : Nat) : M Unit := do
  let k ← get
  loopTo (fun i => bread held (k.sb.bblock (i * BPB))) n

/-- `balloc`, from the superblock to the block it zeroes. -/
def balloc (held : List Nat) : M Nat := do
  let k ← get
  modify fun k => { k with starved := k.starved || k.dataFull }
  bread held 1
  match firstFree k.bitmap k.sb.size 0 with
  | none => do
      scanBitmap held ((k.sb.size + BPB - 1) / BPB)
      stop (.kernel (.panic .ballocOutOfBlocks))
  | some b => do
      scanBitmap held (b / BPB + 1)
      modify fun k =>
        { k with bitmap := Function.update k.bitmap b true, allocs := k.allocs ++ [b] }
      logWrite (k.sb.bblock b :: held) (k.sb.bblock b)
      bzero held b
      return b

/-- `iupdate`. -/
def iupdate (ip : Nat) : M Unit := do
  bread [] (iblock ip)
  modify fun k => { k with dinode := Function.update k.dinode ip (k.icopy ip) }
  logWrite [iblock ip] (iblock ip)

/-- `ip->addrs[s] = b`. -/
def setAddr (ip s b : Nat) : M Unit :=
  modify fun k =>
    k.setCopy ip { k.icopy ip with addrs := Function.update (k.icopy ip).addrs s b }

/-- The direct case of `bmap`. -/
def bmapDirect (ip bn : Nat) : M Nat := do
  let k ← get
  if (k.icopy ip).addrs bn = 0 then do
    let addr ← balloc []
    setAddr ip bn addr
    return addr
  else return (k.icopy ip).addrs bn

/-- The indirect case of `bmap`: the indirect block is held while `balloc` runs. -/
def bmapEntry (ind j : Nat) : M Nat := do
  bread [] ind
  let k ← get
  if (k.data ind).word j = 0 then do
    let addr ← balloc [ind]
    modify fun k => k.setData ind ((k.data ind).setWord j addr)
    logWrite [ind] ind
    return addr
  else return (k.data ind).word j

/-- `bmap`. -/
def bmap (ip bn : Nat) : M Nat :=
  if bn < NDIRECT then bmapDirect ip bn
  else if bn - NDIRECT < NINDIRECT then do
    let ind ← bmapDirect ip NDIRECT
    bmapEntry ind (bn - NDIRECT)
  else stop (.kernel (.panic .bmapOutOfRange))

/-- The transfer loop of `readi`. -/
def readLoop (ip : Nat) : Nat → Nat → Nat → M (List UInt8)
  | 0, _, _ => return []
  | fuel + 1, off, n =>
      if n = 0 then return []
      else do
        let b ← bmap ip (off / BSIZE)
        bread [] b
        let k ← get
        let m := min n (BSIZE - off % BSIZE)
        let rest ← readLoop ip fuel (off + m) (n - m)
        return (List.range m).map (fun o => k.data b (off % BSIZE + o)) ++ rest

/-- `readi`. -/
def readi (ip off n : Nat) : M (Option (List UInt8)) := do
  let k ← get
  let d := k.icopy ip
  if d.type = .dev then
    if d.major < 0 ∨ NDEV ≤ d.major then return none
    else
      match (k.devsw d.major.toNat).read with
      | none => return none
      | some f => do
          modify fun k => { k with devCalls := k.devCalls + 1 }
          return f k.devCalls n
  else if off > d.size ∨ (off + n) % UINT < off then return none
  else do
    let n := if (off + n) % UINT > d.size then d.size - off else n
    let bytes ← readLoop ip n off n
    return some bytes

/-- The transfer loop of `writei`. -/
def writeLoop (ip : Nat) : Nat → (Nat → UInt8) → Nat → Nat → M Unit
  | 0, _, _, _ => return ()
  | fuel + 1, src, off, n =>
      if n = 0 then return ()
      else do
        let b ← bmap ip (off / BSIZE)
        bread [] b
        let m := min n (BSIZE - off % BSIZE)
        modify fun k => k.setData b ((k.data b).copyIn (off % BSIZE) m src)
        logWrite [b] b
        writeLoop ip fuel (fun o => src (o + m)) (off + m) (n - m)

/-- The end of `writei`. -/
def growSize (ip off n : Nat) : M Unit := do
  let k ← get
  if n > 0 ∧ off > (k.icopy ip).size then do
    modify fun k => k.setCopy ip { k.icopy ip with size := off }
    iupdate ip
  else pure ()

/-- `writei`. -/
def writei (ip : Nat) (src : Nat → UInt8) (off n : Nat) : M Int := do
  let k ← get
  let d := k.icopy ip
  if d.type = .dev then
    if d.major < 0 ∨ NDEV ≤ d.major then return -1
    else
      match (k.devsw d.major.toNat).write with
      | none => return -1
      | some f => do
          modify fun k => { k with devCalls := k.devCalls + 1 }
          return f k.devCalls n
  else if off > d.size ∨ (off + n) % UINT < off then return -1
  else if (off + n) % UINT > MAXFILE * BSIZE then return -1
  else do
    writeLoop ip n src off n
    growSize ip (off + n) n
    return n

/-- The buffers that `commit_trans` asks for: the header block, then each log block and the block it
is copied to, and the header block again.  A block that has been copied is dirty no more. -/
def installTrans : M Unit := do
  let k ← get
  if k.log.lh = [] then pure ()
  else do
    bget [] k.log.lh k.log.start
    loopTo (fun tail => do
      bget [] (k.log.lh.drop tail) (k.log.start + tail + 1)
      bget [k.log.start + tail + 1] (k.log.lh.drop tail) (k.log.lh.getD tail 0)) k.log.lh.length
    bget [] [] k.log.start

/-- `begin_trans`. -/
def beginTrans : M Unit := Kernel.beginTrans.lift .kernel

/-- `commit_trans`. -/
def commitTrans : M Unit := do
  installTrans
  Kernel.commitTrans.lift .kernel

/-! ## The ring of buffers -/

/-- The blocks of device `dev` in the cache: those in `held` are in busy buffers and those in
`dirty` in dirty ones, and no other device has such buffers. -/
structure Shows (s : Bio.State) (dev : Nat) (held dirty : List Nat) : Prop where
  known : dev ≠ NODEV
  busy : ∀ x, x ∈ held ↔ ∃ b < NBUF, (s.buf b).busy = true ∧ (s.buf b).key = (dev, x)
  pinned : ∀ x, x ∈ dirty ↔ ∃ b < NBUF, (s.buf b).dirty = true ∧ (s.buf b).key = (dev, x)
  device : ∀ b < NBUF, (s.buf b).busy = true ∨ (s.buf b).dirty = true → (s.buf b).key.1 = dev

section Search

variable {s : Bio.State} {dev : Nat} {held dirty : List Nat}

/-- As many blocks are held or dirty as buffers are busy or dirty. -/
theorem Shows.count (h : Shows s dev held dirty) (hinv : Bio.Inv s) :
    NBUF ≤ (held ++ dirty).dedup.length ↔
      ∀ b < NBUF, (s.buf b).busy = true ∨ (s.buf b).dirty = true := by
  have hblocks : (held ++ dirty).toFinset = ((Finset.range NBUF).filter fun b =>
      (s.buf b).busy = true ∨ (s.buf b).dirty = true).image fun b => (s.buf b).key.2 := by
    ext x
    simp only [List.mem_toFinset, List.mem_append, h.busy, h.pinned, Finset.mem_image,
      Finset.mem_filter, Finset.mem_range]
    constructor
    · rintro (⟨b, hb, hbusy, hkey⟩ | ⟨b, hb, hdirty, hkey⟩)
      · exact ⟨b, ⟨hb, .inl hbusy⟩, by rw [hkey]⟩
      · exact ⟨b, ⟨hb, .inr hdirty⟩, by rw [hkey]⟩
    · rintro ⟨b, ⟨hb, hflags⟩, rfl⟩
      have hkey : (s.buf b).key = (dev, (s.buf b).key.2) := by rw [← h.device b hb hflags]
      exact hflags.imp (fun hbusy => ⟨b, hb, hbusy, hkey⟩) fun hdirty => ⟨b, hb, hdirty, hkey⟩
  have hinj : Set.InjOn (fun b => (s.buf b).key.2) ((Finset.range NBUF).filter fun b =>
      (s.buf b).busy = true ∨ (s.buf b).dirty = true) := by
    intro b hb c hc heq
    simp only [Finset.mem_coe, Finset.mem_filter, Finset.mem_range] at hb hc
    have hdev := (h.device b hb.1 hb.2).trans (h.device c hc.1 hc.2).symm
    have hknown : (s.buf b).key.1 ≠ NODEV := by
      rw [h.device b hb.1 hb.2]
      exact h.known
    exact hinv.unique b c hb.1 hc.1 (Prod.ext hdev heq) hknown
  rw [← List.card_toFinset, hblocks, Finset.card_image_of_injOn hinj]
  have hle := Finset.card_filter_le (Finset.range NBUF) fun b =>
    (s.buf b).busy = true ∨ (s.buf b).dirty = true
  rw [Finset.card_range] at hle
  constructor
  · intro hfull b hb
    have hcard := le_antisymm hle hfull
    exact Finset.card_filter_eq_iff.1 (hcard.trans (Finset.card_range NBUF).symm) b
      (Finset.mem_range.2 hb)
  · intro hall
    rw [Finset.filter_true_of_mem fun b hb => hall b (Finset.mem_range.1 hb), Finset.card_range]

/-- `bget` on the lists is `bget` on the ring: it halts where the ring's panics or puts the process
to sleep. -/
theorem Shows.bget (h : Shows s dev held dirty) (hinv : Bio.Inv s) (p x : Nat) (k : State) :
    (bget held dirty x).run k = match (Bio.bget p (dev, x)).run s with
      | .ok (some _) _ => .ok () k
      | .ok none _ => .fail .ownBuffer k
      | .fail _ _ => .fail .noBuffers k := by
  unfold Buffered.bget
  cases hrun : (Bio.bget p (dev, x)).run s with
  | ok r s' =>
      cases hinv.got hrun with
      | @cached b hb hkey hfree =>
          have hnot : x ∉ held := by
            intro hx
            obtain ⟨c, hc, hbusy, hckey⟩ := (h.busy x).1 hx
            rw [hinv.unique b c hb hc (hkey.trans hckey.symm) (by rw [hkey]; exact h.known),
              hbusy] at hfree
            cases hfree
          rw [if_neg hnot, if_neg]
          · rfl
          · rintro ⟨hclean, hfull⟩
            have hflags := (h.count hinv).1 hfull b hb
            rw [hfree] at hflags
            exact hclean ((h.pinned x).2 ⟨b, hb, by simpa using hflags, hkey⟩)
      | @sleeps b hb hkey hbusy =>
          rw [if_pos ((h.busy x).2 ⟨b, hb, hbusy, hkey⟩)]
          rfl
      | @recycled b hb hnone hfree hclean =>
          rw [if_neg, if_neg]
          · rfl
          · rintro ⟨-, hfull⟩
            have hflags := (h.count hinv).1 hfull b hb
            rw [hfree, hclean] at hflags
            simp at hflags
          · intro hx
            obtain ⟨c, hc, -, hckey⟩ := (h.busy x).1 hx
            exact hnone c hc hckey
  | fail e s' =>
      obtain ⟨hnone, hall⟩ := hinv.full hrun
      have hheld : x ∉ held := by
        intro hx
        obtain ⟨c, hc, -, hckey⟩ := (h.busy x).1 hx
        exact hnone c hc hckey
      have hdirty : x ∉ dirty := by
        intro hx
        obtain ⟨c, hc, -, hckey⟩ := (h.pinned x).1 hx
        exact hnone c hc hckey
      rw [if_neg hheld, if_pos ⟨hdirty, (h.count hinv).2 hall⟩]
      rfl

end Search

/-! ## Halting without a buffer -/

/-- The transaction has eight blocks, and `bget` finds no buffer. -/
def Short (e : Halt) (k : State) : Prop :=
  k.starved = false → e = .noBuffers ∧ 8 ≤ k.log.lh.length

/-- The transaction grows. -/
def Logs (k k' : State) : Prop := k.log.lh.length ≤ k'.log.lh.length

instance : IsPreorder State Logs where
  refl _ := Nat.le_refl _
  trans _ _ _ h h' := Nat.le_trans h h'

/-- The code with the cache does what the code without does, or halts without a buffer. -/
abbrev Agrees {α : Type} (R : State → State → Prop) (m : M α) (m' : K α) (k : State) : Prop :=
  CutsAt Halt.kernel R Short m m' k

/-- A test that leaves the state alone and halts only without a buffer. -/
def Checks (c : M Unit) (k : State) : Prop :=
  c.run k = .ok () k ∨ ∃ e, c.run k = .fail e k ∧ Short e k

section Checks

variable {k : State} {held dirty : List Nat} {b : Nat}

theorem Checks.pure : Checks (Pure.pure ()) k := .inl rfl

theorem checks_bget (hb : k.starved = false → b ∉ held) (hheld : held.length ≤ 2)
    (hdirty : dirty.length ≤ k.log.lh.length) : Checks (bget held dirty b) k := by
  unfold Checks bget
  split
  · exact .inr ⟨_, rfl, fun hs => absurd ‹_› (hb hs)⟩
  · split
    · rename_i hfull
      refine .inr ⟨_, rfl, fun _ => ⟨rfl, ?_⟩⟩
      have hdedup := (List.dedup_sublist (held ++ dirty)).length_le
      have hlen : (held ++ dirty).length = held.length + dirty.length := List.length_append
      have hnbuf : NBUF ≤ (held ++ dirty).dedup.length := hfull.2
      simp only [NBUF] at hnbuf
      omega
    · exact .inl rfl

theorem checks_bread (hb : k.starved = false → b ∉ held) (hheld : held.length ≤ 2) :
    Checks (bread held b) k :=
  checks_bget hb hheld (Nat.le_refl _)

theorem Checks.bind {c : M Unit} {d : Unit → M Unit} (hc : Checks c k) (hd : Checks (d ()) k) :
    Checks (c >>= d) k := by
  rcases hc with hok | ⟨e, hfail, he⟩
  · unfold Checks
    rw [run_bind_ok hok]
    exact hd
  · exact .inr ⟨e, run_bind_fail hfail, he⟩

theorem Checks.loopTo {c : Nat → M Unit} {n : Nat} (hc : ∀ i < n, Checks (c i) k) :
    Checks (Exec.loopTo c n) k := by
  induction n with
  | zero => exact .pure
  | succ n ih => exact (ih fun i hi => hc i (by omega)).bind (hc n (by omega))

theorem Checks.ite {p : Prop} [Decidable p] {c d : M Unit} (hc : p → Checks c k)
    (hd : ¬p → Checks d k) : Checks (if p then c else d) k := by
  split
  · exact hc ‹_›
  · exact hd ‹_›

/-- A test may be put in front. -/
theorem Checks.agrees {α : Type} {R : State → State → Prop} {F : Halt → State → Prop} {c : M Unit}
    {m : Unit → M α} {m' : K α} (hc : Checks c k) (hF : ∀ e, Short e k → F e k)
    (hfinal : R k (Final m' k)) (h : CutsAt Halt.kernel R F (m ()) m' k) :
    CutsAt Halt.kernel R F (c >>= m) m' k := by
  rcases hc with hok | ⟨e, hfail, he⟩
  · unfold CutsAt
    rw [run_bind_ok hok]
    exact h
  · exact .inr ⟨e, k, run_bind_fail hfail, hF e he, hfinal⟩

end Checks

/-! ## Transactions grow -/

theorem logged_logs (k : State) (b : Nat) : Logs k (k.logged b) := by
  show k.log.lh.length ≤ (k.log.record b).lh.length
  unfold Log.record
  split
  · exact Nat.le_refl _
  · simp

theorem logWrite_logs (b : Nat) : Preserves Logs (Kernel.logWrite b) :=
  .bind .get fun _ => .ite (.stop _) (.ite (.stop _) (.modify fun k => logged_logs k b))

theorem bzero_logs (b : Nat) : Preserves Logs (Kernel.bzero b) :=
  .bind (.modify fun _ => Nat.le_refl _) fun _ => logWrite_logs b

theorem balloc_logs : Preserves Logs Kernel.balloc := by
  refine .bind .get fun k => .bind (.modify fun _ => Nat.le_refl _) fun _ => ?_
  split
  · exact .stop _
  · exact .bind (.modify fun _ => Nat.le_refl _) fun _ => .bind (logWrite_logs _) fun _ =>
      .bind (bzero_logs _) fun _ => .pure _

theorem iupdate_logs (ip : Nat) : Preserves Logs (Kernel.iupdate ip) :=
  .bind (.modify fun _ => Nat.le_refl _) fun _ => logWrite_logs _

theorem bmapDirect_logs (ip bn : Nat) : Preserves Logs (Kernel.bmapDirect ip bn) :=
  .bind .get fun _ => .ite (.bind balloc_logs fun _ =>
    .bind (.modify fun _ => Nat.le_refl _) fun _ => .pure _) (.pure _)

theorem bmapEntry_logs (ind j : Nat) : Preserves Logs (Kernel.bmapEntry ind j) :=
  .bind .get fun _ => .ite (.bind balloc_logs fun _ => .bind (.modify fun _ => Nat.le_refl _)
    fun _ => .bind (logWrite_logs _) fun _ => .pure _) (.pure _)

theorem bmap_logs (ip bn : Nat) : Preserves Logs (Kernel.bmap ip bn) :=
  .ite (bmapDirect_logs ip bn) (.ite (.bind (bmapDirect_logs ip _) fun _ => bmapEntry_logs _ _)
    (.stop _))

theorem readLoop_logs (ip fuel off n : Nat) : Preserves Logs (Kernel.readLoop ip fuel off n) := by
  induction fuel generalizing off n with
  | zero => exact .pure _
  | succ fuel ih =>
      exact .ite (.pure _) (.bind (bmap_logs ip _) fun _ => .bind .get fun _ =>
        .bind (ih _ _) fun _ => .pure _)

theorem writeLoop_logs (ip fuel : Nat) (src : Nat → UInt8) (off n : Nat) :
    Preserves Logs (Kernel.writeLoop ip fuel src off n) := by
  induction fuel generalizing src off n with
  | zero => exact .pure _
  | succ fuel ih =>
      exact .ite (.pure _) (.bind (bmap_logs ip _) fun _ => .bind (.modify fun _ => Nat.le_refl _)
        fun _ => .bind (logWrite_logs _) fun _ => ih _ _ _)

theorem growSize_logs (ip off n : Nat) : Preserves Logs (Kernel.growSize ip off n) :=
  .bind .get fun _ => .ite (.bind (.modify fun _ => Nat.le_refl _) fun _ => iupdate_logs ip)
    (.pure _)

/-! ## What `balloc` records stays -/

section Fed

theorem bget_fed (held dirty : List Nat) (b : Nat) : Preserves Fed (bget held dirty b) :=
  .ite (.stop _) (.ite (.stop _) (.pure _))

theorem bread_fed (held : List Nat) (b : Nat) : Preserves Fed (bread held b) :=
  .bind .get fun _ => bget_fed held _ b

theorem logWrite_fed (held : List Nat) (b : Nat) : Preserves Fed (logWrite held b) :=
  .bind .get fun _ => .ite (.stop _) (.ite (.stop _) (.bind (bread_fed held _) fun _ =>
    .modify fun _ h => h))

theorem bzero_fed (held : List Nat) (b : Nat) : Preserves Fed (bzero held b) :=
  .bind (bread_fed held b) fun _ => .bind (.modify fun _ h => h) fun _ => logWrite_fed _ b

theorem scanBitmap_fed (held : List Nat) (n : Nat) : Preserves Fed (scanBitmap held n) :=
  .bind .get fun _ => .loopTo (fun _ => bread_fed held _) n

theorem balloc_fed (held : List Nat) : Preserves Fed (balloc held) := by
  refine .bind .get fun k => .bind (.modify fun _ h => (Bool.or_eq_false_iff.1 h).1) fun _ =>
    .bind (bread_fed held 1) fun _ => ?_
  split
  · exact .bind (scanBitmap_fed held _) fun _ => .stop _
  · exact .bind (scanBitmap_fed held _) fun _ => .bind (.modify fun _ h => h) fun _ =>
      .bind (logWrite_fed _ _) fun _ => .bind (bzero_fed held _) fun _ => .pure _

theorem bmapDirect_fed (ip bn : Nat) : Preserves Fed (bmapDirect ip bn) :=
  .bind .get fun _ => .ite (.bind (balloc_fed []) fun _ => .bind (.modify fun _ h => h) fun _ =>
    .pure _) (.pure _)

theorem bmapEntry_fed (ind j : Nat) : Preserves Fed (bmapEntry ind j) :=
  .bind (bread_fed [] ind) fun _ => .bind .get fun _ => .ite (.bind (balloc_fed [ind]) fun _ =>
    .bind (.modify fun _ h => h) fun _ => .bind (logWrite_fed _ ind) fun _ => .pure _) (.pure _)

theorem bmap_fed (ip bn : Nat) : Preserves Fed (bmap ip bn) :=
  .ite (bmapDirect_fed ip bn) (.ite (.bind (bmapDirect_fed ip _) fun _ => bmapEntry_fed _ _)
    (.stop _))

theorem readLoop_fed (ip fuel off n : Nat) : Preserves Fed (readLoop ip fuel off n) := by
  induction fuel generalizing off n with
  | zero => exact .pure _
  | succ fuel ih =>
      exact .ite (.pure _) (.bind (bmap_fed ip _) fun b => .bind (bread_fed [] b) fun _ =>
        .bind .get fun _ => .bind (ih _ _) fun _ => .pure _)

theorem writeLoop_fed (ip fuel : Nat) (src : Nat → UInt8) (off n : Nat) :
    Preserves Fed (writeLoop ip fuel src off n) := by
  induction fuel generalizing src off n with
  | zero => exact .pure _
  | succ fuel ih =>
      exact .ite (.pure _) (.bind (bmap_fed ip _) fun b => .bind (bread_fed [] b) fun _ =>
        .bind (.modify fun _ h => h) fun _ => .bind (logWrite_fed _ b) fun _ => ih _ _ _)

theorem growSize_fed (ip off n : Nat) : Preserves Fed (growSize ip off n) :=
  .bind .get fun _ => .ite (.bind (.modify fun _ h => h) fun _ => .bind (bread_fed [] _) fun _ =>
    .bind (.modify fun _ h => h) fun _ => logWrite_fed _ _) (.pure _)

theorem readi_fed (ip off n : Nat) : Preserves Fed (readi ip off n) := by
  refine .bind .get fun k => .ite (.ite (.pure _) ?_) (.ite (.pure _)
    (.bind (readLoop_fed ip _ _ _) fun _ => .pure _))
  cases (k.devsw (k.icopy ip).major.toNat).read with
  | none => exact .pure _
  | some f => exact .bind (.modify fun _ h => h) fun _ => .pure _

theorem writei_fed (ip : Nat) (src : Nat → UInt8) (off n : Nat) :
    Preserves Fed (writei ip src off n) := by
  refine .bind .get fun k => .ite (.ite (.pure _) ?_) (.ite (.pure _) (.ite (.pure _)
    (.bind (writeLoop_fed ip _ _ _ _) fun _ => .bind (growSize_fed ip _ _) fun _ => .pure _)))
  cases (k.devsw (k.icopy ip).major.toNat).write with
  | none => exact .pure _
  | some f => exact .bind (.modify fun _ h => h) fun _ => .pure _

theorem installTrans_fed : Preserves Fed installTrans :=
  .bind .get fun _ => .ite (.pure _) (.bind (bget_fed _ _ _) fun _ =>
    .bind (.loopTo (fun _ => .bind (bget_fed _ _ _) fun _ => bget_fed _ _ _) _) fun _ =>
      bget_fed _ _ _)

end Fed

/-! ## Agreement, function by function -/

section Agree

variable {k : State} {held : List Nat} {b : Nat}

/-- A `bread` may be put in front of code that only lets the transaction grow. -/
theorem agrees_bread {α : Type} {m : Unit → M α} {m' : K α}
    (hb : k.starved = false → b ∉ held) (hheld : held.length ≤ 2) (hkeep : Preserves Logs m')
    (h : Agrees Logs (m ()) m' k) : Agrees Logs (bread held b >>= m) m' k :=
  (checks_bread hb hheld).agrees (fun _ he => he) (hkeep.final k) h

/-- The log block is none of the blocks held, as these are below the log. -/
theorem logWrite_agrees (hlow : k.starved = false → ∀ x ∈ held, x < k.log.start)
    (hheld : held.length ≤ 2) (b : Nat) :
    Agrees Logs (logWrite held b) (Kernel.logWrite b) k := by
  refine .get_bind (.ite (fun _ => .stop _) fun _ => .ite (fun _ => .stop _) fun _ => ?_)
  refine (checks_bread (fun hs hmem => ?_) hheld).agrees (fun _ he => he) ?_ (.modify _)
  · have hlt := hlow hs _ hmem
    omega
  · exact logged_logs k b

theorem bzero_agrees (hb : k.starved = false → b ∉ held)
    (hlow : k.starved = false → ∀ x ∈ b :: held, x < k.log.start) (hheld : held.length ≤ 1) :
    Agrees Logs (bzero held b) (Kernel.bzero b) k := by
  refine agrees_bread hb (by omega) (bzero_logs b) (.modify_bind ?_)
  exact logWrite_agrees (k := k.setData b Block.zero) hlow (by simpa using hheld) b

/-- The blocks of the bitmap are below the data region. -/
theorem checks_scanBitmap (hheld : held.length ≤ 1)
    (hhigh : k.starved = false → ∀ x ∈ held, k.sb.dataStart ≤ x) {n : Nat}
    (hn : ∀ i < n, i * BPB < k.sb.size) : Checks (scanBitmap held n) k := by
  show Checks (loopTo _ n) k
  refine .loopTo fun i hi => checks_bread (fun hs hmem => ?_) (by omega)
  have hlow := (bblock_inside (hn i hi)).2
  have hge := hhigh hs _ hmem
  omega

theorem balloc_agrees (ho : k.starved = false → Owned k) (hheld : held.length ≤ 1)
    (hdata : k.starved = false → ∀ x ∈ held, k.DataBlock x ∧ k.bitmap x = true) :
    Agrees Logs (balloc held) Kernel.balloc k := by
  refine .get_bind (.modify_bind ?_)
  obtain ⟨k₁, hk₁⟩ : ∃ k₁ : State, k₁ = { k with starved := k.starved || k.dataFull } := ⟨_, rfl⟩
  rw [← hk₁]
  have hs₁ : k₁.starved = false → k.starved = false ∧ k.dataFull = false := fun hs => by
    rw [hk₁] at hs
    exact Bool.or_eq_false_iff.1 hs
  have hhigh : k₁.starved = false → ∀ x ∈ held, k.sb.dataStart ≤ x := fun hs x hx =>
    (hdata (hs₁ hs).1 x hx).1.1
  have hfour : 4 ≤ k.sb.dataStart := four_le_dataStart
  cases hfree : firstFree k.bitmap k.sb.size 0 with
  | none =>
      refine agrees_bread (fun hs hmem => ?_) (by omega) (.stop _) ?_
      · have hge := hhigh hs _ hmem
        omega
      refine (checks_scanBitmap hheld (by rw [hk₁] at hhigh ⊢; exact hhigh)
        fun i hi => ?_).agrees (fun _ he => he) ((Preserves.stop _).final k₁) (.stop _)
      rw [hk₁]
      show i * BPB < k.sb.size
      simp only [BPB] at hi ⊢
      omega
  | some b =>
      have hsize : b < k.sb.size := by
        have hlt := (firstFree_some hfree).2.1
        omega
      have hclear : k.bitmap b = false := (firstFree_some hfree).2.2.1
      have hblock : k₁.starved = false → k.DataBlock b := fun hs =>
        firstFree_dataBlock (ho (hs₁ hs).1) (hs₁ hs).2 hfree
      have hlow : k₁.starved = false → ∀ x ∈ held, x < k.log.start := fun hs x hx =>
        (hdata (hs₁ hs).1 x hx).1.2
      have hbit : k₁.starved = false → k.sb.bblock b < k.log.start := fun hs =>
        Nat.lt_trans (bblock_inside hsize).2 (Nat.lt_of_le_of_lt (hblock hs).1 (hblock hs).2)
      have hkeep : Preserves Logs (do
          modify fun k : State =>
            { k with bitmap := Function.update k.bitmap b true, allocs := k.allocs ++ [b] }
          Kernel.logWrite (k.sb.bblock b)
          Kernel.bzero b
          return b : K Nat) :=
        .bind (.modify fun _ => Nat.le_refl _) fun _ => .bind (logWrite_logs _) fun _ =>
          .bind (bzero_logs _) fun _ => .pure _
      refine agrees_bread (fun hs hmem => ?_) (by omega) hkeep ?_
      · have hge := hhigh hs _ hmem
        omega
      refine (checks_scanBitmap hheld (by rw [hk₁] at hhigh ⊢; exact hhigh)
        fun i hi => ?_).agrees (fun _ he => he) (hkeep.final k₁) (.modify_bind (.bind ?_ ?_ ?_))
      · rw [hk₁]
        show i * BPB < k.sb.size
        simp only [BPB] at hi ⊢
        omega
      · -- the bitmap block is in hand
        refine logWrite_agrees (fun hs x hx => ?_) (by simp only [List.length_cons]; omega) _
        have hs : k₁.starved = false := hs
        rw [hk₁]
        rcases List.mem_cons.1 hx with rfl | hx
        · exact hbit hs
        · exact hlow hs x hx
      · -- it has been released, and the new block is zeroed
        intro _ k₂ hrun
        have hframe := ok_of_wp ((logWrite_frame (k.sb.bblock b)).wp _) hrun
        have hs₂ : k₂.starved = false → k₁.starved = false := fun hs => hframe.fed hs
        have hstart : k₂.log.start = k.log.start := by
          rw [hframe.start, hk₁]
        refine .bind (bzero_agrees (fun hs hmem => ?_) (fun hs x hx => ?_) hheld)
          (fun _ _ _ => .pure _) fun _ => .pure _
        · have hset := (hdata (hs₁ (hs₂ hs)).1 _ hmem).2
          rw [hclear] at hset
          cases hset
        · rw [hstart]
          rcases List.mem_cons.1 hx with rfl | hx
          · exact (hblock (hs₂ hs)).2
          · exact hlow (hs₂ hs) x hx
      · exact fun _ => .bind (bzero_logs b) fun _ => .pure _

theorem iupdate_agrees {ip : Nat} (hlow : k.starved = false → iblock ip < k.log.start) :
    Agrees Logs (iupdate ip) (Kernel.iupdate ip) k := by
  refine agrees_bread (by simp) (by simp) (iupdate_logs ip) (.modify_bind ?_)
  exact logWrite_agrees (fun hs x hx => List.mem_singleton.1 hx ▸ hlow hs) (by simp) _

theorem bmapDirect_agrees (ho : k.starved = false → Owned k) (ip bn : Nat) :
    Agrees Logs (bmapDirect ip bn) (Kernel.bmapDirect ip bn) k := by
  refine .get_bind (.ite (fun _ => ?_) fun _ => .pure _)
  refine .bind (balloc_agrees ho (by simp) (by simp)) (fun _ _ _ => .modify_bind (.pure _)) ?_
  exact fun _ => .bind (.modify fun _ => Nat.le_refl _) fun _ => .pure _

/-- The indirect block is a data block in use, so `balloc` does not come back to it. -/
theorem bmapEntry_agrees {ind : Nat} (ho : k.starved = false → Owned k)
    (hind : k.starved = false → k.DataBlock ind ∧ k.bitmap ind = true) (j : Nat) :
    Agrees Logs (bmapEntry ind j) (Kernel.bmapEntry ind j) k := by
  refine agrees_bread (by simp) (by simp) (bmapEntry_logs ind j) ?_
  refine .get_bind (.ite (fun _ => ?_) fun _ => .pure _)
  refine .bind (balloc_agrees ho (by simp) (by simpa using hind)) (fun addr k₁ hrun => ?_) ?_
  · have hframe := ok_of_wp (balloc_frame.wp k) hrun
    refine .modify_bind (.bind (logWrite_agrees (fun hs x hx => ?_) (by simp) _)
      (fun _ _ _ => .pure _) fun _ => .pure _)
    show x < k₁.log.start
    rw [List.mem_singleton.1 hx, hframe.start]
    exact (hind (hframe.fed hs)).1.2
  · exact fun _ => .bind (.modify fun _ => Nat.le_refl _) fun _ => .bind (logWrite_logs _)
      fun _ => .pure _

variable {ip : Nat}

theorem bmap_agrees (ho : k.starved = false → Owned k)
    (hv : k.starved = false → (k.icache ip).valid = true) (bn : Nat) :
    Agrees Logs (bmap ip bn) (Kernel.bmap ip bn) k := by
  refine .ite (fun _ => bmapDirect_agrees ho ip bn) fun _ => .ite (fun _ => ?_) fun _ => .stop _
  refine .bind (bmapDirect_agrees ho ip NDIRECT) (fun ind k₁ hrun => ?_) fun _ =>
    bmapEntry_logs _ _
  have hframe := ok_of_wp ((bmapDirect_frame ip NDIRECT).wp k) hrun
  have hmaps : k₁.starved = false → Maps ip NDIRECT k ind k₁ := fun hs =>
    ok_of_wp (bmapDirect_spec (ho (hframe.fed hs)) (hv (hframe.fed hs)) (Nat.le_refl _)) hrun hs
  refine bmapEntry_agrees (fun hs => (hmaps hs).grown.owned) (fun hs => ?_) _
  obtain ⟨hgrown, rfl, hne, -⟩ := hmaps hs
  exact ⟨hgrown.owned.region _ hne, hgrown.owned.excl.held _ hne⟩

/-- What `bmap` leaves, for the rest of a transfer loop. -/
theorem bmap_run (ho : k.starved = false → Owned k)
    (hv : k.starved = false → (k.icache ip).valid = true) {bn : Nat}
    (hbn : k.starved = false → bn < MAXFILE) {k' : State}
    (hrun : (Kernel.bmap ip bn).run k = .ok b k') (hs : k'.starved = false) :
    (k'.icache ip).valid = true ∧ k.starved = false ∧ Maps ip (blockSlot bn) k b k' := by
  have hframe := ok_of_wp ((bmap_frame ip bn).wp k) hrun
  have hs' := hframe.fed hs
  refine ⟨by rw [hframe.icache]; exact hv hs', hs', ?_⟩
  exact ok_of_wp (bmap_spec (ho hs') (hv hs') (hbn hs')) hrun hs

theorem blockOf_lt {off n : Nat} (hn : ¬n = 0) (hmax : off + n ≤ MAXFILE * BSIZE) :
    off / BSIZE < MAXFILE := by
  simp only [MAXFILE, BSIZE] at hmax ⊢
  omega

theorem readLoop_agrees (fuel : Nat) : ∀ {k : State} {off n : Nat},
    (k.starved = false → Owned k) → (k.starved = false → (k.icache ip).valid = true) →
    (k.starved = false → off + n ≤ MAXFILE * BSIZE) →
    Agrees Logs (readLoop ip fuel off n) (Kernel.readLoop ip fuel off n) k := by
  induction fuel with
  | zero => exact fun _ _ _ => .pure _
  | succ fuel ih =>
      intro k off n ho hv hmax
      refine .ite (fun _ => .pure _) fun hn => .bind (bmap_agrees ho hv _) (fun b k₁ hrun => ?_)
        fun _ => .bind .get fun _ => .bind (readLoop_logs ip fuel _ _) fun _ => .pure _
      have hmaps := bmap_run ho hv (fun hs => blockOf_lt hn (hmax hs)) hrun
      refine agrees_bread (by simp) (by simp)
        (.bind .get fun _ => .bind (readLoop_logs ip fuel _ _) fun _ => .pure _) ?_
      refine .get_bind (.bind (ih (fun hs => (hmaps hs).2.2.grown.owned) (fun hs => (hmaps hs).1)
        fun hs => ?_) (fun _ _ _ => .pure _) fun _ => .pure _)
      have hbound := hmax (hmaps hs).2.1
      omega

theorem writeLoop_agrees (fuel : Nat) : ∀ {k : State} {src : Nat → UInt8} {off n : Nat},
    (k.starved = false → Owned k) → (k.starved = false → (k.icache ip).valid = true) →
    (k.starved = false → off + n ≤ MAXFILE * BSIZE) →
    Agrees Logs (writeLoop ip fuel src off n) (Kernel.writeLoop ip fuel src off n) k := by
  induction fuel with
  | zero => exact fun _ _ _ => .pure _
  | succ fuel ih =>
      intro k src off n ho hv hmax
      have hkeep : ∀ b, Preserves Logs (do
          let m := min n (BSIZE - off % BSIZE)
          modify fun k => k.setData b ((k.data b).copyIn (off % BSIZE) m src)
          Kernel.logWrite b
          Kernel.writeLoop ip fuel (fun o => src (o + m)) (off + m) (n - m) : K Unit) := fun b =>
        .bind (.modify fun _ => Nat.le_refl _) fun _ => .bind (logWrite_logs b) fun _ =>
          writeLoop_logs ip fuel _ _ _
      refine .ite (fun _ => .pure _) fun hn => .bind (bmap_agrees ho hv _) (fun b k₁ hrun => ?_)
        hkeep
      have hmaps := bmap_run ho hv (fun hs => blockOf_lt hn (hmax hs)) hrun
      refine agrees_bread (by simp) (by simp) (hkeep b) (.modify_bind (.bind ?_ ?_ ?_))
      · refine logWrite_agrees (fun hs x hx => ?_) (by simp) b
        obtain ⟨-, -, hgrown, rfl, hne, -⟩ := hmaps hs
        rw [List.mem_singleton.1 hx]
        exact hgrown.owned.ref_lt hne
      · intro _ k₂ hlog
        have hframe := ok_of_wp ((logWrite_frame b).wp _) hlog
        have hstored := ok_of_wp (logWrite_spec _ _) hlog
        refine ih (fun hs => ?_) (fun hs => ?_) fun hs => ?_
        · obtain ⟨-, -, hgrown, rfl, hne, -⟩ := hmaps (hframe.fed hs)
          rw [hstored]
          exact (written_store hgrown.owned hne (by simp only [BSIZE]; omega) src).owned
        · rw [hframe.icache]
          exact (hmaps (hframe.fed hs)).1
        · have hbound := hmax (hmaps (hframe.fed hs)).2.1
          omega
      · exact fun _ => writeLoop_logs ip fuel _ _ _

theorem growSize_agrees (hlow : k.starved = false → iblock ip < k.log.start) (off n : Nat) :
    Agrees Logs (growSize ip off n) (Kernel.growSize ip off n) k :=
  .get_bind (.ite (fun _ => .modify_bind (iupdate_agrees hlow)) fun _ => .pure _)

/-- **`readi` finds a buffer unless eight blocks have been logged.** -/
theorem readi_agrees (h : k.starved = false → Wf k)
    (hv : k.starved = false → (k.icache ip).valid = true)
    (ht : k.starved = false → (k.dinode ip).type.HasData) (off n : UInt32) :
    Agrees Logs (readi ip off.toNat n.toNat) (Kernel.readi ip off.toNat n.toNat) k := by
  refine .get_bind (.ite (fun _ => .ite (fun _ => .pure _) fun _ => ?_) fun _ =>
    .ite (fun _ => .pure _) fun hok => ?_)
  · cases (k.devsw (k.icopy ip).major.toNat).read with
    | none => exact .pure _
    | some f => exact .modify_bind (.pure _)
  · have hsize : k.starved = false → (k.icopy ip).size ≤ MAXFILE * BSIZE := fun hs => by
      rw [(h hs).coherent ip (hv hs)]
      exact (h hs).fits ip (ht hs)
    refine .bind (readLoop_agrees _ (fun hs => (h hs).owned) hv fun hs => ?_)
      (fun _ _ _ => .pure _) fun _ => .pure _
    have hlen := hsize hs
    have hn := n.toNat_lt
    have hoff := off.toNat_lt
    simp only [UINT] at *
    split <;> omega

/-- **`writei` finds a buffer unless eight blocks have been logged.** -/
theorem writei_agrees (h : k.starved = false → Wf k)
    (hv : k.starved = false → (k.icache ip).valid = true)
    (hlow : k.starved = false → iblock ip < k.log.start) (src : Nat → UInt8) (off n : UInt32) :
    Agrees Logs (writei ip src off.toNat n.toNat) (Kernel.writei ip src off.toNat n.toNat) k := by
  refine .get_bind (.ite (fun _ => .ite (fun _ => .pure _) fun _ => ?_) fun _ =>
    .ite (fun _ => .pure _) fun hoff => .ite (fun _ => .pure _) fun hmax => ?_)
  · cases (k.devsw (k.icopy ip).major.toNat).write with
    | none => exact .pure _
    | some f => exact .modify_bind (.pure _)
  · have hbound : off.toNat + n.toNat ≤ MAXFILE * BSIZE := by
      have hn := n.toNat_lt
      have hlt := off.toNat_lt
      simp only [UINT, MAXFILE, BSIZE] at *
      omega
    refine .bind (writeLoop_agrees _ (fun hs => (h hs).owned) hv fun _ => hbound)
      (fun _ k₁ hrun => ?_) fun _ => .bind (growSize_logs ip _ _) fun _ => .pure _
    have hframe := ok_of_wp ((writeLoop_frame ip _ src _ _).wp k) hrun
    refine .bind (growSize_agrees (fun hs => ?_) _ _) (fun _ _ _ => .pure _) fun _ => .pure _
    rw [hframe.start]
    exact hlow (hframe.fed hs)

end Agree

end Xv6.Kernel.Buffered
