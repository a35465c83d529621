import Xv6.Mkfs.Decode
import Xv6.Kernel.Allocs

/-!
# The blocks the kernel takes on a new image

`mkfs` puts the log behind the data blocks, `initlog` looks for it there, and `balloc` scans
all bits of the bitmap, those of the log's blocks too: `mkfs` leaves them clear.  While a
data block is free, a data block is taken; when none is, the next one is the log's header.

## Main results

* `image_allocs_data`: on a new image every block taken is a data block, as long as some
  data block is free.
* `full_image_takes_log_block`: on a full image the first block taken is the log's.
-/

namespace Xv6.Mkfs

open Xv6.Verified
open Xv6.Kernel
open Exec

/-- A block after the bitmap and before the log, whose place `initlog` computes. -/
def InDataRegion (sb : Superblock) (b : Nat) : Prop := sb.dataStart ≤ b ∧ b < sb.size - sb.nlog

/-- The blocks that `balloc` has returned are data blocks, if it always found one. -/
def AllocsData (k : State) : Prop :=
  k.starved = false → ∀ b, b ∈ k.allocs → InDataRegion k.sb b

/-! ## Writing to a file of the image -/

section Write

variable {files : List Input} {g : Image} {k : State} {i n : Nat} {f : Input}

/-- Inode `i` of the image is locked in a transaction. -/
structure Locked (g : Image) (i : Nat) (k : State) : Prop where
  steps : Steps (kernelOn g) k
  valid : (k.icache i).valid = true
  sb : k.sb = superblock
  bitmap : k.bitmap = (kernelOn g).bitmap
  copy : k.icopy i = (kernelOn g).dinode i
  log : k.log = ⟨size - nlog, LOGSIZE, some 0, []⟩
  allocs : k.allocs = []
  fed : k.starved = false

/-- A file of the image is locked in a transaction. -/
theorem Fresh.lock_file (h : Fresh (plan files) g) (hf : files[n]? = some f) :
    ∃ k, Locked g (9 + n) k := by
  have htype : ((kernelOn g).dinode (9 + n)).type ≠ .free := by
    rw [show ((kernelOn g).dinode (9 + n)).type =
      .file from congrArg Node.type (h.node (plan_file hf))]
    decide
  have hactive := h.browsable.room
  have hbegin : Steps (kernelOn g)
      { kernelOn g with log := { (kernelOn g).log with busy := some 0 } } :=
    .step .beginTrans .refl trivial rfl
  obtain ⟨k₁, hk₁⟩ : ∃ k₁ : State, k₁ =
      { kernelOn g with log := { (kernelOn g).log with busy := some 0 } } := ⟨_, rfl⟩
  rw [← hk₁] at hbegin
  have hfree : ¬0 < (k₁.icache (9 + n)).ref := by
    rw [hk₁]
    show ¬0 < ((kernelOn g).icache (9 + n)).ref
    rw [mount_refs, if_neg (by simp only [ROOTINO]; omega)]
    decide
  have hget : (Op.iget (9 + n)).code.run k₁ = .ok () (k₁.setEntry (9 + n) ⟨1, none, false⟩) := by
    have hroom : ¬NINODE ≤ k₁.activeInodes := by
      rw [hk₁]
      show ¬NINODE ≤ (kernelOn g).activeInodes
      omega
    show (iget (9 + n)).run k₁ = _
    rw [iget, run_get_bind, run_ite, if_neg hfree, run_ite, if_neg hroom, run_modify]
  obtain ⟨k₂, hk₂⟩ : ∃ k₂, k₂ = k₁.setEntry (9 + n) ⟨1, none, false⟩ := ⟨_, rfl⟩
  rw [← hk₂] at hget
  have hentry : k₂.icache (9 + n) = ⟨1, none, false⟩ := by
    rw [hk₂, State.setEntry_self]
  have hdin : k₂.dinode = (kernelOn g).dinode := by
    rw [hk₂, hk₁]
    rfl
  have hlock : (Op.ilock (9 + n)).code.run k₂ = .ok ()
      ((((k₂.setEntry (9 + n) ⟨1, some k₂.cur, false⟩).setCopy (9 + n) (k₂.dinode (9 + n))).setEntry
        (9 + n) ⟨1, some k₂.cur, true⟩)) := by
    show (ilock (9 + n)).run k₂ = _
    rw [ilock, run_get_bind, run_ite, hentry, if_neg (by decide), run_ite, if_neg (by decide),
      run_modify_bind, run_ite, if_neg (by decide), run_modify_bind, run_ite,
      if_neg (by rw [hdin]; exact htype), run_pure]
    simp only [hentry, State.setEntry_self]
    rfl
  refine ⟨_, .step (.ilock (9 + n)) (.step (.iget (9 + n)) hbegin trivial hget) trivial hlock, ?_,
    ?_,
    ?_, ?_, ?_, ?_, ?_⟩
  · rw [State.setEntry_self]
  · rw [← h.sb, hk₂, hk₁]
    rfl
  · rw [hk₂, hk₁]
    rfl
  · rw [State.setEntry_icopy, State.setCopy_self, hdin]
  · show k₂.log = _
    rw [hk₂, hk₁]
    show (⟨(Kernel.readsb g.sector).logStart, (Kernel.readsb g.sector).nlog, some 0, []⟩ : Log) = _
    rw [h.readsb]
    rfl
  · rw [hk₂, hk₁]
    rfl
  · rw [hk₂, hk₁]
    rfl

/-- An empty file has no first block. -/
theorem Locked.no_block (hk : Locked g (9 + n) k) (h : Fresh (plan files) g)
    (hf : files[n]? = some f) (hempty : f.bytes = []) : (k.icopy (9 + n)).addrs 0 = 0 := by
  have hold := h.built.files (9 + n) _ (plan_file hf)
  have hnone : refOf g.sector (inoOf g.sector) (9 + n, 0) = 0 := by
    by_contra hc
    have hlt := (hold.sized.blocks 0 (by decide)).1 hc
    rw [hempty] at hlt
    exact absurd hlt (by decide)
  rw [refOf_of_le _ (Nat.zero_le _)] at hnone
  rw [hk.copy, h.dinode]
  exact hnone

/-- The first clear bit is that of the first block `mkfs` has not used. -/
theorem Locked.first_free (hk : Locked g i k) (h : Fresh (plan files) g)
    (hlt : g.freeblock < size) : firstFree k.bitmap k.sb.size 0 = some g.freeblock := by
  rw [hk.bitmap, hk.sb]
  apply firstFree_eq (show g.freeblock < size from hlt)
  · rw [h.bitmap hlt, decide_eq_false (by omega)]
  · intro c hc
    rw [h.bitmap (Nat.lt_trans hc hlt)]
    exact decide_eq_true hc

/-- One block has been taken for inode `i`, and at most `m` blocks are in the log. -/
structure TookBlock (g : Image) (i m : Nat) (k k' : State) : Prop where
  allocs : k'.allocs = [g.freeblock]
  starved : k'.starved = k.dataFull
  size : (k'.icopy i).size = (k.icopy i).size
  log : k'.log.lh.length ≤ m ∧ k'.log.size = LOGSIZE ∧ k'.log.busy = some 0

theorem not_full {l : Log} (hlen : l.lh.length ≤ 3) (hsize : l.size = LOGSIZE) : ¬l.Full := by
  rintro (hc | hc)
  all_goals
    simp only [LOGSIZE] at *
    omega

theorem Locked.bmap (hk : Locked g (9 + n) k) (h : Fresh (plan files) g)
    (hf : files[n]? = some f) (hempty : f.bytes = []) (hlt : g.freeblock < size) :
    ∃ k', (Kernel.bmap (9 + n) 0).run k = .ok g.freeblock k' ∧ TookBlock g (9 + n) 2 k k' := by
  have hballoc := run_balloc (hk.first_free h hlt) (by rw [hk.log]) (by rw [hk.log])
    (by rw [hk.log]; simp)
  obtain ⟨k₁, hk₁⟩ : ∃ k₁ : State, k₁ = (({ k with
      starved := k.starved || k.dataFull
      bitmap := Function.update k.bitmap g.freeblock true
      allocs := k.allocs ++ [g.freeblock] }.logged (k.sb.bblock g.freeblock)).setData g.freeblock
        Block.zero).logged g.freeblock := ⟨_, rfl⟩
  rw [← hk₁] at hballoc
  have hlog : k₁.log = (k.log.record (k.sb.bblock g.freeblock)).record g.freeblock := by
    rw [hk₁]
    rfl
  refine ⟨k₁.setCopy (9 + n) { k₁.icopy (9 + n) with
    addrs := Function.update (k₁.icopy (9 + n)).addrs 0 g.freeblock }, ?_, ?_, ?_, ?_, ?_⟩
  · rw [Kernel.bmap, if_pos (by decide), bmapDirect, run_get_bind, run_ite,
      if_pos (hk.no_block h hf hempty), run_bind_ok hballoc, setAddr, run_modify_bind, run_pure]
  · rw [hk₁]
    show k.allocs ++ [g.freeblock] = _
    rw [hk.allocs]
    rfl
  · rw [hk₁]
    show (k.starved || k.dataFull) = _
    rw [hk.fed, Bool.false_or]
  · rw [State.setCopy_self, hk₁]
    rfl
  · show k₁.log.lh.length ≤ 2 ∧ k₁.log.size = LOGSIZE ∧ k₁.log.busy = some 0
    rw [hlog, Log.record_size, Log.record_size, Log.record_busy, Log.record_busy, hk.log]
    refine ⟨?_, rfl, rfl⟩
    simp only [Log.record]
    split <;> split <;> simp

/-- While the log is not reached, there is a free data block. -/
theorem Locked.room (hk : Locked g i k) (h : Fresh (plan files) g)
    (hroom : g.freeblock < size - nlog) : k.dataFull = false := by
  have hlow := h.built.table.low
  have hstart : k.sb.dataStart = metablocks := by
    rw [hk.sb]
    decide
  unfold State.dataFull
  cases hff : firstFree k.bitmap (k.log.start - k.sb.dataStart) k.sb.dataStart with
  | some b => rfl
  | none =>
      have hstop : k.log.start = size - nlog := by rw [hk.log]
      have hset := firstFree_none hff g.freeblock (by omega) (by omega)
      rw [hk.bitmap, h.bitmap (by omega), decide_eq_true_iff] at hset
      omega

/-- The byte is stored in the new block. -/
theorem Locked.writeLoop (hk : Locked g (9 + n) k) (h : Fresh (plan files) g)
    (hf : files[n]? = some f) (hempty : f.bytes = []) (hlt : g.freeblock < size) :
    ∃ k', (Kernel.writeLoop (9 + n) 1 (fun _ => 120) 0 1).run k = .ok () k' ∧
      TookBlock g (9 + n) 3 k k' := by
  obtain ⟨k₁, hbmap, htook⟩ := hk.bmap h hf hempty hlt
  obtain ⟨hlen, hsize, hbusy⟩ := htook.log
  obtain ⟨k₂, hk₂⟩ : ∃ k₂, k₂ = (k₁.setData g.freeblock
      ((k₁.data g.freeblock).copyIn 0 1 fun _ => 120)).logged g.freeblock := ⟨_, rfl⟩
  have hfirst : (logWrite g.freeblock).run (k₁.setData g.freeblock
      ((k₁.data g.freeblock).copyIn 0 1 fun _ => 120)) = .ok () k₂ := by
    rw [hk₂]
    apply run_logWrite
    · show ¬k₁.log.Full
      exact not_full (Nat.le_succ_of_le hlen) hsize
    · show k₁.log.busy ≠ none
      rw [hbusy]
      simp
  refine ⟨k₂, ?_, ?_, ?_, ?_, ?_⟩
  · rw [Kernel.writeLoop, if_neg (by decide)]
    show (Kernel.bmap (9 + n) 0 >>= fun b => do
      Exec.modify fun k : State => k.setData b ((k.data b).copyIn 0 1 fun _ => 120)
      logWrite b
      Kernel.writeLoop (9 + n) 0 (fun _ => 120) 1 0).run k = _
    rw [run_bind_ok hbmap, run_modify_bind, run_bind_ok hfirst]
    rfl
  · rw [hk₂]
    exact htook.allocs
  · rw [hk₂]
    exact htook.starved
  · rw [hk₂]
    exact htook.size
  · have hlog : k₂.log = k₁.log.record g.freeblock := by
      rw [hk₂]
      rfl
    rw [hlog, Log.record_size, Log.record_busy]
    refine ⟨?_, hsize, hbusy⟩
    rw [Log.record]
    split
    · omega
    · simp only [List.length_append, List.length_singleton]
      omega

/-- The file gets longer. -/
theorem TookBlock.growSize {k' : State} (h : TookBlock g i 3 k k') (hsize : (k'.icopy i).size = 0) :
    ∃ k'', (Kernel.growSize i 1 1).run k' = .ok () k'' ∧ k''.allocs = [g.freeblock] ∧
      k''.starved = k.dataFull := by
  obtain ⟨hlen, hlogSize, hbusy⟩ := h.log
  obtain ⟨k₁, hk₁⟩ : ∃ k₁, k₁ = k'.setCopy i { k'.icopy i with size := 1 } := ⟨_, rfl⟩
  obtain ⟨k₂, hk₂⟩ : ∃ k₂, k₂ = ({ k₁ with
      dinode := Function.update k₁.dinode i (k₁.icopy i) } : State).logged (iblock i) := ⟨_, rfl⟩
  have hupdate : (iupdate i).run k₁ = .ok () k₂ := by
    rw [iupdate, run_modify_bind, hk₂, hk₁]
    apply run_logWrite
    · show ¬k'.log.Full
      exact not_full hlen hlogSize
    · show k'.log.busy ≠ none
      rw [hbusy]
      simp
  refine ⟨k₂, ?_, ?_, ?_⟩
  · rw [Kernel.growSize, run_get_bind, run_ite, hsize, if_pos (by decide), run_modify_bind, ← hk₁,
      hupdate]
  · rw [hk₂, hk₁]
    exact h.allocs
  · rw [hk₂, hk₁]
    exact h.starved

/-- The first write to an empty file takes a block. -/
theorem Locked.write (hk : Locked g (9 + n) k) (h : Fresh (plan files) g)
    (hf : files[n]? = some f) (hempty : f.bytes = []) (hroom : g.freeblock < size - nlog) :
    ∃ k', Steps (kernelOn g) k' ∧ k'.allocs = [g.freeblock] ∧ k'.starved = false := by
  have hnode := h.node (plan_file hf)
  have htype : (k.icopy (9 + n)).type = .file := by
    rw [hk.copy]
    exact congrArg Node.type hnode
  have hsize : (k.icopy (9 + n)).size = 0 := by
    rw [hk.copy]
    refine (congrArg Node.size hnode).trans ?_
    show f.bytes.length = 0
    rw [hempty]
    rfl
  obtain ⟨k₁, hloop, htook⟩ := hk.writeLoop h hf hempty (by omega)
  obtain ⟨k₂, hgrow, hallocs, hstarved⟩ := htook.growSize (htook.size.trans hsize)
  have hwritei : (Kernel.writei (9 + n) (fun _ => 120) 0 1).run k = .ok 1 k₂ := by
    rw [Kernel.writei, run_get_bind, run_ite, htype, if_neg (by decide), run_ite, hsize,
      if_neg (by decide), run_ite, if_neg (by decide), run_bind_ok hloop, run_bind_ok hgrow]
    rfl
  have hwrite : (Op.writei (9 + n) (fun _ => 120) 0 1).code.run k = .ok () k₂ := by
    show (do let _ ← Kernel.writei (9 + n) (fun _ => 120) 0 1 : K Unit).run k = _
    rw [run_bind_ok hwritei]
    rfl
  exact ⟨k₂, .step (.writei (9 + n) (fun _ => 120) 0 1) hk.steps hk.valid hwrite, hallocs,
    hstarved.trans (hk.room h hroom)⟩

end Write

/-- **Data blocks.**  On an image that `mkfs` wrote within its geometry, whatever sequence of
inode operations is made, balloc takes data blocks as long as there are any; also in the
next operation, should it halt. -/
theorem image_allocs_data {files : List Input} {g : Image} {k : State} (h : Writes files g)
    (hfew : files.length ≤ 191) (hfits : blocksNeeded files ≤ size - nlog)
    (hs : Steps (kernelOn g) k) :
    AllocsData k ∧
      ∀ o : Op, wp o.code (fun _ k' => AllocsData k') (fun _ k' => AllocsData k') k := by
  have hfresh := h.fresh hfew hfits
  have hwf := hfresh.wf
  obtain ⟨hsb, -, hin⟩ := hs.allocsIn hwf rfl
  have hregion : ∀ {k'}, k'.sb = (kernelOn g).sb → AllocsIn (kernelOn g) k' → AllocsData k' := by
    intro k' hsb' hin' hfed b hb
    rw [hsb']
    exact hin' hfed b hb
  refine ⟨hregion hsb hin, fun o => ?_⟩
  have hnext := wp_and (hs.next_allocsIn hwf rfl o) (o.drawn.wp k)
  exact wp_mono hnext (fun _ _ hk => hregion (hk.2.sb.trans hsb) hk.1)
    fun _ _ hk => hregion (hk.2.sb.trans hsb) hk.1

/-- The image with one empty file: the first write to it takes a block. -/
theorem image_allocs_data_write : ∃ g k, Writes [⟨[97], []⟩] g ∧ Steps (kernelOn g) k ∧
    k.allocs = [g.freeblock] ∧ k.starved = false ∧ AllocsData k := by
  have hroom : 9 + [(⟨[97], []⟩ : Input)].length ≤ inodeSlots := by decide
  have hplace : Plan.fileName ⟨[97], []⟩ = [97] := by
    unfold Plan.fileName place strip
    simp
  obtain ⟨g, hg⟩ := exists_writes hroom (fun f hf => by
      rw [List.mem_singleton.1 hf, HasSlash, hplace]
      decide)
    (addFiles_small hroom (fun f hf => by rw [List.mem_singleton.1 hf]; decide) (by decide))
  have hneeded : blocksNeeded [⟨[97], []⟩] < size - nlog := by decide
  have h := hg.fresh (by decide) (Nat.le_of_lt hneeded)
  obtain ⟨k, hk⟩ := h.lock_file (n := 0) rfl
  obtain ⟨k', hsteps, hallocs, hfed⟩ := hk.write h rfl rfl
    (by rw [h.built.free, plan_free hroom]; exact hneeded)
  exact ⟨g, k', hg, hsteps, hallocs, hfed,
    (image_allocs_data hg (by decide) (Nat.le_of_lt hneeded) hsteps).1⟩

/-! ## A full image -/

/-- A file of `n` blocks with a name of one letter. -/
def fileOfBlocks (letter : UInt8) (n : Nat) : Input := ⟨[letter], List.replicate (n * BSIZE) 0⟩

/-- The empty file "a", fourteen files of the largest size, and one that takes the rest. -/
def fullFiles : List Input :=
  fileOfBlocks 97 0 :: fileOfBlocks 98 225 ::
    (List.range 14).map fun i => fileOfBlocks (99 + UInt8.ofNat i) MAXFILE

theorem length_fileOfBlocks (letter : UInt8) (n : Nat) :
    (fileOfBlocks letter n).bytes.length = n * BSIZE := List.length_replicate

theorem place_fileOfBlocks (letter : UInt8) (n : Nat) :
    Plan.fileName (fileOfBlocks letter n) = [letter] ∧ Plan.target (fileOfBlocks letter n) = 2 := by
  unfold Plan.fileName Plan.target place fileOfBlocks strip
  simp

theorem mem_fullFiles {f : Input} (hf : f ∈ fullFiles) :
    ∃ letter n, f = fileOfBlocks letter n ∧ n ≤ MAXFILE ∧ letter ≠ Sys.slash := by
  rcases List.mem_cons.1 hf with rfl | hf
  · exact ⟨_, _, rfl, by decide, by decide⟩
  · rcases List.mem_cons.1 hf with rfl | hf
    · exact ⟨_, _, rfl, by decide, by decide⟩
    · obtain ⟨i, hi, rfl⟩ := List.mem_map.1 hf
      have hletter : ∀ i ∈ List.range 14, 99 + UInt8.ofNat i ≠ Sys.slash := by decide
      exact ⟨_, _, rfl, Nat.le_refl _, hletter i hi⟩

/-- The blocks that some files take, from the bytes and the numbers of entries. -/
theorem blocksNeeded_of {files : List Input} {bytes c₂ c₄ c₈ : Nat}
    (hbytes : Plan.bytesNeeded files = bytes) (h₂ : Plan.countIn 2 files = c₂)
    (h₄ : Plan.countIn 4 files = c₄) (h₈ : Plan.countIn 8 files = c₈) :
    blocksNeeded files = metablocks + 5 + need (DIRENT * (2 + c₂)) +
      need (DIRENT * (2 + c₄)) + need (DIRENT * (2 + c₈)) + bytes := by
  rw [blocksNeeded, hbytes, h₂, h₄, h₈]

theorem fullFiles_blocks : blocksNeeded fullFiles = size - nlog := by
  have hbytes : Plan.bytesNeeded fullFiles = 3992 := by
    simp only [Plan.bytesNeeded, fullFiles, length_fileOfBlocks, List.map_cons, List.map_map,
      Function.comp_def, List.map_const', List.length_range]
    decide
  have htarget : ∀ f ∈ fullFiles, Plan.target f = 2 := by
    intro f hf
    obtain ⟨letter, n, rfl, -⟩ := mem_fullFiles hf
    exact (place_fileOfBlocks letter n).2
  have hbin : Plan.countIn 2 fullFiles = 16 := by
    unfold Plan.countIn
    rw [List.filter_eq_self.2 fun f hf => decide_eq_true (htarget f hf)]
    rfl
  have hother : ∀ d, d ≠ 2 → Plan.countIn d fullFiles = 0 := by
    intro d hd
    unfold Plan.countIn
    rw [List.filter_eq_nil_iff.2 fun f hf => ?_]
    · rfl
    · rw [htarget f hf]
      simpa using Ne.symm hd
  -- The sum over the files themselves is too large to be computed.
  rw [blocksNeeded_of hbytes hbin (hother 4 (by decide)) (hother 8 (by decide))]
  decide

theorem exists_writes_full : ∃ g, Writes fullFiles g := by
  have hroom : 9 + fullFiles.length ≤ inodeSlots := by decide
  apply exists_writes hroom
  · intro f hf
    obtain ⟨letter, n, rfl, -, hletter⟩ := mem_fullFiles hf
    unfold HasSlash
    rw [(place_fileOfBlocks letter n).1]
    simpa using Ne.symm hletter
  · apply addFiles_small hroom
    · intro f hf
      obtain ⟨letter, n, rfl, hn, -⟩ := mem_fullFiles hf
      rw [length_fileOfBlocks]
      exact Nat.mul_le_mul_right _ hn
    · rw [fullFiles_blocks]
      decide

/-- **A full image.**  The first write to the file "a" is given the header block of the
log. -/
theorem full_image_takes_log_block : ∃ g k k', Writes fullFiles g ∧ Steps (kernelOn g) k ∧
    (k.icache 9).valid = true ∧ (bmap 9 0).run k = .ok (size - nlog) k' ∧
    ¬InDataRegion k.sb (size - nlog) := by
  obtain ⟨g, hg⟩ := exists_writes_full
  have hroom : 9 + fullFiles.length ≤ inodeSlots := by decide
  have h := hg.fresh (by decide) (Nat.le_of_eq fullFiles_blocks)
  have hfirst : fullFiles[0]? = some (fileOfBlocks 97 0) := rfl
  obtain ⟨k, hk⟩ := h.lock_file hfirst
  have hfree : g.freeblock = size - nlog := by
    rw [h.built.free, plan_free hroom, fullFiles_blocks]
  obtain ⟨k', hrun, -⟩ := hk.bmap h hfirst rfl (by rw [hfree]; decide)
  rw [hfree] at hrun
  refine ⟨g, k, k', hg, hk.steps, hk.valid, hrun, ?_⟩
  rw [hk.sb]
  rintro ⟨-, hlt⟩
  exact absurd hlt (by decide)

end Xv6.Mkfs
