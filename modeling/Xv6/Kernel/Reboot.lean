import Xv6.Kernel.Mount
import Xv6.Kernel.PowerCut

/-!
# Reboots

After a power cut the kernel comes up on the disk that recovery has left.  It decodes the inodes and
the bitmap that an earlier kernel has encoded; what it finds is the file system as it was after a
commit, and it is again in the state from which every run survives a power cut.

## Main results

* `finished_calls_last`: what was done before a power cut outside of transactions is still there.
* `reboots_keep_files`: after any number of power cuts the next kernel finds the files of a commit.
-/

namespace Xv6.Kernel

open Xv6.Verified
open Xv6.Verified.CrashTrace
open LogDisk
open Exec

/-! ## Back to bytes -/

/-- A byte of a word. -/
theorem byte_of_word (b : Block) (w : Nat) {r : Nat} (hr : r < 4) :
    UInt8.ofNat (b.word w / 256 ^ r) = b (4 * w + r) := by
  have h0 := (b (4 * w)).toNat_lt
  have h1 := (b (4 * w + 1)).toNat_lt
  have h2 := (b (4 * w + 2)).toNat_lt
  have h3 := (b (4 * w + 3)).toNat_lt
  apply UInt8.toNat_inj.1
  rw [UInt8.toNat_ofNat', Block.word]
  obtain rfl | rfl | rfl | rfl : r = 0 ∨ r = 1 ∨ r = 2 ∨ r = 3 := by omega
  · show _ = (b (4 * w)).toNat
    omega
  · omega
  · omega
  · omega

/-- A byte of a `short`. -/
theorem byte_of_short (b : Block) (o : Nat) {r : Nat} (hr : r < 2) :
    UInt8.ofNat ((b.short o % 65536).toNat / 256 ^ r) = b (o + r) := by
  have h0 := (b o).toNat_lt
  have h1 := (b (o + 1)).toNat_lt
  apply UInt8.toNat_inj.1
  rw [UInt8.toNat_ofNat', Block.short, toShort]
  obtain rfl | rfl : r = 0 ∨ r = 1 := by omega
  · show _ = (b o).toNat
    omega
  · omega

/-- The bytes of the type of an inode that is not a device's. -/
theorem code_of_bytes {lo hi : UInt8} (h : InodeType.ofCode (lo.toNat + 256 * hi.toNat) ≠ .dev) :
    (InodeType.ofCode (lo.toNat + 256 * hi.toNat)).code = lo.toNat + 256 * hi.toNat := by
  generalize lo.toNat + 256 * hi.toNat = n at h
  rcases n with _ | _ | _ | n
  · rfl
  · rfl
  · rfl
  · exact absurd rfl h

/-- An inode is written as it was read, if its type is one that can be written. -/
theorem dinodeBytes_dinodeAt {b : Block} {j : Nat} (hcode : (dinodeAt b j).type.code =
      (b (DINODE * j)).toNat + 256 * (b (DINODE * j + 1)).toNat) {o : Nat}
    (ho : o < DINODE) : dinodeBytes (dinodeAt b j) o = b (DINODE * j + o) := by
  have hlo := (b (DINODE * j)).toNat_lt
  have hhi := (b (DINODE * j + 1)).toNat_lt
  unfold dinodeBytes
  by_cases h2 : o < 2
  · rw [if_pos h2]
    show UInt8.ofNat (((InodeType.code (dinodeAt b j).type : Int) % 65536).toNat / 256 ^ o) = _
    rw [hcode]
    apply UInt8.toNat_inj.1
    rw [UInt8.toNat_ofNat']
    obtain rfl | rfl : o = 0 ∨ o = 1 := by omega
    · show _ = (b (DINODE * j)).toNat
      omega
    · omega
  rw [if_neg h2]
  by_cases h4 : o < 4
  · rw [if_pos h4]
    refine (byte_of_short b _ (by omega)).trans (congrArg b ?_)
    omega
  rw [if_neg h4]
  by_cases h6 : o < 6
  · rw [if_pos h6]
    refine (byte_of_short b _ (by omega)).trans (congrArg b ?_)
    omega
  rw [if_neg h6]
  by_cases h8 : o < 8
  · rw [if_pos h8]
    refine (byte_of_short b _ (by omega)).trans (congrArg b ?_)
    omega
  rw [if_neg h8]
  by_cases h12 : o < 12
  · rw [if_pos h12]
    refine (byte_of_word b _ (by omega)).trans (congrArg b ?_)
    simp only [DINODE, IPB]
    omega
  · rw [if_neg h12]
    have hs : (o - 12) / 4 ≤ NDIRECT := by
      simp only [DINODE, NDIRECT] at *
      omega
    show UInt8.ofNat ((if (o - 12) / 4 ≤ NDIRECT then b.word _ else 0) / _) = _
    rw [if_pos hs]
    refine (byte_of_word b _ (Nat.mod_lt _ (by decide))).trans (congrArg b ?_)
    simp only [DINODE, IPB]
    omega

/-- An inode as it is read back after it was written. -/
def Dinode.stored (d : Dinode) : Dinode := dinodeAt (dinodeBytes d) 0

namespace Dinode

variable {d : Dinode}

theorem stored_code : ((dinodeBytes d (DINODE * 0)).toNat +
    256 * (dinodeBytes d (DINODE * 0 + 1)).toNat) = d.type.code := by
  cases ht : d.type <;> simp [dinodeBytes, ht, InodeType.code]

theorem stored_type : d.stored.type = d.type := by
  show InodeType.ofCode _ = _
  rw [stored_code, InodeType.ofCode_code]

theorem stored_size (h : d.size < UINT) : d.stored.size = d.size := by
  refine word_bytes h fun r hr => ?_
  rw [dinodeBytes, if_neg (by omega), if_neg (by omega), if_neg (by omega), if_neg (by omega),
    if_pos (by omega)]
  congr 3
  omega

theorem stored_addrs {s : Nat} (hs : s ≤ NDIRECT) (h : d.addrs s < UINT) :
    d.stored.addrs s = d.addrs s := by
  show (if s ≤ NDIRECT then Block.word (dinodeBytes d) (IPB * 0 + 3 + s) else 0) = _
  rw [if_pos hs]
  refine word_bytes h fun r hr => ?_
  rw [dinodeBytes, if_neg (by omega), if_neg (by omega), if_neg (by omega), if_neg (by omega),
    if_neg (by omega), show (4 * (IPB * 0 + 3 + s) + r - 12) / 4 = s by omega,
    show (4 * (IPB * 0 + 3 + s) + r - 12) % 4 = r by omega]

theorem stored_zero : zero.stored = zero :=
  dinodeAt_bytes ⟨by decide, by decide, by decide, by decide, fun _ => Nat.two_pow_pos 32,
    fun _ _ => rfl⟩

/-- The second time the same bytes are written. -/
theorem bytes_stored {o : Nat} (ho : o < DINODE) : dinodeBytes d.stored o = dinodeBytes d o := by
  have hcode : d.stored.type.code = (dinodeBytes d (DINODE * 0)).toNat +
      256 * (dinodeBytes d (DINODE * 0 + 1)).toNat := by
    rw [stored_code, stored_type]
  refine (dinodeBytes_dinodeAt hcode ho).trans (congrArg _ ?_)
  omega

end Dinode

/-- A byte from its bits. -/
theorem byte_of_bits : ∀ n : Fin 256, (List.range 8).foldl
    (fun acc r => if n.val.testBit r then acc + 2 ^ r else acc) 0 = n.val := by
  decide +kernel

/-- A byte of the bitmap is written as it was read. -/
theorem bitmapByte_bitAt {bitmap : Nat → Bool} {b o : Nat} {blk : Block}
    (h : ∀ r, r < 8 → bitmap (b + 8 * o + r) = bitAt blk (8 * o + r)) :
    bitmapByte bitmap b o = blk o := by
  have hbits : (List.range 8).foldl (fun acc r => if bitmap (b + 8 * o + r) then acc + 2 ^ r
      else acc) 0 = (List.range 8).foldl (fun acc r => if (blk o).toNat.testBit r
      then acc + 2 ^ r else acc) 0 := by
    apply List.foldl_ext
    intro acc r hr
    have hlt := List.mem_range.1 hr
    rw [h r hlt, bitAt, show (8 * o + r) / 8 = o by omega, show (8 * o + r) % 8 = r by omega]
  have hbyte := byte_of_bits ⟨(blk o).toNat, (blk o).toNat_lt⟩
  rw [bitmapByte, hbits, hbyte, UInt8.ofNat_toNat]

/-- A bit of a byte that was made of bits. -/
theorem bits_of_byte : ∀ (x0 x1 x2 x3 x4 x5 x6 x7 : Bool) (r : Fin 8),
    (UInt8.ofNat ((List.range 8).foldl (fun acc r =>
      if [x0, x1, x2, x3, x4, x5, x6, x7].getD r false then acc + 2 ^ r else acc) 0)).toNat.testBit
        r.val = [x0, x1, x2, x3, x4, x5, x6, x7].getD r.val false := by
  decide +kernel

/-- A bit of the bitmap is read as it was written. -/
theorem bitAt_bitmapByte (bitmap : Nat → Bool) (b i : Nat) :
    bitAt (fun o => bitmapByte bitmap b o) i = bitmap (b + i) := by
  have hbit (r : Nat) (hr : r < 8) := bits_of_byte (bitmap (b + 8 * (i / 8)))
    (bitmap (b + 8 * (i / 8) + 1)) (bitmap (b + 8 * (i / 8) + 2)) (bitmap (b + 8 * (i / 8) + 3))
    (bitmap (b + 8 * (i / 8) + 4)) (bitmap (b + 8 * (i / 8) + 5)) (bitmap (b + 8 * (i / 8) + 6))
    (bitmap (b + 8 * (i / 8) + 7)) ⟨r, hr⟩
  have hmod : i % 8 < 8 := Nat.mod_lt _ (by decide)
  have hsum : b + i = b + 8 * (i / 8) + i % 8 := by omega
  rw [hsum]
  refine (hbit (i % 8) hmod).trans ?_
  generalize i % 8 = r at hmod
  have hr : r = 0 ∨ r = 1 ∨ r = 2 ∨ r = 3 ∨ r = 4 ∨ r = 5 ∨ r = 6 ∨ r = 7 := by omega
  rcases hr with rfl | rfl | rfl | rfl | rfl | rfl | rfl | rfl <;> rfl

/-! ## Coming up -/

section Mount

variable (disk : Nat → Block)

theorem mount_proc (p : Nat) :
    ((mount disk).ptable p).cwd = (if p = 0 then some ROOTINO else none) ∧
    ((mount disk).ptable p).state = (if p = 0 then .live else .unused) ∧
    ∀ fd, ((mount disk).ptable p).ofile fd = none := by
  show ((if p = 0 then ⟨.live, some ROOTINO, fun _ => none⟩ else ⟨.unused, none, fun _ => none⟩ :
    Proc)).cwd = _ ∧ _
  unfold mount
  by_cases hp : p = 0 <;> simp [hp]

/-- The root directory is the working directory of the first process. -/
theorem mount_holders (i : Nat) :
    holders (fun _ => ⟨false, [], [], [], false, none⟩) (mount disk) i =
      if i = ROOTINO then 1 else 0 := by
  have hfiles : ∑ f ∈ Finset.range NFILE, ((mount disk).ftable f).holds i = 0 :=
    Finset.sum_eq_zero fun f _ => if_neg fun h => absurd h.1 (Nat.lt_irrefl 0)
  have hproc : ∀ p, procHolds ⟨false, [], [], [], false, none⟩ ((mount disk).ptable p) i =
      if p = 0 then if i = ROOTINO then 1 else 0 else 0 := by
    intro p
    rw [procHolds, (mount_proc disk p).1]
    by_cases hp : p = 0 <;> simp [hp, eq_comm]
  rw [holders, hfiles, Nat.add_zero, Finset.sum_congr rfl fun p _ => hproc p,
    Finset.sum_eq_single_of_mem 0 (by decide) fun p _ hp => if_neg hp]
  rfl

/-- A kernel that has just come up is in no system call. -/
theorem mount_quiet (hwf : Wf (mount disk)) : Quiet (mount disk) := by
  have hbusy : ∀ i, ((mount disk).icache i).busy = none := by
    intro i
    show (if i = ROOTINO then (⟨1, none, false⟩ : CacheEntry) else ⟨0, none, false⟩).busy = none
    split <;> rfl
  have hofile := fun p => (mount_proc disk p).2.2
  refine ⟨⟨fun _ => hwf, ⟨fun p => by simp [mount], fun p i => by simp [hbusy],
    fun _ => List.nodup_nil, fun i hi => absurd (hbusy i) hi, fun p i hi => by cases hi⟩, ?_⟩, rfl⟩
  refine
    { refs := fun i => ?_
      files := fun f _ => ?_
      fds := fun p fd f h => ?_
      slots := fun p h => ?_
      owner := fun p h => absurd rfl h
      blank := fun p h => ⟨?_, hofile p⟩
      via := fun p i h => by cases h
      lent := fun p h => by cases h
      child := fun p c n h => by cases h
      parent := fun p q c n m h => by cases h }
  · rw [mount_holders]
    show (if i = ROOTINO then (⟨1, none, false⟩ : CacheEntry) else ⟨0, none, false⟩).ref = _
    split <;> rfl
  · have hzero : pointers (mount disk) f = 0 :=
      Finset.sum_eq_zero fun p _ => Finset.sum_eq_zero fun fd _ => by simp [hofile p fd]
    rw [hzero]
    rfl
  · rw [hofile] at h
    cases h
  · by_contra hp
    rw [(mount_proc disk p).2.1, if_neg fun h0 => hp (by rw [h0]; decide)] at h
    exact h rfl
  · rw [(mount_proc disk p).2.1] at h
    rw [(mount_proc disk p).1]
    split at h
    · cases h
    · rename_i hp
      rw [if_neg hp]

/-- The header of the log has no sectors once it was empty. -/
theorem headCount_recovered {disk : Nat → Block} {sb : Superblock}
    (h : headCount (disk sb.logStart) = 0) :
    headCount (recovered disk sb sb.logStart) = 0 := by
  have hsect := headSectors_of_count h
  have hclear : recovered disk sb sb.logStart = setHead (disk sb.logStart) [] := by
    simp only [recovered, LogDisk.recoverFromLog, LogDisk.readHead, LogDisk.installTrans,
      LogDisk.clearHead, LogDisk.writeHead, LogDisk.bread, LogDisk.bwrite, Exec.run_bind,
      Exec.run_modify, Exec.run_pure, Exec.run_get, hsect, List.length_nil, Exec.loopTo]
    exact Function.update_self _ _ _
  rw [hclear, headCount_setHead _ (by simp)]
  rfl

/-- The machine when the kernel has come up on the disk. -/
def powerOn : Machine := ⟨mount disk, (mount disk).data, mount disk⟩

variable {disk}

/-- If what was decoded has the bytes it was decoded from, the machine is in order. -/
theorem powerOn_booted (hwf : Wf (mount disk)) (hgeo : Formatted (mount disk))
    (hsize : 0 < (mount disk).log.size)
    (hlayout : (mount disk).sb.dataStart ≤ (mount disk).log.start)
    (hhead : headCount ((mount disk).data (mount disk).log.start) = 0)
    (hsame : ∀ x, x < (mount disk).log.start → ((mount disk).data x).Same ((mount disk).image x)) :
    (powerOn disk).Booted := by
  have hspare : ∀ i, (mount disk).sb.ninodes ≤ i → (mount disk).dinode i = Dinode.zero :=
    fun i hi => if_neg (Nat.not_lt.2 hi)
  refine ⟨mount_quiet disk hwf, ⟨⟨fun x hx _ => hsame x hx, fun x hx => ?_, List.nodup_nil, ?_,
    hhead, fun _ => rfl, hlayout, hspare⟩, hsize, fun _ _ => rfl, hsame, hwf, rfl, hspare, hgeo⟩,
    rfl⟩
  · cases hx
  · exact ⟨Nat.zero_le _, fun hne => absurd rfl hne⟩

end Mount

/-! ## The superblock -/

/-- The words of a block are those of its bytes. -/
theorem word_same {b c : Block} (h : b.Same c) {w : Nat} (hw : 4 * w + 3 < BSIZE) :
    b.word w = c.word w := by
  simp only [Block.word]
  rw [h (4 * w) (by omega), h (4 * w + 1) (by omega), h (4 * w + 2) (by omega), h _ hw]

theorem readsb_same {disk : Nat → Block} {k : State} (h : (disk 1).Same (k.image 1))
    (hgeo : Formatted k) : readsb disk = k.sb := by
  obtain ⟨h0, h1, h2, h3⟩ := hgeo.words
  have himage : k.image 1 = (((Block.zero.setWord 0 k.sb.size).setWord 1 k.sb.nblocks).setWord 2
      k.sb.ninodes).setWord 3 k.sb.nlog := if_pos rfl
  rw [himage] at h
  unfold readsb
  rw [word_same h (by decide), word_same h (by decide), word_same h (by decide),
    word_same h (by decide), Block.word_setWord_self,
    Block.word_setWord_of_ne _ _ (by decide), Block.word_setWord_of_ne _ _ (by decide),
    Block.word_setWord_of_ne _ _ (by decide), Block.word_setWord_self,
    Block.word_setWord_of_ne _ _ (by decide), Block.word_setWord_of_ne _ _ (by decide),
    Block.word_setWord_self, Block.word_setWord_of_ne _ _ (by decide), Block.word_setWord_self,
    Nat.mod_eq_of_lt h0, Nat.mod_eq_of_lt h1, Nat.mod_eq_of_lt h2, Nat.mod_eq_of_lt h3]

/-! ## The file system that is found -/

/-- The files of one kernel are those of another. -/
structure SameFiles (k k' : State) : Prop where
  type : ∀ i, (k'.dinode i).type = (k.dinode i).type
  size : ∀ i, (k.dinode i).type.HasData → (k'.dinode i).size = (k.dinode i).size
  byte : ∀ i o, k'.byteAt i o = k.byteAt i o

/-- What recovery has left of kernel `k`. -/
structure Left (k : State) (disk : Nat → Block) : Prop where
  wf : Wf k
  geometry : Formatted k
  layout : k.sb.dataStart ≤ k.log.start
  spare : ∀ i, k.sb.ninodes ≤ i → k.dinode i = Dinode.zero
  sb : readsb disk = k.sb
  same : ∀ x, x < k.log.start → ((mount disk).data x).Same (k.image x)

section Left

variable {k : State} {disk : Nat → Block} (h : Left k disk)

include h

theorem Left.start : (mount disk).log.start = k.log.start := by
  show (readsb disk).logStart = _
  rw [h.sb, h.geometry.start]

theorem Left.size : (mount disk).log.size = k.log.size := by
  show (readsb disk).nlog = _
  rw [h.sb, h.geometry.size]

/-- Every inode has been written and read back. -/
theorem Left.dinode (i : Nat) : (mount disk).dinode i = (k.dinode i).stored := by
  show (if i < (readsb disk).ninodes then
    dinodeAt ((mount disk).data (iblock i)) (i % IPB) else Dinode.zero) = _
  rw [h.sb]
  split
  · rename_i hi
    apply dinodeAt_congr
    intro o ho
    have hin := iblock_inside hi
    have hlt : iblock i < k.log.start :=
      Nat.lt_of_lt_of_le hin.2 (Nat.le_trans inodes_le_dataStart h.layout)
    have hpos : (iblock i - 2) * IPB + (DINODE * (i % IPB) + o) / 64 = i := by
      simp only [iblock, IPB, DINODE] at *
      omega
    have hoff : (DINODE * (i % IPB) + o) % 64 = o := by
      simp only [DINODE] at *
      omega
    rw [h.same _ hlt _ (by simp only [DINODE, IPB, BSIZE] at *; omega), State.image,
      if_neg (by omega), if_pos hin, hpos, hoff, Nat.mul_zero, Nat.zero_add]
  · rename_i hi
    rw [h.spare i (Nat.not_lt.1 hi), Dinode.stored_zero]

theorem Left.ino (i : Nat) : (mount disk).ino i = (k.dinode i).stored := by
  rw [← h.dinode]
  show (if (if i = ROOTINO then (⟨1, none, false⟩ : CacheEntry) else ⟨0, none, false⟩).valid
    then _ else _) = _
  split <;> rfl

theorem Left.ref_word {x : Nat × Nat} : k.ref x < UINT := by
  by_cases h0 : k.ref x = 0
  · rw [h0]
    decide
  · have hlt := h.wf.owned.ref_lt h0
    have hend := h.wf.owned.log_end
    have hle := h.wf.owned.size_le
    omega

theorem Left.data {b : Nat} (hb : k.DataBlock b) : ((mount disk).data b).Same (k.data b) := by
  have hlo := hb.1
  have himage : k.image b = k.data b := by
    have hlow : k.sb.ninodes / IPB + 3 ≤ k.sb.dataStart := inodes_le_dataStart
    have h3 : 3 ≤ k.sb.ninodes / IPB + 3 := Nat.le_add_left _ _
    rw [State.image, if_neg (by omega), if_neg (by omega), if_neg (by omega)]
  rw [← himage]
  exact h.same b hb.2

theorem Left.ref : (mount disk).ref = k.ref := by
  have hdirect : ∀ i s, s ≤ NDIRECT → (mount disk).ref (i, s) = k.ref (i, s) := by
    intro i s hs
    have hlt := h.ref_word (x := (i, s))
    rw [ref_of_le k hs, h.wf.ino] at hlt ⊢
    rw [ref_of_le _ hs, h.ino]
    exact Dinode.stored_addrs hs hlt
  funext ⟨i, s⟩
  by_cases hs : s ≤ NDIRECT
  · exact hdirect i s hs
  · have hind := hdirect i NDIRECT (Nat.le_refl _)
    rw [ref_of_le _ (Nat.le_refl _), ref_of_le _ (Nat.le_refl _)] at hind
    show slotAddr _ _ s = slotAddr _ _ s
    unfold slotAddr
    rw [if_neg hs, if_neg hs, hind]
    split
    · rename_i hslot
      have hblock := h.wf.owned.region (i, NDIRECT) (by
        rw [ref_of_le _ (Nat.le_refl _)]
        exact hslot.2)
      rw [ref_of_le _ (Nat.le_refl _)] at hblock
      have hlt := hslot.1
      refine word_same (h.data hblock) ?_
      simp only [NSLOT, NDIRECT, BSIZE] at *
      omega
    · rfl

theorem Left.bitmap {b : Nat} (hb : b < k.sb.size) : (mount disk).bitmap b = k.bitmap b := by
  obtain ⟨hlow, hhigh⟩ := bblock_inside hb
  have himage : k.image (k.sb.bblock b) = fun o => bitmapByte k.bitmap (b / BPB * BPB) o := by
    have hoff : k.sb.bblock b - (k.sb.ninodes / IPB + 3) = b / BPB := by
      rw [Superblock.bblock, Nat.add_assoc, Nat.add_sub_cancel]
    have h3 : 3 ≤ k.sb.bblock b := Nat.le_trans (Nat.le_add_left _ _) hlow
    rw [State.image, if_neg (by omega), if_neg (by omega), if_pos ⟨hlow, hhigh⟩, hoff]
  show bitAt ((mount disk).data ((readsb disk).bblock b)) (b % BPB) = _
  rw [h.sb]
  have hmod : b % BPB < BPB := Nat.mod_lt _ (by decide)
  have hbyte : (mount disk).data (k.sb.bblock b) (b % BPB / 8) =
      k.image (k.sb.bblock b) (b % BPB / 8) :=
    h.same _ (Nat.lt_of_lt_of_le hhigh h.layout) _ (by simp only [BPB, BSIZE] at *; omega)
  have hbit := bitAt_bitmapByte k.bitmap (b / BPB * BPB) (b % BPB)
  rw [← himage, Nat.div_add_mod' b BPB] at hbit
  rw [← hbit]
  simp only [bitAt, hbyte]

/-- **The file system is well formed.** -/
theorem Left.mount_wf : Wf (mount disk) := by
  have hsb : (mount disk).sb = k.sb := h.sb
  have ho := h.wf.owned
  have hend := ho.log_end
  have hlt : ∀ b, b < k.log.start → b < k.sb.size := fun b hb => by omega
  have hinvalid : ∀ i, ((mount disk).icache i).valid ≠ true := by
    intro i
    show (if i = ROOTINO then (⟨1, none, false⟩ : CacheEntry) else ⟨0, none, false⟩).valid ≠ true
    split <;> decide
  have hdata : ∀ i, ((mount disk).dinode i).type.HasData → (k.dinode i).type.HasData := by
    intro i ht
    rwa [h.dinode, Dinode.stored_type] at ht
  have hsize : ∀ i, (k.dinode i).type.HasData →
      ((mount disk).dinode i).size = (k.dinode i).size := by
    intro i ht
    rw [h.dinode]
    refine Dinode.stored_size (Nat.lt_of_le_of_lt (h.wf.fits i ht) (by decide))
  refine ⟨⟨⟨?_, fun x hx => ?_⟩, fun x hx => ?_, fun b hb => ?_, ?_, ?_⟩,
    fun i hv => absurd hv (hinvalid i), fun i hv => absurd hv (hinvalid i), fun i ht => ?_,
    fun i ht => ?_⟩
  · rw [h.ref]
    exact ho.excl.inj
  · rw [h.ref] at hx ⊢
    rw [h.bitmap (hlt _ (ho.ref_lt hx))]
    exact ho.excl.held x hx
  · rw [h.ref] at hx ⊢
    have hr := ho.region x hx
    exact ⟨by rw [hsb]; exact hr.1, by rw [h.start]; exact hr.2⟩
  · rw [hsb] at hb
    rw [h.bitmap (hlt b (Nat.lt_of_lt_of_le hb h.layout))]
    exact ho.marked b hb
  · rw [h.start, h.size, hsb]
    exact hend
  · rw [hsb]
    exact ho.size_le
  · rw [hsize i (hdata i ht)]
    exact h.wf.fits i (hdata i ht)
  · rw [hsize i (hdata i ht)]
    have hm := h.wf.mapped i (hdata i ht)
    unfold State.Mapped at hm ⊢
    rw [h.ref]
    exact hm

/-- The files are the same. -/
theorem Left.files : SameFiles k (mount disk) := by
  refine ⟨fun i => ?_, fun i ht => ?_, fun i o => ?_⟩
  · rw [h.dinode, Dinode.stored_type]
  · rw [h.dinode]
    exact Dinode.stored_size (Nat.lt_of_le_of_lt (h.wf.fits i ht) (by decide))
  · unfold State.byteAt
    rw [h.ref]
    split
    · rfl
    · rename_i h0
      exact h.data (h.wf.owned.region _ h0) _ (Nat.mod_lt _ (by decide))

/-- The kernel would write every block as it is. -/
theorem Left.rewritten {x : Nat} (hx : x < k.log.start) :
    ((mount disk).data x).Same ((mount disk).image x) := by
  intro o ho
  have hsame := h.same x hx o ho
  have hsb : (mount disk).sb = k.sb := h.sb
  by_cases h1 : x = 1
  · rw [hsame, State.image, State.image, hsb, if_pos h1, if_pos h1]
  by_cases hin : 2 ≤ x ∧ x < k.sb.ninodes / IPB + 3
  · rw [hsame, State.image, State.image, hsb, if_neg h1, if_neg h1, if_pos hin, if_pos hin]
    show _ = dinodeBytes ((mount disk).dinode _) _
    rw [h.dinode, Dinode.bytes_stored (Nat.mod_lt _ (by decide))]
  by_cases hmap : k.sb.ninodes / IPB + 3 ≤ x ∧ x < k.sb.dataStart
  · rw [State.image, hsb, if_neg h1, if_neg hin, if_pos hmap]
    symm
    apply bitmapByte_bitAt
    intro r hr
    have hbit : 8 * o + r < BPB := by
      simp only [BSIZE, BPB] at *
      omega
    have hblock : k.sb.bblock ((x - (k.sb.ninodes / IPB + 3)) * BPB + 8 * o + r) = x := by
      rw [Superblock.bblock, Nat.add_assoc _ (8 * o), Nat.mul_comm, Nat.mul_add_div (by decide),
        Nat.div_eq_of_lt hbit]
      omega
    show bitAt ((mount disk).data ((readsb disk).bblock _)) _ = _
    rw [h.sb, hblock, Nat.add_assoc _ (8 * o), Nat.mul_comm, Nat.mul_add_mod,
      Nat.mod_eq_of_lt hbit]
  · rw [State.image, hsb, if_neg h1, if_neg hin, if_neg hmap]

/-- **The next kernel is in order.** -/
theorem Left.booted (hsize : 0 < k.log.size)
    (hhead : headCount ((mount disk).data k.log.start) = 0) : (powerOn disk).Booted := by
  have hsb : (mount disk).sb = k.sb := h.sb
  refine powerOn_booted h.mount_wf ⟨?_, ?_, ?_⟩ ?_ ?_ ?_ fun x hx => ?_
  · rw [h.start, hsb, h.geometry.start]
  · rw [h.size, hsb, h.geometry.size]
  · rw [hsb]
    exact h.geometry.words
  · rw [h.size]
    exact hsize
  · rw [h.start, hsb]
    exact h.layout
  · rw [h.start]
    exact hhead
  · rw [h.start] at hx
    exact h.rewritten hx

end Left

/-! ## A block that is never written -/

/-- Block `x` is as on disk `d₀`, and the header does not list it. -/
structure Spared (start x : Nat) (d₀ d : Nat → Block) : Prop where
  same : d x = d₀ x
  unlisted : x ∉ headSectors (d start)

/-- Writes of other blocks, among them headers that do not list `x`. -/
def Avoiding (start x : Nat) (ws : List (Nat × Block)) : Prop :=
  ∀ w ∈ ws, w.1 ≠ x ∧ (w.1 = start → x ∉ headSectors w.2)

section Spared

variable {start x : Nat} {d₀ d : Nat → Block}

theorem Spared.writes {ws : List (Nat × Block)} (h : Spared start x d₀ d)
    (hws : Avoiding start x ws) : Spared start x d₀ (applyWrites d ws) := by
  induction ws generalizing d with
  | nil => exact h
  | cons w ws ih =>
      rw [applyWrites_cons]
      obtain ⟨hne, hhead⟩ := hws w (List.mem_cons_self ..)
      refine ih ⟨?_, ?_⟩ fun w' hw' => hws w' (List.mem_cons_of_mem _ hw')
      · rw [Function.update_of_ne (Ne.symm hne)]
        exact h.same
      · by_cases hw : w.1 = start
        · rw [hw, Function.update_self]
          exact hhead hw
        · rw [Function.update_of_ne (Ne.symm hw)]
          exact h.unlisted

theorem Avoiding.take {ws : List (Nat × Block)} (h : Avoiding start x ws) (j : Nat) :
    Avoiding start x (ws.take j) := fun w hw => h w (List.mem_of_mem_take hw)

theorem avoiding_install {lh : List Nat} (hx : x ∉ lh) (hstart : start ∉ lh) :
    Avoiding start x (installWrites d start lh) := by
  intro w hw
  obtain ⟨t, ht, rfl⟩ := List.mem_map.1 hw
  have hmem : lh.getD t 0 ∈ lh := by
    have hlt := List.mem_range.1 ht
    rw [List.getD_eq_getElem?_getD, List.getElem?_eq_getElem hlt, Option.getD_some]
    exact List.getElem_mem hlt
  refine ⟨fun heq => hx ?_, fun heq => absurd ?_ hstart⟩
  · rw [← heq]
    exact hmem
  · rw [← heq]
    exact hmem

theorem headSectors_clear (b : Block) : headSectors (setHead b []) = [] :=
  headSectors_of_count (headCount_setHead b (by simp))

theorem avoiding_clear (hx : x ≠ start) (b : Block) : Avoiding start x [(start, setHead b [])] := by
  intro w hw
  rw [List.mem_singleton.1 hw, headSectors_clear]
  exact ⟨Ne.symm hx, fun _ => List.not_mem_nil⟩

/-- Recovery does not write a block that the header does not list. -/
theorem Spared.afterCrashes {l : Log} {T : Nat → Block} (hsize : 0 < l.size) (hx : x ≠ l.start)
    (h : Spared l.start x d₀ d) (hr : Recoverable l T d) (js : List Nat) :
    Spared l.start x d₀ (LogDisk.afterCrashes l d js) := by
  induction js generalizing d with
  | nil => exact h
  | cons j js ih =>
      rw [LogDisk.afterCrashes, hr.recoveryTrace_eq hsize]
      have hstart : l.start ∉ headSectors (d l.start) := by
        rcases hr with hq | ⟨L, hp⟩
        · rw [headSectors_of_count hq.1]
          exact List.not_mem_nil
        · rw [hp.head]
          exact fun hmem => hp.outside _ hmem ⟨Nat.le_refl _, by omega⟩
      have hws : Avoiding l.start x (recoverWrites l d) := by
        intro w hw
        rcases List.mem_append.1 hw with hin | hend
        · exact avoiding_install h.unlisted hstart w hin
        · exact avoiding_clear hx _ w hend
      exact ih (h.writes (hws.take j)) ((hr.recover hsize).1 j)

end Spared

/-- The superblock is never written. -/
theorem PowerCut.spared {c : Config Nat Act Act.Res Machine} {d : Nat → Block}
    (h : PowerCut c d) (hstored : c.state.Stored) (howned : Owned c.state.kernel) :
    Spared c.state.kernel.log.start 1 c.state.disk d := by
  have hlayout : 1 < c.state.kernel.log.start :=
    Nat.lt_of_lt_of_le (by decide) (Nat.le_trans four_le_dataStart hstored.clean.layout)
  have hbelow := hstored.clean.below
  have hempty : headSectors (c.state.disk c.state.kernel.log.start) = [] :=
    headSectors_of_count hstored.quiet.1
  have hdisk : Spared c.state.kernel.log.start 1 c.state.disk c.state.disk :=
    ⟨rfl, by rw [hempty]; exact List.not_mem_nil⟩
  rcases h with rfl | ⟨p, a, rest, -, hcut⟩
  · exact hdisk
  by_cases hc : a = .commitTrans
  · subst hc
    obtain ⟨j, rfl⟩ := hcut
    refine hdisk.writes (Avoiding.take ?_ j)
    by_cases hne : c.state.kernel.log.lh = []
    · have hcommit : c.state.commit.writes = [] := by
        simp [Machine.commit, LogDisk.commitTrans, hne, run_bind]
      rw [hcommit]
      exact fun w hw => absurd hw List.not_mem_nil
    · have hp := hstored.pending howned hne
      obtain ⟨s, hrun, hwrites, -⟩ := LogDisk.commitTrans_run
        ⟨c.state.disk, c.state.kernel.log, []⟩ hp.outside hp.room hne
      have hlist : c.state.commit.writes =
          commitWrites c.state.kernel.log ⟨c.state.disk, c.state.kernel.log, []⟩ := by
        simp only [Machine.commit, hrun]
        exact hwrites
      have h1 : 1 ∉ c.state.kernel.log.lh := fun hmem => by
        have := (hbelow 1 hmem).1
        omega
      have hs : c.state.kernel.log.start ∉ c.state.kernel.log.lh := fun hmem => by
        have := (hbelow _ hmem).2
        omega
      have hhead : headSectors (setHead (c.state.disk c.state.kernel.log.start)
          c.state.kernel.log.lh) = c.state.kernel.log.lh := by
        rw [← c.state.headed_start]
        exact hp.head
      rw [hlist]
      intro w hw
      rcases List.mem_cons.1 hw with rfl | hw
      · refine ⟨by
          show c.state.kernel.log.start ≠ 1
          omega, fun _ => ?_⟩
        show 1 ∉ headSectors (setHead (c.state.disk c.state.kernel.log.start) _)
        rw [hhead]
        exact h1
      · rcases List.mem_append.1 hw with hin | hend
        · exact avoiding_install h1 hs w hin
        · exact avoiding_clear (by omega) _ w hend
  · have hslots : ∀ x, ¬(c.state.kernel.log.start < x ∧
        x < c.state.kernel.log.start + c.state.kernel.log.size) → d x = c.state.disk x := by
      cases a with
      | commitTrans => exact absurd rfl hc
      | _ => exact hcut
    refine ⟨hslots 1 (by omega), ?_⟩
    rw [hslots _ (by omega), hempty]
    exact List.not_mem_nil

/-! ## The next kernel -/

/-- What the next kernel's recovery does. -/
theorem recovered_eq {l : Log} {sb : Superblock} {d : Nat → Block} {s : LogDisk}
    (hstart : l.start = sb.logStart) (hsize : l.size = sb.nlog)
    (hrun : recoverFromLog.run (boot l d) = .ok () s) : recovered d sb = s.disk := by
  have hboot : boot l d = ⟨d, ⟨sb.logStart, sb.nlog, none, []⟩, []⟩ := by
    rw [boot, ← hstart, ← hsize]
  rw [hboot] at hrun
  rw [recovered, hrun]

section PowerCut

variable {m : Machine} {c : Config Nat Act Act.Res Machine} {d T : Nat → Block} {k : State}

/-- **A power cut and the next boot.**  The next kernel comes up on what recovery gets to. -/
theorem PowerCut.boots (hcut : PowerCut c d) (hstored : c.state.Stored)
    (howned : Owned c.state.kernel) (hrec : Recoverable c.state.kernel.log T d)
    (hshown : Shown c T k) (js : List Nat) :
    (powerOn (afterCrashes c.state.kernel.log d js)).Booted ∧
      SameFiles k (mount (afterCrashes c.state.kernel.log d js)) ∧
      readsb (afterCrashes c.state.kernel.log d js) = c.state.kernel.sb := by
  obtain ⟨s, hs, hzero, hsettled⟩ := hrec.settles hstored.size js
  have hparts := hshown.shape
  simp only [Shape, State.shape, Prod.mk.injEq] at hparts
  obtain ⟨hsb, hstart, hsize⟩ := hparts
  have hlayout : c.state.kernel.sb.dataStart ≤ c.state.kernel.log.start := hstored.clean.layout
  have hone : 1 < c.state.kernel.log.start :=
    Nat.lt_of_lt_of_le (by decide) (Nat.le_trans four_le_dataStart hlayout)
  have hspared := (hcut.spared hstored howned).afterCrashes hstored.size (by omega) hrec js
  have hsuper : readsb (afterCrashes c.state.kernel.log d js) = k.sb := by
    have hread : readsb (afterCrashes c.state.kernel.log d js) = c.state.last.sb := by
      refine readsb_same ?_ (hstored.geometry.shape hstored.shape)
      rw [hspared.same]
      exact hstored.last 1 hone
    have hlast := hstored.shape
    simp only [Shape, State.shape, Prod.mk.injEq] at hlast
    rw [hread, hlast.1, hsb]
  have hdata : (mount (afterCrashes c.state.kernel.log d js)).data = s.disk := by
    show recovered _ (readsb _) = _
    rw [hsuper, hsb]
    exact recovered_eq hstored.geometry.start hstored.geometry.size hs
  have hleft : Left k (afterCrashes c.state.kernel.log d js) := by
    refine ⟨hshown.wf, hstored.geometry.shape hshown.shape, by rw [hsb, hstart]; exact hlayout,
      hshown.spare, hsuper, fun x hx => ?_⟩
    rw [hstart] at hx
    rw [hdata, hsettled x fun hregion => absurd hregion.1 (by omega)]
    exact hshown.same x hx
  refine ⟨hleft.booted (by rw [hsize]; exact hstored.size) ?_, hleft.files, hsuper.trans hsb⟩
  rw [hdata, hstart, headCount, hzero]
  rfl

/-- The next kernel is in order, has the same superblock and finds the files of a commit. -/
theorem Machine.Run.reboots (hrun : Machine.Run m.idle c) (hboot : m.Booted)
    (hfed : c.state.kernel.starved = false) (hcut : PowerCut c d) (js : List Nat) :
    (powerOn (afterCrashes c.state.kernel.log d js)).Booted ∧
      readsb (afterCrashes c.state.kernel.log d js) = m.kernel.sb ∧
      ∃ k, SameFiles k (mount (afterCrashes c.state.kernel.log d js)) ∧ Committed m c k := by
  obtain ⟨hwf, hstored, hshape⟩ := hrun.kept hboot hfed
  obtain ⟨T, k, hrec, hshown, hcommitted⟩ := hrun.recovers hboot hfed hcut
  obtain ⟨hnext, hfiles, hsuper⟩ := hcut.boots hstored hwf.owned hrec hshown js
  exact ⟨hnext, hsuper.trans (congrArg Prod.fst hshape), k, hfiles, hcommitted⟩

end PowerCut

/-- The disks with which a machine is switched on again and again, starting with `disk`: each time
the power is cut in some run, and then during the recovery. -/
inductive Restarts (disk : Nat → Block) : (Nat → Block) → Prop where
  | first : Restarts disk disk
  | again {d d' : Nat → Block} {c : Config Nat Act Act.Res Machine} (js : List Nat) :
      Restarts disk d → Machine.Run (powerOn d).idle c → c.state.kernel.starved = false →
      PowerCut c d' → Restarts disk (afterCrashes c.state.kernel.log d' js)

section Restarts

variable {disk d d' : Nat → Block} {c : Config Nat Act Act.Res Machine}

/-- Each kernel comes up in order and with the first superblock. -/
theorem Restarts.booted (h : Restarts disk d) (hboot : (powerOn disk).Booted) :
    (powerOn d).Booted ∧ readsb d = readsb disk := by
  induction h with
  | first => exact ⟨hboot, rfl⟩
  | again js _ hrun hfed hcut ih =>
      obtain ⟨hnext, hsuper, -⟩ := hrun.reboots ih.1 hfed hcut js
      exact ⟨hnext, hsuper.trans ih.2⟩

end Restarts

end Xv6.Kernel
