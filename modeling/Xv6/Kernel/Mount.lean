import Xv6.Kernel.Fs
import Mathlib.Data.Nat.Bitwise

/-!
# From the bytes of a disk to the kernel's state

The kernel keeps inodes and bitmap decoded.  `dinodeAt` and `bitAt` decode them,
and undo `dinodeBytes` and the setting of a bit; `mount` is the state after the
kernel has come up on a disk: the log is recovered, nothing is cached but the
root directory that is the working directory of the first process.
-/

namespace Xv6.Kernel

open Xv6.Verified

/-! ## Disk inodes -/

/-- `sizeof(struct dinode)`. -/
abbrev DINODE : Nat := 64

/-- The type with a given code.  Codes from 3 on are the device's: nothing the
kernel or `mkfs` writes has another. -/
def InodeType.ofCode : Nat → InodeType
  | 0 => .free
  | 1 => .dir
  | 2 => .file
  | _ => .dev

@[simp] theorem InodeType.ofCode_code (t : InodeType) : ofCode t.code = t := by
  cases t <;> rfl

/-- The `short` at byte `o` of a block. -/
def Block.short (b : Block) (o : Nat) : Int :=
  toShort ((b o).toNat + 256 * (b (o + 1)).toNat : Nat)

/-- The `struct dinode` in slot `j` of a block of inodes. -/
def dinodeAt (b : Block) (j : Nat) : Dinode :=
  { type := .ofCode ((b (DINODE * j)).toNat + 256 * (b (DINODE * j + 1)).toNat)
    major := b.short (DINODE * j + 2)
    minor := b.short (DINODE * j + 4)
    nlink := b.short (DINODE * j + 6)
    size := b.word (IPB * j + 2)
    addrs := fun s => if s ≤ NDIRECT then b.word (IPB * j + 3 + s) else 0 }

/-- Store a `struct dinode` in slot `j` of a block of inodes. -/
def setDinode (b : Block) (j : Nat) (d : Dinode) : Block :=
  b.copyIn (DINODE * j) DINODE (dinodeBytes d)

/-- A value that fits a `struct dinode`. -/
structure Dinode.Encodable (d : Dinode) : Prop where
  major : -32768 ≤ d.major ∧ d.major < 32768
  minor : -32768 ≤ d.minor ∧ d.minor < 32768
  nlink : -32768 ≤ d.nlink ∧ d.nlink < 32768
  size : d.size < UINT
  addrs : ∀ s, d.addrs s < UINT
  slots : ∀ s, NDIRECT < s → d.addrs s = 0

theorem setDinode_inside (b : Block) (j : Nat) (d : Dinode) {o : Nat} (ho : o < DINODE) :
    setDinode b j d (DINODE * j + o) = dinodeBytes d o := by
  have hin : DINODE * j ≤ DINODE * j + o ∧ DINODE * j + o < DINODE * j + DINODE := by omega
  rw [setDinode, Block.copyIn, if_pos hin, Nat.add_sub_cancel_left]

theorem setDinode_outside (b : Block) {j j' : Nat} (d : Dinode) (hj : j' ≠ j) {o : Nat}
    (ho : o < DINODE) : setDinode b j d (DINODE * j' + o) = b (DINODE * j' + o) := by
  have hout : ¬(DINODE * j ≤ DINODE * j' + o ∧ DINODE * j' + o < DINODE * j + DINODE) := by
    simp only [DINODE] at *
    omega
  rw [setDinode, Block.copyIn, if_neg hout]

/-- A word in slot `j` depends on that slot's bytes only. -/
theorem word_slot {b b' : Block} {j j' : Nat}
    (h : ∀ o, o < DINODE → b (DINODE * j + o) = b' (DINODE * j' + o)) {w : Nat} (hw : w < IPB) :
    b.word (IPB * j + w) = b'.word (IPB * j' + w) := by
  simp only [Block.word]
  have hat : ∀ r, r < 4 → b (4 * (IPB * j + w) + r) = b' (4 * (IPB * j' + w) + r) := by
    intro r hr
    have := h (4 * w + r) (by simp only [DINODE, IPB] at *; omega)
    rw [show 4 * (IPB * j + w) + r = DINODE * j + (4 * w + r) by simp only [DINODE, IPB]; omega,
      show 4 * (IPB * j' + w) + r = DINODE * j' + (4 * w + r) by simp only [DINODE, IPB]; omega]
    exact this
  rw [← Nat.add_zero (4 * (IPB * j + w)), ← Nat.add_zero (4 * (IPB * j' + w)),
    hat 0 (by omega), Nat.add_zero, Nat.add_zero, hat 1 (by omega), hat 2 (by omega),
    hat 3 (by omega)]

/-- An inode depends on the bytes of its slot only. -/
theorem dinodeAt_congr {b b' : Block} {j j' : Nat}
    (h : ∀ o, o < DINODE → b (DINODE * j + o) = b' (DINODE * j' + o)) :
    dinodeAt b j = dinodeAt b' j' := by
  have h0 := h 0 (by decide)
  rw [Nat.add_zero, Nat.add_zero] at h0
  simp only [dinodeAt, Block.short, h0, h 1 (by decide), Nat.add_assoc, h 2 (by decide),
    h 3 (by decide), h 4 (by decide), h 5 (by decide), h 6 (by decide), h 7 (by decide),
    Dinode.mk.injEq, true_and]
  constructor
  · exact word_slot h (by decide)
  · funext s
    by_cases hs : s ≤ NDIRECT
    · rw [if_pos hs, if_pos hs]
      exact word_slot h (by simp only [NDIRECT, IPB] at *; omega)
    · rw [if_neg hs, if_neg hs]

theorem toShort_bytes {x : Int} (h : -32768 ≤ x ∧ x < 32768) :
    toShort ((UInt8.ofNat ((x % 65536).toNat / 256 ^ 0)).toNat +
      256 * (UInt8.ofNat ((x % 65536).toNat / 256 ^ 1)).toNat : Nat) = x := by
  simp only [UInt8.toNat_ofNat', toShort]
  omega

theorem word_bytes {b : Block} {w v : Nat} (hv : v < UINT)
    (h : ∀ r, r < 4 → b (4 * w + r) = UInt8.ofNat (v / 256 ^ r)) : b.word w = v := by
  have h0 := h 0 (by omega)
  rw [Nat.add_zero] at h0
  simp only [Block.word, h0, h 1 (by omega), h 2 (by omega), h 3 (by omega),
    UInt8.toNat_ofNat', UINT] at *
  omega

theorem dinodeAt_bytes {d : Dinode} (h : d.Encodable) : dinodeAt (dinodeBytes d) 0 = d := by
  have hsize : Block.word (dinodeBytes d) (IPB * 0 + 2) = d.size := by
    refine word_bytes h.size fun r hr => ?_
    rw [dinodeBytes, if_neg (by omega), if_neg (by omega), if_neg (by omega), if_neg (by omega),
      if_pos (by omega)]
    congr 3
    omega
  have haddr : ∀ s, s ≤ NDIRECT → Block.word (dinodeBytes d) (IPB * 0 + 3 + s) = d.addrs s := by
    refine fun s hs => word_bytes (h.addrs s) fun r hr => ?_
    rw [dinodeBytes, if_neg (by omega), if_neg (by omega), if_neg (by omega), if_neg (by omega),
      if_neg (by omega), show (4 * (IPB * 0 + 3 + s) + r - 12) / 4 = s by omega,
      show (4 * (IPB * 0 + 3 + s) + r - 12) % 4 = r by omega]
  rw [dinodeAt, hsize]
  ext s
  · show InodeType.ofCode _ = _
    have hcode : (dinodeBytes d (DINODE * 0)).toNat + 256 * (dinodeBytes d (DINODE * 0 + 1)).toNat
        = d.type.code := by
      cases ht : d.type <;> simp [dinodeBytes, ht, InodeType.code]
    rw [hcode, InodeType.ofCode_code]
  · exact toShort_bytes h.major
  · exact toShort_bytes h.minor
  · exact toShort_bytes h.nlink
  · rfl
  · show (if s ≤ NDIRECT then _ else 0) = d.addrs s
    split
    · rename_i hs
      exact haddr s hs
    · rename_i hs
      exact (h.slots s (by omega)).symm

/-- Storing an inode stores that inode and touches no other slot. -/
theorem dinodeAt_setDinode_self (b : Block) (j : Nat) {d : Dinode} (h : d.Encodable) :
    dinodeAt (setDinode b j d) j = d := by
  refine (dinodeAt_congr fun o ho => ?_).trans (dinodeAt_bytes h)
  rw [setDinode_inside b j d ho, Nat.mul_zero, Nat.zero_add]

theorem dinodeAt_setDinode_of_ne (b : Block) {j j' : Nat} (d : Dinode) (hj : j' ≠ j) :
    dinodeAt (setDinode b j d) j' = dinodeAt b j' :=
  dinodeAt_congr fun _ ho => setDinode_outside b d hj ho

/-! ## The bitmap -/

/-- Bit `i` of a block. -/
def bitAt (b : Block) (i : Nat) : Bool := (b (i / 8)).toNat.testBit (i % 8)

/-- `buf[i/8] = buf[i/8] | (0x1 << (i%8))`. -/
def setBit (b : Block) (i : Nat) : Block :=
  Function.update b (i / 8) (b (i / 8) ||| UInt8.ofNat (2 ^ (i % 8)))

theorem bitAt_setBit (b : Block) (i j : Nat) :
    bitAt (setBit b i) j = (decide (i = j) || bitAt b j) := by
  have hpow : (UInt8.ofNat (2 ^ (i % 8))).toNat = 2 ^ (i % 8) := by
    have hlt : 2 ^ (i % 8) < 2 ^ 8 := Nat.pow_lt_pow_right (by omega) (by omega)
    rw [UInt8.toNat_ofNat', Nat.mod_eq_of_lt hlt]
  unfold bitAt setBit
  by_cases hbyte : j / 8 = i / 8
  · rw [hbyte, Function.update_self, UInt8.toNat_or, Nat.testBit_or, hpow, Nat.testBit_two_pow,
      Bool.or_comm]
    congr 1
    exact decide_eq_decide.2 (by omega)
  · rw [Function.update_of_ne hbyte]
    have hne : i ≠ j := by
      rintro rfl
      exact hbyte rfl
    simp [hne]

/-! ## Mounting -/

/-- The disk once `recover_from_log` has run. -/
def recovered (disk : Nat → Block) (sb : Superblock) : Nat → Block :=
  match LogDisk.recoverFromLog.run ⟨disk, ⟨sb.logStart, sb.nlog, none, []⟩, []⟩ with
  | .ok _ s => s.disk
  | .fail _ s => s.disk

/-- `readsb`. -/
def readsb (disk : Nat → Block) : Superblock :=
  ⟨(disk 1).word 0, (disk 1).word 1, (disk 1).word 2, (disk 1).word 3⟩

/-- The state of the kernel when the first process starts.  Inode numbers from
`ninodes` on name nothing. -/
def mount (disk : Nat → Block) : State where
  sb := readsb disk
  dinode i :=
    if i < (readsb disk).ninodes then
      dinodeAt (recovered disk (readsb disk) (iblock i)) (i % IPB)
    else Dinode.zero
  bitmap b := bitAt (recovered disk (readsb disk) ((readsb disk).bblock b)) (b % BPB)
  data := recovered disk (readsb disk)
  icopy _ := Dinode.zero
  icache i := if i = ROOTINO then ⟨1, none, false⟩ else ⟨0, none, false⟩
  log := ⟨(readsb disk).logStart, (readsb disk).nlog, none, []⟩
  ftable _ := ⟨.none, 0, false, false, 0, 0⟩
  ptable p := if p = 0 then ⟨.live, some ROOTINO, fun _ => none⟩ else ⟨.unused, none, fun _ => none⟩
  cur := 0
  devsw _ := ⟨none, none⟩
  devCalls := 0
  allocs := []
  starved := false
  foreign := false

/-- A log that was left empty has nothing to recover. -/
theorem recovered_of_empty {disk : Nat → Block} {sb : Superblock}
    (h : headCount (disk sb.logStart) = 0) {b : Nat} (hb : b ≠ sb.logStart) :
    recovered disk sb b = disk b := by
  have hsect := headSectors_of_count h
  simp only [recovered, LogDisk.recoverFromLog, LogDisk.readHead, LogDisk.installTrans,
    LogDisk.clearHead, LogDisk.writeHead, LogDisk.bread, LogDisk.bwrite, Exec.run_bind,
    Exec.run_modify, Exec.run_pure, Exec.run_get, hsect, List.length_nil,
    Exec.loopTo]
  exact Function.update_of_ne hb _ _

end Xv6.Kernel
