import Xv6.Kernel.Layout
import Xv6.Verified.CrashTrace
import Xv6.Verified.Exec

/-!
# The redo log on the disk

`kernel/log.c` over a disk of sectors.  `Log` is the in-memory `struct log`:
`lh` holds the first `n` entries of `lh.sector`, and `busy` names the process
that set it.  The functions below are the source's, with `bread` returning the
sector's contents (the log's own sectors are only ever changed by `bwrite`, so
the cached copy and the disk agree on them) and `bwrite` appending to the list
of writes the disk has received, which is what a crash cuts short.
-/

namespace Xv6.Kernel

open Xv6.Verified
open Xv6.Verified.CrashTrace

/-! ## The in-memory log -/

/-- `struct log`. -/
structure Log where
  start : Nat
  size : Nat
  busy : Option Nat
  lh : List Nat

namespace Log

/-- `log.lh.n >= LOGSIZE || log.lh.n >= log.size - 1`. -/
def Full (l : Log) : Prop := LOGSIZE ≤ l.lh.length ∨ l.size ≤ l.lh.length + 1

instance (l : Log) : Decidable l.Full := by
  unfold Full
  infer_instance

/-- The index `log_write`'s search ends at: the sector's own slot if it has
been logged before, the first free one otherwise. -/
def slot (l : Log) (sector : Nat) : Nat := l.lh.idxOf sector

/-- The header after `log_write`. -/
def record (l : Log) (sector : Nat) : Log :=
  if sector ∈ l.lh then l else { l with lh := l.lh ++ [sector] }

@[simp] theorem record_start (l : Log) (s : Nat) : (l.record s).start = l.start := by
  unfold record
  split <;> rfl

@[simp] theorem record_size (l : Log) (s : Nat) : (l.record s).size = l.size := by
  unfold record
  split <;> rfl

@[simp] theorem record_busy (l : Log) (s : Nat) : (l.record s).busy = l.busy := by
  unfold record
  split <;> rfl

theorem mem_record (l : Log) (s x : Nat) :
    x ∈ (l.record s).lh ↔ x ∈ l.lh ∨ x = s := by
  unfold record
  split
  · rename_i h
    exact ⟨.inl, fun hx => hx.elim id fun hs => hs ▸ h⟩
  · simp

theorem record_nodup {l : Log} (s : Nat) (h : l.lh.Nodup) : (l.record s).lh.Nodup := by
  unfold record
  split
  · exact h
  · rename_i hs
    refine List.nodup_append.2 ⟨h, by simp, ?_⟩
    intro a ha b hb hab
    rw [List.mem_singleton] at hb
    exact hs (by rwa [← hb, ← hab])

theorem slot_le (l : Log) (s : Nat) : l.slot s ≤ l.lh.length := List.idxOf_le_length

/-- Past the size check, the slot's sector is inside the log region. -/
theorem slot_lt {l : Log} {s : Nat} (h : ¬l.Full) : l.slot s + 1 < l.size := by
  have := l.slot_le s
  simp only [Full, LOGSIZE] at h
  omega

/-- Sectors of the log region. -/
def Region (l : Log) (x : Nat) : Prop := l.start ≤ x ∧ x < l.start + l.size

end Log

/-! ## The header block -/

/-- `hb->sector[i] = sector[i]` for the sectors from index `k` on. -/
def setSectors (b : Block) (k : Nat) : List Nat → Block
  | [] => b
  | x :: xs => setSectors (b.setWord (k + 1) x) (k + 1) xs

/-- `hb->n = n; hb->sector[i] = sector[i]`, the rest of the block unchanged. -/
def setHead (b : Block) (lh : List Nat) : Block :=
  setSectors (b.setWord 0 lh.length) 0 lh

/-- The `int` the header holds as its count, cut at zero: a negative count
installs nothing. -/
def headCount (b : Block) : Nat := if b.word 0 < 2147483648 then b.word 0 else 0

/-- The sector numbers `read_head` copies out of the header. -/
def headSectors (b : Block) : List Nat :=
  (List.range (headCount b)).map fun i => b.word (i + 1)

theorem word_setSectors_of_le (xs : List Nat) (b : Block) {k j : Nat} (hj : j ≤ k) :
    (setSectors b k xs).word j = b.word j := by
  induction xs generalizing b k with
  | nil => rfl
  | cons x xs ih =>
      rw [setSectors, ih _ (by omega), Block.word_setWord_of_ne b x (by omega)]

theorem word_setSectors (xs : List Nat) (b : Block) (k i : Nat) (hi : i < xs.length) :
    (setSectors b k xs).word (k + i + 1) = xs[i] % UINT := by
  induction xs generalizing b k i with
  | nil => simp at hi
  | cons x xs ih =>
      rw [setSectors]
      cases i with
      | zero =>
          rw [word_setSectors_of_le xs _ (by omega), Block.word_setWord_self]
          rfl
      | succ i =>
          have h := ih (b.setWord (k + 1) x) (k + 1) i (by simpa using hi)
          rw [show k + (i + 1) + 1 = k + 1 + i + 1 by omega, h]
          rfl

/-- The header written for `lh` counts `lh`. -/
theorem headCount_setHead (b : Block) {lh : List Nat} (h : lh.length ≤ LOGSIZE) :
    headCount (setHead b lh) = lh.length := by
  have hw : (setHead b lh).word 0 = lh.length % UINT := by
    rw [setHead, word_setSectors_of_le _ _ (by omega), Block.word_setWord_self]
  simp only [LOGSIZE] at h
  rw [headCount, hw, UINT, Nat.mod_eq_of_lt (by omega), if_pos (by omega)]

/-- What `write_head` stores is what `read_head` finds. -/
theorem headSectors_setHead (b : Block) {lh : List Nat} (h : lh.length ≤ LOGSIZE)
    (hlt : ∀ x ∈ lh, x < UINT) : headSectors (setHead b lh) = lh := by
  rw [headSectors, headCount_setHead b h]
  refine List.ext_getElem (by simp) fun i hi hi' => ?_
  have hw := word_setSectors lh (b.setWord 0 lh.length) 0 i hi'
  rw [Nat.zero_add, Nat.mod_eq_of_lt (hlt _ (List.getElem_mem hi'))] at hw
  simpa [setHead] using hw

theorem headSectors_of_count {b : Block} (h : headCount b = 0) : headSectors b = [] := by
  simp [headSectors, h]

/-! ## Disk and log together -/

/-- A buffer handed to `log_write`: a sector number, which is a `uint`, and
the data. -/
structure Buf where
  sector : Nat
  data : Block
  sector_lt : sector < UINT

/-- The disk, the in-memory log, and the writes the disk has received. -/
structure LogDisk where
  disk : Nat → Block
  log : Log
  writes : List (Nat × Block)

namespace LogDisk

/-- Computations of the log layer. -/
abbrev M := Exec Stop LogDisk

open Exec

/-- `bwrite`: one atomic sector write. -/
def bwrite (sector : Nat) (b : Block) : M Unit :=
  modify fun s =>
    { s with
      disk := Function.update s.disk sector b
      writes := s.writes ++ [(sector, b)] }

/-- `bread`. -/
def bread (sector : Nat) : M Block := do
  let s ← get
  return s.disk sector

/-- `log_write`. -/
def logWrite (b : Buf) : M Unit := do
  let s ← get
  if s.log.Full then stop (.panic .tooBigTransaction)
  else if s.log.busy.isNone then stop (.panic .writeOutsideTrans)
  else do
    bwrite (s.log.start + s.log.slot b.sector + 1) b.data
    modify fun s => { s with log := s.log.record b.sector }

/-- `read_head`. -/
def readHead : M Unit := do
  let s ← get
  let buf ← bread s.log.start
  modify fun s => { s with log := { s.log with lh := headSectors buf } }

/-- `write_head`. -/
def writeHead : M Unit := do
  let s ← get
  let buf ← bread s.log.start
  bwrite s.log.start (setHead buf s.log.lh)

/-- `install_trans`. -/
def installTrans : M Unit := do
  let s ← get
  loopTo (fun tail => do
    let lbuf ← bread (s.log.start + tail + 1)
    bwrite (s.log.lh.getD tail 0) lbuf) s.log.lh.length

/-- `log.lh.n = 0`. -/
def clearHead : M Unit :=
  modify fun s => { s with log := { s.log with lh := [] } }

/-- `recover_from_log`. -/
def recoverFromLog : M Unit := do
  readHead
  installTrans
  clearHead
  writeHead

/-- `commit_trans`. -/
def commitTrans : M Unit := do
  let s ← get
  if s.log.lh.length > 0 then do
    writeHead
    installTrans
    clearHead
    writeHead
  modify fun s => { s with log := { s.log with busy := none } }

/-- One transaction after `begin_trans`: its `log_write` calls, then
`commit_trans`. -/
def transaction (bs : List Buf) : M Unit := do
  bs.forM logWrite
  commitTrans

end LogDisk

end Xv6.Kernel
