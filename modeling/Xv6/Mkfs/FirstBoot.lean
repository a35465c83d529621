import Xv6.Mkfs.Decode
import Xv6.Kernel.Reboot

/-!
# The first boot

The kernel that comes up on a new image is in order: what it would write back is what `mkfs` wrote,
block for block, and no process is in a system call.  So a machine with a new image can be switched
off at any time, and as often as one likes.

## Main results

* `Fresh.rewritten`: the kernel's decoded inodes and bitmap have the bytes of the image.
* `image_restarts`: a machine that started with a new image is in order at every start.
-/

namespace Xv6.Mkfs

open Xv6.Verified
open Xv6.Kernel
open Exec

section Boot

variable {files : List Input} {g : Image}

/-- No inode of the image is a device. -/
theorem Fresh.type_ne_dev (h : Fresh (plan files) g) (i : Nat) :
    (inoOf g.sector i).type ≠ .dev := by
  rw [← h.dinode, h.type]
  split
  · decide
  · split <;> decide

/-- **Back to the image.**  The kernel on the image would write every block as it is. -/
theorem Fresh.rewritten (h : Fresh (plan files) g) {x o : Nat} (hx : x < size - nlog)
    (ho : o < BSIZE) : (kernelOn g).image x o = g.sector x o := by
  have hstart : (kernelOn g).sb.dataStart = 16 := by
    rw [h.sb]
    decide
  have hin : (kernelOn g).sb.ninodes / IPB + 3 = 15 := by
    rw [h.sb]
    decide
  rw [State.image, hin, hstart]
  split
  · rename_i h1
    subst h1
    rw [h.built.boot 1 (by decide), h.sb]
    rfl
  split
  · rename_i hlow
    have hslot : (x - 2) * IPB + o / 64 < inodeSlots := by
      simp only [BSIZE, IPB, inodeSlots] at *
      omega
    have hblock : i2b ((x - 2) * IPB + o / 64) = x := by
      simp only [BSIZE, IPB, i2b] at *
      omega
    have hindex : ((x - 2) * IPB + o / 64) % IPB = o / 64 := by
      simp only [BSIZE, IPB] at *
      omega
    have hino := inoOf_of_lt g.sector hslot
    have htype := h.type_ne_dev ((x - 2) * IPB + o / 64)
    rw [hblock, hindex] at hino
    rw [← hino] at htype
    show dinodeBytes ((kernelOn g).dinode ((x - 2) * IPB + o / 64)) (o % 64) = _
    rw [h.dinode, ← hino, dinodeBytes_dinodeAt (code_of_bytes htype) (Nat.mod_lt _ (by decide))]
    congr 1
    simp only [DINODE]
    omega
  split
  · rename_i hmap
    obtain rfl : x = 15 := by omega
    show bitmapByte (kernelOn g).bitmap ((15 - 15) * BPB) o = _
    apply bitmapByte_bitAt
    intro r hr
    have hbit : 8 * o + r < BPB := by
      simp only [BSIZE, BPB] at *
      omega
    rw [Nat.sub_self, Nat.zero_mul, Nat.zero_add]
    show bitAt ((kernelOn g).data ((Kernel.readsb g.sector).bblock (8 * o + r)))
      ((8 * o + r) % BPB) = _
    have hbb : (Kernel.readsb g.sector).bblock (8 * o + r) = 15 := by
      rw [h.readsb, Superblock.bblock, Nat.div_eq_of_lt hbit]
      decide
    rw [hbb, h.data (by decide), Nat.mod_eq_of_lt hbit]
  · rw [h.data (by omega)]

/-- The machine with a new image is in order. -/
theorem Fresh.booted (h : Fresh (plan files) g) : (powerOn g.sector).Booted := by
  have hlog : (kernelOn g).log.start = size - nlog := by
    show (Kernel.readsb g.sector).logStart = _
    rw [h.readsb]
    rfl
  refine powerOn_booted h.wf ⟨rfl, rfl, ?_⟩ ?_ ?_ ?_ fun x hx o ho => ?_
  · rw [h.sb]
    decide
  · show 0 < (Kernel.readsb g.sector).nlog
    rw [h.readsb]
    decide
  · rw [h.sb, hlog]
    decide
  · show headCount (recovered g.sector (Kernel.readsb g.sector)
      (Kernel.readsb g.sector).logStart) = 0
    apply headCount_recovered
    have hfree := h.built.free
    have hblocks := h.blocks
    rw [h.readsb, h.built.table.clean _ (by
      show g.freeblock ≤ size - nlog
      omega)]
    rfl
  · rw [hlog] at hx
    rw [h.rewritten hx ho, h.data (Nat.ne_of_lt hx)]

/-- **A new image.**  However often a machine that started with it is switched off, the next kernel
reads the superblock of `mkfs` and is in order. -/
theorem image_restarts (h : Writes files g) (hfew : files.length ≤ 191)
    (hfits : blocksNeeded files ≤ size - nlog) {d : Nat → Block} (hre : Restarts g.sector d) :
    (powerOn d).Booted ∧ Kernel.readsb d = Kernel.readsb g.sector :=
  hre.booted (h.fresh hfew hfits).booted

end Boot

end Xv6.Mkfs
