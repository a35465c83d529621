import Mathlib.Logic.Basic
import Mathlib.Tactic.Ring

/-!
# Bytes in words

A memory of 64-bit words seen as a memory of bytes, little-endian: byte `b` is in word `b / 8`.
`write` stores a list of bytes from an offset on.

## Main results

* `byteAt_write_inside`, `byteAt_write_outside`: `write` is an update of the bytes it covers.
-/

namespace Xv6.Verified.Bytes

variable {c : Nat → Nat} {f : Nat → Nat} {bs : List UInt8} {off b k j : Nat}

/-- Byte `b` of memory `c`. -/
def byteAt (c : Nat → Nat) (b : Nat) : Nat := c (b / 8) / 256 ^ (b % 8) % 256

/-- The word of eight bytes. -/
def word (f : Nat → Nat) : Nat :=
  f 0 + 256 * (f 1 + 256 * (f 2 + 256 * (f 3 + 256 *
    (f 4 + 256 * (f 5 + 256 * (f 6 + 256 * f 7))))))

theorem word_byte (hf : ∀ j, f j < 256) (hj : j < 8) : word f / 256 ^ j % 256 = f j := by
  have h0 := hf 0
  have h1 := hf 1
  have h2 := hf 2
  have h3 := hf 3
  have h4 := hf 4
  have h5 := hf 5
  have h6 := hf 6
  have h7 := hf 7
  unfold word
  obtain rfl | rfl | rfl | rfl | rfl | rfl | rfl | rfl : j = 0 ∨ j = 1 ∨ j = 2 ∨ j = 3 ∨ j = 4 ∨
    j = 5 ∨ j = 6 ∨ j = 7 := by omega
  all_goals
    simp only [Nat.reducePow]
    omega

/-- Memory `c` with `bs` stored from byte `off` on. -/
def write (c : Nat → Nat) (off : Nat) (bs : List UInt8) : Nat → Nat := fun k =>
  if bs = [] ∨ 8 * k + 8 ≤ off ∨ off + bs.length ≤ 8 * k then c k
  else word fun j =>
    if off ≤ 8 * k + j ∧ 8 * k + j < off + bs.length then (bs.getD (8 * k + j - off) 0).toNat
    else c k / 256 ^ j % 256

theorem byteAt_write_inside (h : off ≤ b) (h' : b < off + bs.length) :
    byteAt (write c off bs) b = (bs.getD (b - off) 0).toNat := by
  have hsplit : 8 * (b / 8) + b % 8 = b := Nat.div_add_mod b 8
  have hne : bs ≠ [] := by
    rintro rfl
    rw [List.length_nil] at h'
    omega
  unfold byteAt write
  rw [if_neg (by simp only [hne, false_or]; omega), word_byte _ (Nat.mod_lt b (by omega)), hsplit,
    if_pos ⟨h, h'⟩]
  intro j
  split
  · exact UInt8.toNat_lt _
  · exact Nat.mod_lt _ (by omega)

theorem byteAt_write_outside (h : b < off ∨ off + bs.length ≤ b) :
    byteAt (write c off bs) b = byteAt c b := by
  have hsplit : 8 * (b / 8) + b % 8 = b := Nat.div_add_mod b 8
  unfold byteAt write
  split
  · rfl
  · rw [word_byte _ (Nat.mod_lt b (by omega)), hsplit, if_neg (by omega)]
    intro j
    split
    · exact UInt8.toNat_lt _
    · exact Nat.mod_lt _ (by omega)

end Xv6.Verified.Bytes
