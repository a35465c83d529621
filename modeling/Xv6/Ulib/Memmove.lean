import Xv6.Verified.Copies

/-!
# `memmove`

`memmove` of `ulib/libc/string/string.c` and of `kernel/string.c`, in a memory of bytes.  Neither of
the ranges goes round the end of the memory.

## Main results

* `memmove_agree_iff`: the two leave the same memory, the one with the bytes that were in the
  source, unless the destination begins in the source and the bytes there do not repeat.
-/

namespace Xv6.Ulib

open Xv6.Verified

/-- `memmove` of the library. -/
def memmove (m : Nat → UInt8) (dst src n : Nat) : Nat → UInt8 := copyUp m dst src n

end Xv6.Ulib

namespace Xv6.Kernel

open Xv6.Verified

/-- `memmove` of the kernel. -/
def memmove (m : Nat → UInt8) (dst src n : Nat) : Nat → UInt8 :=
  if src < dst ∧ dst < src + n then copyDown m (dst + n) (src + n) n else copyUp m dst src n

theorem memmove_eq (m : Nat → UInt8) (dst src n : Nat) :
    memmove m dst src n = moved m dst src n := by
  rw [memmove]
  split
  · rename_i hover
    exact copyDown_eq m (Nat.le_of_lt hover.1) n
  · rename_i hover
    exact copyUp_eq_moved_iff.2 fun hsd hlt => absurd ⟨hsd, hlt⟩ hover

end Xv6.Kernel

namespace Xv6.Ulib

open Xv6.Verified

/-- The kernel moves the bytes wherever the ranges are.  The library moves them, and agrees with the
kernel, if and only if the destination does not begin behind the first byte of the source and
before its end, or the source repeats with the distance of the two. -/
theorem memmove_agree_iff (m : Nat → UInt8) (dst src n : Nat) :
    (memmove m dst src n = Kernel.memmove m dst src n ∧
      Kernel.memmove m dst src n = moved m dst src n) ↔
    (src < dst → dst < src + n → Periodic m dst src n) := by
  rw [Kernel.memmove_eq, memmove, copyUp_eq_moved_iff]
  exact and_iff_left rfl

/-- A destination one byte above the source: the library repeats the first byte. -/
theorem memmove_disagree : ¬∀ (m : Nat → UInt8) (dst src n : Nat),
    memmove m dst src n = Kernel.memmove m dst src n := by
  intro h
  have hat := congrFun (h (fun b => UInt8.ofNat b) 2 1 2) 3
  exact absurd hat (by decide)

end Xv6.Ulib
