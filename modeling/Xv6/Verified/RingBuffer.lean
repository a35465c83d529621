import Mathlib.Data.List.Basic
import Mathlib.Tactic.Ring

/-!
# A ring buffer with wrapping counters

An array of `n` cells and two counters modulo `m`, where `n` divides `m`: the producer
writes at its counter modulo `n` and advances it, the consumer reads at its own.  Only the
counters are stored, so the buffer is full or empty according to their difference modulo
`m`, and both may wrap any number of times.

`Buffers` says what such a buffer stands for: of the sequence `xs` of everything that was
put in, the first `k` elements have been taken out.

## Main results

* `Buffers.full_iff`, `Buffers.empty_iff`: what the tests on the counters mean.
* `Buffers.put`, `Buffers.take`, `Buffers.unput`: what the operations do to the sequence.
-/

namespace Xv6.Verified

variable {α : Type} {n m r w k : Nat} {cell : Nat → α} {xs : List α}

/-- Counters `r` and `w` and the cells hold `xs` from element `k` on. -/
structure Buffers (n m : Nat) (cell : Nat → α) (r w : Nat) (xs : List α) (k : Nat) : Prop where
  reader : r = k % m
  writer : w = xs.length % m
  taken : k ≤ xs.length
  room : xs.length ≤ k + n
  cells : ∀ j, k ≤ j → j < xs.length → xs[j]? = some (cell (j % n))

theorem Buffers.nil (n m : Nat) (cell : Nat → α) : Buffers n m cell 0 0 [] 0 where
  reader := (Nat.zero_mod m).symm
  writer := (Nat.zero_mod m).symm
  taken := Nat.le_refl 0
  room := Nat.zero_le _
  cells j _ hj := absurd hj (Nat.not_lt_zero j)

/-- Only the cells of the array count. -/
theorem Buffers.congr {cell' : Nat → α} (h : Buffers n m cell r w xs k)
    (hcell : ∀ i < n, cell' i = cell i) : Buffers n m cell' r w xs k := by
  refine ⟨h.reader, h.writer, h.taken, h.room, fun j hk hj => ?_⟩
  have hn : 0 < n := by
    have := h.room
    omega
  rw [hcell _ (Nat.mod_lt j hn)]
  exact h.cells j hk hj

/-- Lengths that differ by at most `n` are told apart modulo `m`. -/
theorem mod_inj_of_le {a b : Nat} (hnm : n < m) (hab : a ≤ b) (hba : b ≤ a + n)
    (h : a % m = b % m) : a = b := by
  have hsub : (b - a) % m = 0 := Nat.sub_mod_eq_zero_of_mod_eq h.symm
  rw [Nat.mod_eq_of_lt (by omega)] at hsub
  omega

theorem Buffers.empty_iff (h : Buffers n m cell r w xs k) (hnm : n < m) :
    r = w ↔ xs.length = k := by
  rw [h.reader, h.writer]
  constructor
  · intro heq
    exact (mod_inj_of_le hnm h.taken h.room heq).symm
  · intro heq
    rw [heq]

theorem Buffers.full_iff (h : Buffers n m cell r w xs k) (hnm : n < m) :
    w = (r + n) % m ↔ xs.length = k + n := by
  rw [h.reader, h.writer, Nat.mod_add_mod]
  constructor
  · intro heq
    exact mod_inj_of_le hnm h.room (by have := h.taken; omega) heq
  · intro heq
    rw [heq]

/-- `cell[w++ % n] = x`, when the buffer is not full. -/
theorem Buffers.put (h : Buffers n m cell r w xs k) (hdvd : n ∣ m) (hroom : xs.length ≠ k + n)
    (x : α) :
    Buffers n m (Function.update cell (w % n) x) r ((w + 1) % m) (xs ++ [x]) k := by
  have hw : w % n = xs.length % n := by
    rw [h.writer, Nat.mod_mod_of_dvd _ hdvd]
  refine ⟨h.reader, ?_, ?_, ?_, ?_⟩
  · rw [h.writer, Nat.mod_add_mod, List.length_append, List.length_singleton]
  · rw [List.length_append]
    exact Nat.le_add_right_of_le h.taken
  · rw [List.length_append, List.length_singleton]
    have := h.room
    omega
  · intro j hk hj
    rw [List.length_append, List.length_singleton] at hj
    rcases Nat.lt_or_ge j xs.length with hlt | hge
    · have hne : j % n ≠ w % n := by
        rw [hw]
        intro heq
        have := mod_inj_of_le (n := xs.length - j) (by have := h.room; omega) (Nat.le_of_lt hlt)
          (by omega) heq
        omega
      rw [List.getElem?_append_left hlt, Function.update_of_ne hne]
      exact h.cells j hk hlt
    · have hj : j = xs.length := by omega
      subst hj
      rw [List.getElem?_append_right (Nat.le_refl _), Nat.sub_self, ← hw, Function.update_self]
      rfl

/-- `cell[r++ % n]`, when the buffer is not empty. -/
theorem Buffers.take (h : Buffers n m cell r w xs k) (hdvd : n ∣ m) (hsome : xs.length ≠ k) :
    xs[k]? = some (cell (r % n)) ∧ Buffers n m cell ((r + 1) % m) w xs (k + 1) := by
  have hlt : k < xs.length := by
    have := h.taken
    omega
  constructor
  · rw [h.reader, Nat.mod_mod_of_dvd _ hdvd]
    exact h.cells k (Nat.le_refl k) hlt
  · refine ⟨?_, h.writer, hlt, ?_, fun j hk hj => h.cells j (by omega) hj⟩
    · rw [h.reader, Nat.mod_add_mod]
    · have := h.room
      omega

/-- The number of elements in the buffer, from the counters. -/
theorem Buffers.count (h : Buffers n m cell r w xs k) (hnm : n < m) :
    (w + m - r) % m = xs.length - k := by
  have hm : 0 < m := by omega
  have hk := h.taken
  have hn := h.room
  have hr : r < m := by
    rw [h.reader]
    exact Nat.mod_lt k hm
  have hsum : xs.length - k + r + m * (k / m) = xs.length := by
    have := Nat.mod_add_div k m
    rw [← h.reader] at this
    omega
  have hw : w = (xs.length - k + r) % m := by
    rw [h.writer, ← Nat.add_mul_mod_self_left (xs.length - k + r) m (k / m), hsum]
  have hlt : xs.length - k < m := by omega
  rcases Nat.lt_or_ge (xs.length - k + r) m with hin | hout
  · rw [Nat.mod_eq_of_lt hin] at hw
    rw [hw, show xs.length - k + r + m - r = xs.length - k + m by omega, Nat.add_mod_right,
      Nat.mod_eq_of_lt hlt]
  · rw [Nat.mod_eq_sub_mod hout, Nat.mod_eq_of_lt (by omega)] at hw
    rw [hw, show xs.length - k + r - m + m - r = xs.length - k by omega, Nat.mod_eq_of_lt hlt]

/-- `w--`: the element put in last is at the new counter, and is taken back. -/
theorem Buffers.unput {x : α} (h : Buffers n m cell r w (xs ++ [x]) k) (hdvd : n ∣ m)
    (hm : 0 < m) (hk : k ≤ xs.length) :
    cell ((w + m - 1) % m % n) = x ∧ Buffers n m cell r ((w + m - 1) % m) xs k := by
  have hlen : (xs ++ [x]).length = xs.length + 1 := by simp
  have hw : (w + m - 1) % m = xs.length % m := by
    rw [h.writer, hlen, Nat.add_sub_assoc hm, Nat.mod_add_mod,
      show xs.length + 1 + (m - 1) = xs.length + m by omega, Nat.add_mod_right]
  constructor
  · have hlast := h.cells xs.length hk (by omega)
    rw [hw, Nat.mod_mod_of_dvd _ hdvd]
    simpa using hlast.symm
  · refine ⟨h.reader, hw, hk, ?_, fun j hj hj' => ?_⟩
    · have := h.room
      omega
    · rw [← h.cells j hj (by omega), List.getElem?_append_left hj']

end Xv6.Verified
