import Mathlib.Data.List.Nodup
import Mathlib.Data.List.Range
import Mathlib.Data.List.Chain
import Mathlib.Data.Int.Order.Basic
import Mathlib.Algebra.Order.Ring.Abs
import Mathlib.Tactic.Ring
import Mathlib.Tactic.Linarith

/-!
# Digital lines

Points on a grid next to the line of slope `d / D`, with `0 ≤ d ≤ D`: column by column, the row
goes up by 1 when the error term leaves its range.  The error is what is between the row and the
line, so the point is never a whole row away from it; and after `D` columns it is `d` rows up.
-/

namespace Xv6.Verified

/-- Column `i` and row `j`, with error `e`, on the way from error `c`. -/
structure Tracks (D d c i j e : Int) : Prop where
  low : 0 ≤ e
  high : e < D
  balance : j * D + c = i * d + e

namespace Tracks

variable {D d c i j e : Int}

theorem start (hc : 0 ≤ c) (hD : c < D) : Tracks D d c 0 0 c := ⟨hc, hD, by ring⟩

/-- The row goes up. -/
theorem up (h : Tracks D d c i j e) (hlt : e < d) (hd : d ≤ D) :
    Tracks D d c (i + 1) (j + 1) (e - d + D) := by
  refine ⟨?_, by omega, ?_⟩
  · have := h.low
    omega
  · have := h.balance
    linarith

/-- It does not. -/
theorem flat (h : Tracks D d c i j e) (hle : d ≤ e) (hd : 0 ≤ d) :
    Tracks D d c (i + 1) j (e - d) := by
  refine ⟨by omega, ?_, ?_⟩
  · have := h.high
    omega
  · have := h.balance
    linarith

/-- The point is less than a row away from the line. -/
theorem near (h : Tracks D d c i j e) (hc : 0 ≤ c) (hD : c < D) : |j * D - i * d| < D := by
  have h1 := h.low
  have h2 := h.high
  have h3 := h.balance
  rw [abs_lt]
  constructor <;> linarith

/-- It is between the ends of the line. -/
theorem row_bounds (h : Tracks D d c i j e) (hc : 0 ≤ c) (hD : c < D) (hd : 0 ≤ d) (hi : 0 ≤ i)
    (hiD : i ≤ D) : 0 ≤ j ∧ j ≤ d := by
  have h1 := h.low
  have h2 := h.high
  have h3 := h.balance
  have hid : 0 ≤ i * d := mul_nonneg hi hd
  have hiDd : i * d ≤ D * d := mul_le_mul_of_nonneg_right hiD hd
  constructor
  · by_contra hj
    have hj : j + 1 ≤ 0 := by omega
    have : (j + 1) * D ≤ 0 := mul_nonpos_of_nonpos_of_nonneg hj (by omega)
    linarith
  · by_contra hj
    have hj : d + 1 ≤ j := by omega
    have : (d + 1) * D ≤ j * D := mul_le_mul_of_nonneg_right hj (by omega)
    linarith

/-- The end of the line. -/
theorem finish (h : Tracks D d c D j e) (hc : 0 ≤ c) (hD : c < D) : j = d := by
  have h1 := h.low
  have h2 := h.high
  have h3 := h.balance
  by_contra hne
  rcases lt_or_gt_of_ne hne with hlt | hgt
  · have : (j + 1) * D ≤ d * D := mul_le_mul_of_nonneg_right (by omega) (by omega)
    linarith
  · have : (d + 1) * D ≤ j * D := mul_le_mul_of_nonneg_right (by omega) (by omega)
    linarith

end Tracks

/-- `u` runs through the columns from `a` on, and `v` through rows from `b` on, along a digital
line. -/
structure Walk (D : Nat) (d a b s t : Int) (u v : Nat → Int) : Prop where
  side : s = 1 ∨ s = -1
  updown : t = 1 ∨ t = -1
  rise : 0 ≤ d ∧ d ≤ D
  long : 0 < D
  tracks : ∀ i ≤ D, ∃ j e, Tracks D d (D / 2) i j e ∧ u i = a + s * i ∧ v i = b + t * j

namespace Walk

variable {D : Nat} {d a b s t : Int} {u v : Nat → Int}

theorem half (h : Walk D d a b s t u v) : 0 ≤ (D : Int) / 2 ∧ (D : Int) / 2 < D := by
  have := h.long
  omega

theorem column (h : Walk D d a b s t u v) {i : Nat} (hi : i ≤ D) : u i = a + s * i := by
  obtain ⟨j, e, -, hu, -⟩ := h.tracks i hi
  exact hu

theorem first (h : Walk D d a b s t u v) : u 0 = a ∧ v 0 = b := by
  obtain ⟨j, e, htracks, hu, hv⟩ := h.tracks 0 (Nat.zero_le D)
  have hnear := htracks.near h.half.1 h.half.2
  have hbounds := htracks.row_bounds h.half.1 h.half.2 h.rise.1 (le_refl 0) (by omega)
  have hj : j = 0 := by
    by_contra hne
    have hpos : 1 ≤ j := by omega
    have hle : 1 * (D : Int) ≤ j * D := mul_le_mul_of_nonneg_right hpos (by omega)
    rw [abs_lt] at hnear
    push_cast at hnear
    linarith [hnear.2]
  rw [hu, hv, hj]
  push_cast
  constructor <;> ring

theorem last (h : Walk D d a b s t u v) : u D = a + s * D ∧ v D = b + t * d := by
  obtain ⟨j, e, htracks, hu, hv⟩ := h.tracks D (le_refl D)
  rw [htracks.finish h.half.1 h.half.2] at hv
  exact ⟨hu, hv⟩

theorem inside (h : Walk D d a b s t u v) {i : Nat} (hi : i ≤ D) :
    (min a (a + s * D) ≤ u i ∧ u i ≤ max a (a + s * D)) ∧
      (min b (b + t * d) ≤ v i ∧ v i ≤ max b (b + t * d)) := by
  obtain ⟨j, e, htracks, hu, hv⟩ := h.tracks i hi
  have hrow := htracks.row_bounds h.half.1 h.half.2 h.rise.1 (by omega) (by omega)
  rw [hu, hv]
  rcases h.side with rfl | rfl <;> rcases h.updown with rfl | rfl <;> omega

/-- From one point to the next. -/
theorem adjacent (h : Walk D d a b s t u v) {i : Nat} (hi : i < D) :
    |u (i + 1) - u i| ≤ 1 ∧ |v (i + 1) - v i| ≤ 1 := by
  obtain ⟨j, e, htracks, hu, hv⟩ := h.tracks i (by omega)
  obtain ⟨j', e', htracks', hu', hv'⟩ := h.tracks (i + 1) hi
  have h1 := htracks.low
  have h2 := htracks.high
  have h3 := htracks.balance
  have h1' := htracks'.low
  have h2' := htracks'.high
  have h3' := htracks'.balance
  push_cast at h3' hu'
  have hdiff : (j' - j) * D = d + e' - e := by linarith
  have hlong := h.long
  have hrise := h.rise
  have hup : j ≤ j' := by
    by_contra hlt
    have hle : (j' - j) * D ≤ -1 * (D : Int) := mul_le_mul_of_nonneg_right (by omega) (by omega)
    linarith
  have hone : j' ≤ j + 1 := by
    by_contra hlt
    have hle : 2 * (D : Int) ≤ (j' - j) * D := mul_le_mul_of_nonneg_right (by omega) (by omega)
    linarith
  rw [hu, hu', hv, hv']
  constructor
  · rw [show a + s * (i + 1) - (a + s * i) = s by ring]
    rcases h.side with rfl | rfl <;> decide
  · rw [show b + t * j' - (b + t * j) = t * (j' - j) by ring, abs_le]
    rcases h.updown with rfl | rfl <;> omega

/-- The distance to the line, times its width. -/
theorem near (h : Walk D d a b s t u v) {i : Nat} (hi : i ≤ D) :
    |(v i - b) * (s * D) - (u i - a) * (t * d)| ≤ |s * D| := by
  obtain ⟨j, e, htracks, hu, hv⟩ := h.tracks i hi
  have hnear := htracks.near h.half.1 h.half.2
  have hst : |s * t| = 1 := by
    rcases h.side with rfl | rfl <;> rcases h.updown with rfl | rfl <;> decide
  have hs : |s| = 1 := by
    rcases h.side with rfl | rfl <;> decide
  rw [hu, hv, show (b + t * j - b) * (s * D) - (a + s * i - a) * (t * d) =
    s * t * (j * D - i * d) by ring, abs_mul, hst, one_mul, abs_mul, hs, one_mul,
    abs_of_nonneg (by omega : (0 : Int) ≤ D)]
  exact le_of_lt hnear

/-- A line of slope 1 is one in both directions. -/
theorem swap (h : Walk D d a b s t u v) (hd : d = D) : Walk D D b a t s v u := by
  refine ⟨h.updown, h.side, ⟨by omega, le_refl _⟩, h.long, fun i hi => ?_⟩
  obtain ⟨j, e, htracks, hu, hv⟩ := h.tracks i hi
  have hnear := htracks.near h.half.1 h.half.2
  have hj : j = i := by
    rw [hd, ← sub_mul, abs_mul, abs_of_nonneg (by omega : (0 : Int) ≤ D)] at hnear
    have hlt : |j - i| < 1 := by
      by_contra hge
      have hle : 1 * (D : Int) ≤ |j - i| * D :=
        mul_le_mul_of_nonneg_right (by omega) (by omega)
      linarith
    rw [abs_lt] at hlt
    omega
  refine ⟨i, (D : Int) / 2, ⟨h.half.1, h.half.2, by ring⟩, ?_, hu⟩
  rw [hv, hj]

/-- Every column between the ends is met once. -/
theorem count (h : Walk D d a b s t u v) (x : Int) :
    ((List.range (D + 1)).map u).count x =
      if min a (a + s * D) ≤ x ∧ x ≤ max a (a + s * D) then 1 else 0 := by
  have hmem : x ∈ (List.range (D + 1)).map u ↔ min a (a + s * D) ≤ x ∧ x ≤ max a (a + s * D) := by
    constructor
    · intro hx
      obtain ⟨i, hi, rfl⟩ := List.mem_map.1 hx
      exact (h.inside (Nat.le_of_lt_succ (List.mem_range.1 hi))).1
    · intro hx
      refine List.mem_map.2 ⟨(s * (x - a)).toNat, ?_, ?_⟩
      · rw [List.mem_range]
        rcases h.side with rfl | rfl <;> omega
      · rw [h.column (by rcases h.side with rfl | rfl <;> omega)]
        rcases h.side with rfl | rfl <;> omega
  have hnodup : ((List.range (D + 1)).map u).Nodup := by
    refine List.Nodup.map_on (fun i hi j hj hij => ?_) List.nodup_range
    rw [List.mem_range] at hi hj
    rw [h.column (by omega), h.column (by omega)] at hij
    rcases h.side with rfl | rfl <;> omega
  split
  · exact List.count_eq_one_of_mem hnodup (hmem.2 (by assumption))
  · exact List.count_eq_zero_of_not_mem fun hx => absurd (hmem.1 hx) (by assumption)

end Walk

end Xv6.Verified
