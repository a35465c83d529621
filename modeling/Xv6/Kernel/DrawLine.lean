import Xv6.Verified.DigitalLine
import Xv6.Verified.Int32

/-!
# Lines

`bga_draw_line_24` of `kernel/bga.c` draws a line from `(x1, y1)` to `(x2, y2)`, pixel by pixel,
until it has drawn `(x2, y2)`.

* `draws_line`: it ends, and what it draws is the line.
-/

namespace Xv6.Kernel.Bga
open Xv6.Verified Xv6.Verified.CInt

/-! ## The code -/

/-- What the loop does not change. -/
structure Line where
  x2 : Int
  y2 : Int
  dx : Int
  dy : Int
  sx : Int
  sy : Int

/-- What it changes. -/
structure Pen where
  x1 : Int
  y1 : Int
  err : Int

/-- `diff * ((diff < 0) * (-1) + (diff > 0))`. -/
def distance (diff : Int) : Int :=
  int (diff * ((if diff < 0 then 1 else 0) * -1 + if diff > 0 then 1 else 0))

/-- What `bga_draw_line_24` computes in front of the loop. -/
def line (x1 y1 x2 y2 : Int) : Line where
  x2 := x2
  y2 := y2
  dx := distance (int (x2 - x1))
  dy := distance (int (y2 - y1))
  sx := if x1 < x2 then 1 else -1
  sy := if y1 < y2 then 1 else -1

/-- `err` in front of the loop; the division of C rounds towards 0. -/
def Line.err (l : Line) : Int := (if l.dx > l.dy then l.dx else int (-l.dy)).tdiv 2

/-- One round of the loop, for a pixel that is not the last. -/
def Line.step (l : Line) (s : Pen) : Pen :=
  let e2 := s.err
  let s := if e2 > int (-l.dx) then
      { s with err := int (s.err - l.dy), x1 := int (s.x1 + l.sx) } else s
  if e2 < l.dy then { s with err := int (s.err + l.dx), y1 := int (s.y1 + l.sy) } else s

/-- The loop, for `fuel` more rounds at most: the pixels that it draws. -/
def Line.loop (l : Line) : Nat → Pen → Option (List (Int × Int))
  | 0, _ => none
  | fuel + 1, s =>
      if s.x1 = l.x2 ∧ s.y1 = l.y2 then some [(s.x1, s.y1)]
      else (l.loop fuel (l.step s)).map fun ps => (s.x1, s.y1) :: ps

/-- `bga_draw_line_24`. -/
def bga_draw_line_24 (fuel : Nat) (x1 y1 x2 y2 : Int) : Option (List (Int × Int)) :=
  let l := line x1 y1 x2 y2
  l.loop fuel ⟨x1, y1, l.err⟩

example : bga_draw_line_24 10 0 0 5 2 =
    some [(0, 0), (1, 0), (2, 1), (3, 1), (4, 2), (5, 2)] := by decide

/-! ## The loop -/

section Loop

variable {l : Line}

/-- The pen after `n` rounds. -/
def Line.at (l : Line) (s : Pen) (n : Nat) : Pen := l.step^[n] s

theorem Line.at_zero (s : Pen) : l.at s 0 = s := rfl

theorem Line.at_succ (s : Pen) (n : Nat) : l.at s (n + 1) = l.step (l.at s n) :=
  Function.iterate_succ_apply' l.step n s

/-- The loop ends in the first round that finds the pen at the end. -/
theorem Line.loop_eq {s : Pen} {n : Nat}
    (hlast : (l.at s n).x1 = l.x2 ∧ (l.at s n).y1 = l.y2)
    (hbefore : ∀ i < n, ¬((l.at s i).x1 = l.x2 ∧ (l.at s i).y1 = l.y2)) {fuel : Nat}
    (hfuel : n < fuel) :
    l.loop fuel s = some ((List.range (n + 1)).map fun i => ((l.at s i).x1, (l.at s i).y1)) := by
  induction n generalizing s fuel with
  | zero =>
      obtain ⟨fuel, rfl⟩ := Nat.exists_eq_succ_of_ne_zero (Nat.ne_of_gt hfuel)
      rw [Line.at_zero] at hlast
      rw [Line.loop, if_pos hlast]
      rfl
  | succ n ih =>
      obtain ⟨fuel, rfl⟩ := Nat.exists_eq_succ_of_ne_zero (Nat.ne_of_gt (Nat.zero_lt_of_lt hfuel))
      have hfirst := hbefore 0 n.succ_pos
      rw [Line.at_zero] at hfirst
      rw [Line.loop, if_neg hfirst, List.range_succ_eq_map, List.map_cons, List.map_map]
      rw [ih (s := l.step s) hlast (fun i hi => hbefore (i + 1) (Nat.succ_lt_succ hi))
        (Nat.lt_of_succ_lt_succ hfuel)]
      rfl

end Loop

/-! ## Where the pen is -/

theorem distance_eq {diff : Int} (h : |diff| < 536870912) : distance (int diff) = |diff| := by
  rw [abs_lt] at h
  rw [int_eq (by omega) (by omega), distance]
  rcases lt_trichotomy diff 0 with hneg | rfl | hpos
  · rw [if_pos hneg, if_neg (by omega), abs_of_neg hneg, int_eq (by omega) (by omega)]
    omega
  · decide
  · rw [if_neg (by omega), if_pos hpos, abs_of_pos hpos, int_eq (by omega) (by omega)]
    omega

/-- The constants of the loop fit together. -/
structure Line.Sound (l : Line) (x1 y1 : Int) : Prop where
  dx : 0 ≤ l.dx ∧ l.dx < 536870912
  dy : 0 ≤ l.dy ∧ l.dy < 536870912
  sx : l.sx = 1 ∨ l.sx = -1
  sy : l.sy = 1 ∨ l.sy = -1
  x2 : l.x2 = x1 + l.sx * l.dx
  y2 : l.y2 = y1 + l.sy * l.dy
  fits : (Fits x1 ∧ Fits l.x2) ∧ (Fits y1 ∧ Fits l.y2)

theorem sign_distance (a b : Int) :
    ((if a < b then (1 : Int) else -1) = 1 ∨ (if a < b then (1 : Int) else -1) = -1) ∧
      b = a + (if a < b then 1 else -1) * |b - a| := by
  split
  · rw [abs_of_pos (by omega)]
    omega
  · rw [abs_of_nonpos (by omega)]
    omega

theorem line_sound {x1 y1 x2 y2 : Int} (hx1 : Fits x1) (hx2 : Fits x2) (hy1 : Fits y1)
    (hy2 : Fits y2) (hx : |x2 - x1| < 536870912) (hy : |y2 - y1| < 536870912) :
    (line x1 y1 x2 y2).Sound x1 y1 ∧ (line x1 y1 x2 y2).dx = |x2 - x1| ∧
      (line x1 y1 x2 y2).dy = |y2 - y1| := by
  have hdx : (line x1 y1 x2 y2).dx = |x2 - x1| := distance_eq hx
  have hdy : (line x1 y1 x2 y2).dy = |y2 - y1| := distance_eq hy
  refine ⟨⟨?_, ?_, (sign_distance x1 x2).1, (sign_distance y1 y2).1, ?_, ?_,
    ⟨hx1, hx2⟩, hy1, hy2⟩, hdx, hdy⟩
  · rw [hdx]
    exact ⟨abs_nonneg _, hx⟩
  · rw [hdy]
    exact ⟨abs_nonneg _, hy⟩
  · rw [hdx]
    exact (sign_distance x1 x2).2
  · rw [hdy]
    exact (sign_distance y1 y2).2

/-- A point on the way from `a` to `a + s * D` is between the two. -/
theorem fits_between {a s D i : Int} (hs : s = 1 ∨ s = -1) (ha : Fits a) (hb : Fits (a + s * D))
    (hi : 0 ≤ i) (hiD : i ≤ D) : Fits (a + s * i) := by
  unfold Fits at *
  rcases hs with rfl | rfl <;> omega

section Steps

variable {l : Line} {x1 y1 i : Int} {s : Pen}

/-- On a wide line, the pen is in column `i`. -/
def Line.AtX (l : Line) (x1 y1 i : Int) (s : Pen) : Prop :=
  ∃ j, Tracks l.dx l.dy (l.dx / 2) i j s.err ∧ s.x1 = x1 + l.sx * i ∧ s.y1 = y1 + l.sy * j

/-- On any other line, the pen is in row `i`. -/
def Line.AtY (l : Line) (x1 y1 i : Int) (s : Pen) : Prop :=
  ∃ j, Tracks l.dy l.dx (l.dy / 2) i j (-s.err) ∧ s.x1 = x1 + l.sx * j ∧ s.y1 = y1 + l.sy * i

theorem Line.Sound.stepX (h : l.Sound x1 y1) (hwide : l.dy < l.dx) (hs : l.AtX x1 y1 i s)
    (hi : 0 ≤ i) (hlt : i < l.dx) : l.AtX x1 y1 (i + 1) (l.step s) := by
  obtain ⟨j, htracks, hx, hy⟩ := hs
  obtain ⟨hdx, hdy, hsx, hsy, hx2, hy2, ⟨hfx1, hfx2⟩, hfy1, hfy2⟩ := h
  have hlow := htracks.low
  have hhigh := htracks.high
  have hcol : int (s.x1 + l.sx) = x1 + l.sx * (i + 1) := by
    rw [hx, mul_add, mul_one, add_assoc]
    refine int_of_fits ?_
    rw [show x1 + (l.sx * i + l.sx) = x1 + l.sx * (i + 1) by ring]
    exact fits_between hsx hfx1 (hx2 ▸ hfx2) (by omega) (by omega)
  have hneg : int (-l.dx) = -l.dx := int_eq (by omega) (by omega)
  have hsub : int (s.err - l.dy) = s.err - l.dy := int_eq (by omega) (by omega)
  have hright : s.err > -l.dx := by omega
  unfold Line.step
  dsimp only
  rw [hneg, if_pos hright]
  dsimp only
  rw [hsub, hcol]
  by_cases hup : s.err < l.dy
  · have hnext := htracks.up hup (by omega)
    have hrow := hnext.row_bounds (by omega) (by omega) hdy.1 (by omega) (by omega)
    rw [if_pos hup]
    refine ⟨j + 1, ?_, rfl, ?_⟩
    · dsimp only
      rw [int_eq (by omega) (by omega)]
      exact hnext
    · dsimp only
      rw [hy, show y1 + l.sy * j + l.sy = y1 + l.sy * (j + 1) by ring]
      exact int_of_fits (fits_between hsy hfy1 (hy2 ▸ hfy2) hrow.1 hrow.2)
  · rw [if_neg hup]
    exact ⟨j, htracks.flat (by omega) hdy.1, rfl, hy⟩

theorem Line.Sound.stepY (h : l.Sound x1 y1) (hhigh : l.dx ≤ l.dy) (hs : l.AtY x1 y1 i s)
    (hi : 0 ≤ i) (hlt : i < l.dy) : l.AtY x1 y1 (i + 1) (l.step s) := by
  obtain ⟨j, htracks, hx, hy⟩ := hs
  obtain ⟨hdx, hdy, hsx, hsy, hx2, hy2, ⟨hfx1, hfx2⟩, hfy1, hfy2⟩ := h
  have hlow := htracks.low
  have hhigh' := htracks.high
  have hrow : int (s.y1 + l.sy) = y1 + l.sy * (i + 1) := by
    rw [hy, show y1 + l.sy * i + l.sy = y1 + l.sy * (i + 1) by ring]
    exact int_of_fits (fits_between hsy hfy1 (hy2 ▸ hfy2) (by omega) (by omega))
  have hneg : int (-l.dx) = -l.dx := int_eq (by omega) (by omega)
  have hdown : s.err < l.dy := by omega
  unfold Line.step
  dsimp only
  rw [hneg, if_pos hdown]
  by_cases hup : -s.err < l.dx
  · have hnext := htracks.up hup (by omega)
    have hcol := hnext.row_bounds (by omega) (by omega) hdx.1 (by omega) (by omega)
    have hright : s.err > -l.dx := by omega
    rw [if_pos hright]
    refine ⟨j + 1, ?_, ?_, hrow⟩
    · dsimp only
      rw [int_eq (x := s.err - l.dy) (by omega) (by omega), int_eq (by omega) (by omega)]
      rw [show -(s.err - l.dy + l.dx) = -s.err - l.dx + l.dy by ring]
      exact hnext
    · dsimp only
      rw [hx, show x1 + l.sx * j + l.sx = x1 + l.sx * (j + 1) by ring]
      exact int_of_fits (fits_between hsx hfx1 (hx2 ▸ hfx2) hcol.1 hcol.2)
  · have hstay : ¬s.err > -l.dx := by omega
    rw [if_neg hstay]
    refine ⟨j, ?_, hx, hrow⟩
    dsimp only
    rw [int_eq (by omega) (by omega), show -(s.err + l.dx) = -s.err - l.dx by ring]
    exact htracks.flat (by omega) hdx.1

end Steps

/-! ## Main result -/

/-- Every number between `a` and `b` is in the list once, and no other. -/
def Sweeps (a b : Int) (us : List Int) : Prop :=
  ∀ x, us.count x = if min a b ≤ x ∧ x ≤ max a b then 1 else 0

/-- The pixels are those of a line. -/
structure Drawn (x1 y1 x2 y2 : Int) (ps : List (Int × Int)) : Prop where
  length : ps.length = max (x2 - x1).natAbs (y2 - y1).natAbs + 1
  first : ps.head? = some (x1, y1)
  last : ps.getLast? = some (x2, y2)
  adjacent : ps.IsChain fun p q => |q.1 - p.1| ≤ 1 ∧ |q.2 - p.2| ≤ 1
  box : ∀ p ∈ ps, (min x1 x2 ≤ p.1 ∧ p.1 ≤ max x1 x2) ∧ (min y1 y2 ≤ p.2 ∧ p.2 ≤ max y1 y2)
  wide : |y2 - y1| ≤ |x2 - x1| → Sweeps x1 x2 (ps.map Prod.fst) ∧
    ∀ p ∈ ps, |(p.2 - y1) * (x2 - x1) - (p.1 - x1) * (y2 - y1)| ≤ |x2 - x1|
  high : |x2 - x1| ≤ |y2 - y1| → Sweeps y1 y2 (ps.map Prod.snd) ∧
    ∀ p ∈ ps, |(p.1 - x1) * (y2 - y1) - (p.2 - y1) * (x2 - x1)| ≤ |y2 - y1|

/-- The pixels of a walk, in its order. -/
def pixels (n : Nat) (u v : Nat → Int) : List (Int × Int) :=
  (List.range (n + 1)).map fun i => (u i, v i)

theorem mem_pixels {n : Nat} {u v : Nat → Int} {p : Int × Int} :
    p ∈ pixels n u v ↔ ∃ i ≤ n, (u i, v i) = p := by
  simp only [pixels, List.mem_map, List.mem_range, Nat.lt_succ_iff]

theorem isChain_pixels {n : Nat} {u v : Nat → Int} {R : Int × Int → Int × Int → Prop}
    (h : ∀ i < n, R (u i, v i) (u (i + 1), v (i + 1))) : (pixels n u v).IsChain R := by
  rw [pixels, List.isChain_map, List.isChain_range_succ]
  exact h

theorem head?_pixels (n : Nat) (u v : Nat → Int) : (pixels n u v).head? = some (u 0, v 0) := by
  rw [pixels, List.range_succ_eq_map]
  rfl

theorem getLast?_pixels (n : Nat) (u v : Nat → Int) :
    (pixels n u v).getLast? = some (u n, v n) := by
  rw [pixels, List.range_succ, List.map_append]
  exact List.getLast?_concat

theorem abs_sign_mul {s : Int} (hs : s = 1 ∨ s = -1) {D : Int} (hD : 0 ≤ D) : |s * D| = D := by
  rcases hs with rfl | rfl
  · rw [one_mul, abs_of_nonneg hD]
  · rw [neg_one_mul, abs_neg, abs_of_nonneg hD]

/-- A walk along the columns. -/
theorem drawn_wide {D : Nat} {d a b s t : Int} {u v : Nat → Int}
    (h : Walk D d a b s t u v) : Drawn a b (a + s * D) (b + t * d) (pixels D u v) := by
  have hdx : |a + s * D - a| = D := by
    rw [add_sub_cancel_left]
    exact abs_sign_mul h.side (Int.natCast_nonneg D)
  have hdy : |b + t * d - b| = d := by
    rw [add_sub_cancel_left]
    exact abs_sign_mul h.updown h.rise.1
  have hfst : (pixels D u v).map Prod.fst = (List.range (D + 1)).map u := by
    rw [pixels, List.map_map]
    rfl
  have hsnd : (pixels D u v).map Prod.snd = (List.range (D + 1)).map v := by
    rw [pixels, List.map_map]
    rfl
  refine ⟨?_, ?_, ?_, isChain_pixels fun i hi => h.adjacent hi, ?_, fun _ => ⟨?_, ?_⟩,
    fun hle => ?_⟩
  · have hrise := h.rise
    rw [Int.abs_eq_natAbs] at hdx hdy
    rw [pixels, List.length_map, List.length_range]
    omega
  · rw [head?_pixels, h.first.1, h.first.2]
  · rw [getLast?_pixels, h.last.1, h.last.2]
  · intro p hp
    obtain ⟨i, hi, rfl⟩ := mem_pixels.1 hp
    exact h.inside hi
  · rw [hfst]
    exact h.count
  · intro p hp
    obtain ⟨i, hi, rfl⟩ := mem_pixels.1 hp
    rw [add_sub_cancel_left, add_sub_cancel_left]
    exact h.near hi
  · rw [hdx, hdy] at hle
    have hd : d = D := le_antisymm h.rise.2 hle
    have hswap := h.swap hd
    rw [hd]
    constructor
    · rw [hsnd]
      exact hswap.count
    · intro p hp
      obtain ⟨i, hi, rfl⟩ := mem_pixels.1 hp
      rw [add_sub_cancel_left, add_sub_cancel_left]
      exact hswap.near hi

/-- A line the other way round. -/
theorem Drawn.transpose {x1 y1 x2 y2 : Int} {ps : List (Int × Int)} (h : Drawn x1 y1 x2 y2 ps) :
    Drawn y1 x1 y2 x2 (ps.map Prod.swap) := by
  have hfst : (ps.map Prod.swap).map Prod.fst = ps.map Prod.snd := by
    rw [List.map_map]
    rfl
  have hsnd : (ps.map Prod.swap).map Prod.snd = ps.map Prod.fst := by
    rw [List.map_map]
    rfl
  refine ⟨?_, ?_, ?_, ?_, ?_, fun hle => ⟨?_, ?_⟩, fun hle => ⟨?_, ?_⟩⟩
  · rw [List.length_map, h.length, Nat.max_comm]
  · rw [List.head?_map, h.first]
    rfl
  · rw [List.getLast?_map, h.last]
    rfl
  · rw [List.isChain_map]
    exact h.adjacent.imp fun p q hpq => ⟨hpq.2, hpq.1⟩
  · intro p hp
    obtain ⟨q, hq, rfl⟩ := List.mem_map.1 hp
    exact ⟨(h.box q hq).2, (h.box q hq).1⟩
  · rw [hfst]
    exact (h.high hle).1
  · intro p hp
    obtain ⟨q, hq, rfl⟩ := List.mem_map.1 hp
    exact (h.high hle).2 q hq
  · rw [hsnd]
    exact (h.wide hle).1
  · intro p hp
    obtain ⟨q, hq, rfl⟩ := List.mem_map.1 hp
    exact (h.wide hle).2 q hq

theorem drawn_point (x y : Int) : Drawn x y x y [(x, y)] := by
  have hsweeps : ∀ a, Sweeps a a [a] := by
    intro a u
    rw [List.count_singleton, min_self, max_self]
    by_cases hu : a = u
    · rw [if_pos (by simpa using hu), if_pos (by omega)]
    · rw [if_neg (by simpa using hu), if_neg (by omega)]
  refine ⟨?_, rfl, rfl, .singleton _, ?_, fun _ => ⟨hsweeps x, ?_⟩, fun _ => ⟨hsweeps y, ?_⟩⟩
  · simp
  all_goals
    intro p hp
    rw [List.mem_singleton] at hp
    subst hp
    simp

section Result

variable {x1 y1 x2 y2 : Int}

/-- The pen goes along a walk, to its end. -/
theorem Line.Sound.walk {l : Line} (h : l.Sound x1 y1) (hne : ¬(l.dx = 0 ∧ l.dy = 0)) :
    (l.dy < l.dx → Walk l.dx.toNat l.dy x1 y1 l.sx l.sy
      (fun n => (l.at ⟨x1, y1, l.err⟩ n).x1) fun n => (l.at ⟨x1, y1, l.err⟩ n).y1) ∧
    (l.dx ≤ l.dy → Walk l.dy.toNat l.dx y1 x1 l.sy l.sx
      (fun n => (l.at ⟨x1, y1, l.err⟩ n).y1) fun n => (l.at ⟨x1, y1, l.err⟩ n).x1) := by
  have hdx := h.dx
  have hdy := h.dy
  constructor
  · intro hwide
    have hD : ((l.dx.toNat : Nat) : Int) = l.dx := Int.toNat_of_nonneg hdx.1
    have hat : ∀ n : Nat, n ≤ l.dx.toNat → l.AtX x1 y1 n (l.at ⟨x1, y1, l.err⟩ n) := by
      intro n
      induction n with
      | zero =>
          intro _
          refine ⟨0, ?_, by simp [Line.at_zero], by simp [Line.at_zero]⟩
          rw [Line.at_zero, Line.err, if_pos hwide, Int.tdiv_eq_ediv_of_nonneg hdx.1]
          exact .start (by omega) (by omega)
      | succ n ih =>
          intro hn
          rw [Line.at_succ]
          push_cast
          exact h.stepX hwide (ih (by omega)) (by omega) (by omega)
    refine ⟨h.sx, h.sy, by omega, by omega, fun i hi => ?_⟩
    obtain ⟨j, htracks, hx, hy⟩ := hat i hi
    rw [hD]
    exact ⟨j, _, htracks, hx, hy⟩
  · intro hhigh
    have hD : ((l.dy.toNat : Nat) : Int) = l.dy := Int.toNat_of_nonneg hdy.1
    have hat : ∀ n : Nat, n ≤ l.dy.toNat → l.AtY x1 y1 n (l.at ⟨x1, y1, l.err⟩ n) := by
      intro n
      induction n with
      | zero =>
          intro _
          refine ⟨0, ?_, by simp [Line.at_zero], by simp [Line.at_zero]⟩
          rw [Line.at_zero, Line.err, if_neg (by omega), int_eq (by omega) (by omega),
            Int.neg_tdiv, neg_neg, Int.tdiv_eq_ediv_of_nonneg hdy.1]
          exact .start (by omega) (by omega)
      | succ n ih =>
          intro hn
          rw [Line.at_succ]
          push_cast
          exact h.stepY hhigh (ih (by omega)) (by omega) (by omega)
    refine ⟨h.sy, h.sx, by omega, by omega, fun i hi => ?_⟩
    obtain ⟨j, htracks, hx, hy⟩ := hat i hi
    rw [hD]
    exact ⟨j, _, htracks, hy, hx⟩

/-- The loop ends, and it has drawn the line. -/
theorem draws_line (hx1 : Fits x1) (hx2 : Fits x2) (hy1 : Fits y1) (hy2 : Fits y2)
    (hx : |x2 - x1| < 536870912) (hy : |y2 - y1| < 536870912) :
    ∃ ps, Drawn x1 y1 x2 y2 ps ∧
      ∀ fuel, ps.length ≤ fuel → bga_draw_line_24 fuel x1 y1 x2 y2 = some ps := by
  obtain ⟨hsound, hdx, hdy⟩ := line_sound hx1 hx2 hy1 hy2 hx hy
  have hex : (line x1 y1 x2 y2).x2 = x2 := rfl
  have hey : (line x1 y1 x2 y2).y2 = y2 := rfl
  unfold bga_draw_line_24
  dsimp only
  generalize line x1 y1 x2 y2 = l at *
  have hdx0 := hsound.dx
  have hdy0 := hsound.dy
  by_cases hpoint : l.dx = 0 ∧ l.dy = 0
  · -- there is nowhere to go
    have hx2' : x2 = x1 := by
      rw [← hex, hsound.x2, hpoint.1, mul_zero, add_zero]
    have hy2' : y2 = y1 := by
      rw [← hey, hsound.y2, hpoint.2, mul_zero, add_zero]
    refine ⟨[(x1, y1)], by rw [hx2', hy2']; exact drawn_point x1 y1, fun fuel hfuel => ?_⟩
    refine l.loop_eq (n := 0) ⟨?_, ?_⟩ (fun i hi => absurd hi (Nat.not_lt_zero i)) hfuel
    · rw [hex, hx2']
      rfl
    · rw [hey, hy2']
      rfl
  · obtain ⟨hwide, hhigh⟩ := hsound.walk hpoint
    rcases lt_or_ge l.dy l.dx with hlt | hle
    · have hwalk := hwide hlt
      have hD : ((l.dx.toNat : Nat) : Int) = l.dx := Int.toNat_of_nonneg hdx0.1
      have hdrawn := drawn_wide hwalk
      rw [hD, ← hsound.x2, ← hsound.y2, hex, hey] at hdrawn
      refine ⟨_, hdrawn, fun fuel hfuel => l.loop_eq ⟨?_, ?_⟩ (fun i hi hend => ?_) ?_⟩
      · rw [hsound.x2, ← hD]
        exact hwalk.last.1
      · rw [hsound.y2]
        exact hwalk.last.2
      · have hcol := hwalk.column (le_of_lt hi)
        rw [hcol, hsound.x2] at hend
        rcases hsound.sx with hs | hs <;> rw [hs] at hend <;> omega
      · rw [pixels, List.length_map, List.length_range] at hfuel
        omega
    · have hwalk := hhigh hle
      have hD : ((l.dy.toNat : Nat) : Int) = l.dy := Int.toNat_of_nonneg hdy0.1
      have hdrawn := (drawn_wide hwalk).transpose
      rw [hD, ← hsound.x2, ← hsound.y2, hex, hey, pixels, List.map_map] at hdrawn
      refine ⟨_, hdrawn, fun fuel hfuel => l.loop_eq ⟨?_, ?_⟩ (fun i hi hend => ?_) ?_⟩
      · rw [hsound.x2]
        exact hwalk.last.2
      · rw [hsound.y2, ← hD]
        exact hwalk.last.1
      · have hrow := hwalk.column (le_of_lt hi)
        rw [hrow, hsound.y2] at hend
        rcases hsound.sy with hs | hs <;> rw [hs] at hend <;> omega
      · rw [List.length_map, List.length_range] at hfuel
        omega

/-- A line of slope 2/5. -/
theorem draws_line_two_fifths : ∃ ps, Drawn 0 0 5 2 ps ∧
    ∀ fuel, ps.length ≤ fuel → bga_draw_line_24 fuel 0 0 5 2 = some ps :=
  draws_line ⟨by decide, by decide⟩ ⟨by decide, by decide⟩ ⟨by decide, by decide⟩
    ⟨by decide, by decide⟩ (by decide) (by decide)

end Result

end Xv6.Kernel.Bga
