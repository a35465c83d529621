import Mathlib.Tactic.Ring
import Mathlib.Tactic.Linarith
import Xv6.Kernel.WindowList

/-!
# The dock

`drawDesktopDock` and `handleDesktopDockClick` of `kernel/window_manager.c` go along the windows and
give each of them a bar of `barWidth` columns.  In the Amiga style the bars are drawn by
`amiga_desktop_draw_active_applications`, which advances its own copy of `xStart`.

The pictures of the characters are the parameter `character`; `text p` is the string that starts at
the title of window `p`.  Only columns matter here.

* `dock_agrees_iff`: when the bars are drawn where they are clicked.
-/

namespace Xv6.Kernel.Dock

open Verified Wm Exec

/-- `BGA_SCREEN_WIDTH`. -/
abbrev BGA_SCREEN_WIDTH : Int := 1024

/-- The pictures of the characters: `bga_character[ord][i][j]`, 18 rows of 9 columns. -/
abbrev Font := Nat → Nat → Nat → UInt8

/-! ## Drawing -/

section Drawing

variable (character : Font)

/-- `ord`, of a `char`. -/
def ord (ch : UInt8) : Int := ch.toInt8.toInt - 0x20

/-- `bga_draw_character_24`, in the dock: the columns that it draws in, and its value. -/
def bga_draw_character_24 (x : Int) (ch : UInt8) : List Int × Int :=
  if ord ch < 0 ∨ ord ch ≥ 95 then ([], -1)
  else
    ((List.range 9).filterMap fun j : Nat =>
      if (List.range 18).any (fun i => character (ord ch).toNat i j == 1) ∧ x + j ≥ 0 ∧
          x + j ≤ BGA_SCREEN_WIDTH then some (x + j) else none, 9)

/-- The loop of `bga_draw_string_with_max_width_24`. -/
def stringLoop (x width : Int) : List UInt8 → Int → List Int
  | [], _ => []
  | ch :: str, offset_x =>
      if offset_x + 9 ≤ width then
        let r := bga_draw_character_24 character (x + offset_x) ch
        r.1 ++ stringLoop x width str (offset_x + r.2)
      else []

/-- `bga_draw_rect_by_coord_24`: the last column is left out. -/
def bga_draw_rect_by_coord_24 (xmin xmax : Int) : List Int :=
  (List.range (xmax - xmin - 1).toNat).filterMap fun j : Nat =>
    if xmin + j ≥ 0 ∧ xmin + j < BGA_SCREEN_WIDTH then some (xmin + j) else none

/-- The title of a window and the line behind it. -/
def drawLabel (barWidth xStart : Int) (title : List UInt8) : List Int :=
  stringLoop character (xStart + 5) (barWidth - 2) title 0 ++
    bga_draw_rect_by_coord_24 (xStart + barWidth - 2) (xStart + barWidth)

/-- `amiga_desktop_draw_active_applications`: `xStart` is its own. -/
def amiga_desktop_draw_active_applications (title : List UInt8) (barWidth xStart : Int) :
    List Int :=
  drawLabel character barWidth xStart title

/-- The loop of `drawDesktopDock`: the windows with the columns that are drawn for them. -/
def labelLoop (text : Int → List UInt8) (gui_style barWidth : Int) :
    Nat → Int → Int → M (List (Int × List Int))
  | 0, _, _ => stop .endless
  | n + 1, p, xStart => do
      if p = -1 then return []
      if p ≠ (← get).desktopId then
        touch (.window p)
        if gui_style = 1 then
          let columns := drawLabel character barWidth xStart (text p)
          let q ← getNext p
          let rest ← labelLoop text gui_style barWidth n q (xStart + barWidth)
          return (p, columns) :: rest
        else
          let columns := amiga_desktop_draw_active_applications character (text p) barWidth xStart
          let q ← getNext p
          let rest ← labelLoop text gui_style barWidth n q xStart
          return (p, columns) :: rest
      else
        let q ← getNext p
        labelLoop text gui_style barWidth n q xStart

/-- `drawDesktopDock`, the labels. -/
def drawDesktopDock (text : Int → List UInt8) (gui_style : Int) : M (List (Int × List Int)) := do
  let s ← get
  let windowCount ← getWindowCount (MAX_WINDOW_CNT + 1) s.links.head 0
  if windowCount > 0 then
    let xStart := START_ICON_WIDTH + 5
    let barWidth := min ((s.screenWidth - START_ICON_WIDTH - SHOW_DESKTOP_ICON_WIDTH).tdiv
      (windowCount + 1)) DOCK_PROGRAM_NORMAL_WIDTH
    labelLoop character text gui_style barWidth (MAX_WINDOW_CNT + 1) s.links.head xStart
  else return []

end Drawing

/-! ## Lists -/

/-- The windows that are not the desktop. -/
def others (d : Int) (l : List Int) : List Int := l.filter (· ≠ d)

/-- What `labelLoop` draws. -/
def labels (character : Font) (text : Int → List UInt8) (gui_style barWidth : Int) :
    List Int → Int → List (Int × List Int)
  | [], _ => []
  | p :: ws, xStart => (p, drawLabel character barWidth xStart (text p)) ::
      labels character text gui_style barWidth ws
        (if gui_style = 1 then xStart + barWidth else xStart)

/-- The window whose bar is clicked. -/
def target (mouse_x barWidth : Int) : List Int → Int → Option Int
  | [], _ => none
  | p :: ws, xStart =>
      if mouse_x > xStart + 1 ∧ mouse_x ≤ xStart + barWidth - 1 then some p
      else target mouse_x barWidth ws (xStart + barWidth)

/-- What a click does to the window. -/
def clickWindow (junk : Message) (p : Int) : M Unit := do
  let wnd ← getWnd p
  if wnd.minimized ≠ 0 then dispatchTo p (junk.ofType WM_WINDOW_MAXIMIZE) else focusWindow p

/-- What a click does: something to one window, or nothing. -/
def clickTarget (junk : Message) : Option Int → M Unit
  | none => pure ()
  | some p => clickWindow junk p

section Walk

variable {s : Wm.State} {k : Links Int} {l₁ l₂ : List Int} {n : Nat} {junk : Message}
  {character : Font} {text : Int → List UInt8} {gui_style barWidth x mouse_x c : Int}

theorem run_touch {a : Access} (ha : Slot MAX_WINDOW_CNT a.index) :
    (touch a).run s = .ok () { s with touched := a :: s.touched } := by
  rw [touch, if_pos ha]
  rfl

theorem run_getNext {i : Int} (hi : Slot MAX_WINDOW_CNT i) :
    (getNext i).run s = .ok (s.links.next i) { s with touched := .link i :: s.touched } := by
  rw [getNext, run_bind_ok (run_touch (a := .link i) hi)]
  rfl

theorem others_cons_of_ne {d p : Int} (h : p ≠ d) : others d (p :: l₂) = p :: others d l₂ :=
  List.filter_cons_of_pos (by simpa using h)

theorem others_cons_of_eq {d p : Int} (h : p = d) : others d (p :: l₂) = others d l₂ :=
  List.filter_cons_of_neg (by simpa using h)

theorem getWindowCount_run (hchain : s.links.Chain (-1) (l₁ ++ l₂))
    (hmem : ∀ p ∈ l₁ ++ l₂, Slot MAX_WINDOW_CNT p) (hn : l₂.length < n) :
    ∃ T, (getWindowCount n (l₂.headD (-1)) c).run s =
      .ok (c + (others s.desktopId l₂).length) { s with touched := T } := by
  induction l₂ generalizing l₁ n s c with
  | nil =>
      obtain ⟨n, rfl⟩ : ∃ m, n = m + 1 := ⟨n - 1, by omega⟩
      exact ⟨s.touched, by simp [getWindowCount, others]⟩
  | cons p l₂ ih =>
      obtain ⟨n, rfl⟩ : ∃ m, n = m + 1 := ⟨n - 1, by omega⟩
      have hp : p ≠ -1 := hchain.ne (by simp)
      have hrest : s.links.Chain (-1) ((l₁ ++ [p]) ++ l₂) := by simpa using hchain
      rw [List.length_cons] at hn
      rw [List.headD_cons, getWindowCount, if_neg hp, run_get_bind,
        run_bind_ok (run_getNext (hmem p (by simp))), hchain.next_of_split.1]
      obtain ⟨T, hT⟩ := ih (s := { s with touched := .link p :: s.touched })
        (c := if p ≠ s.desktopId then c + 1 else c) (n := n) hrest (by simpa using hmem)
        (by omega)
      refine ⟨T, hT.trans ?_⟩
      by_cases hd : p = s.desktopId
      · rw [if_neg (not_not_intro hd), others_cons_of_eq hd]
      · rw [if_pos hd, others_cons_of_ne hd, List.length_cons]
        push_cast
        rw [add_assoc, add_comm 1]

theorem clickBar_run (hchain : s.links.Chain (-1) (l₁ ++ l₂))
    (hmem : ∀ p ∈ l₁ ++ l₂, Slot MAX_WINDOW_CNT p) (hn : l₂.length < n) :
    ∃ T, (clickBar junk mouse_x barWidth n (l₂.headD (-1)) x).run s =
      (clickTarget junk (target mouse_x barWidth (others s.desktopId l₂) x)).run
        { s with touched := T } := by
  induction l₂ generalizing l₁ n s x with
  | nil =>
      obtain ⟨n, rfl⟩ : ∃ m, n = m + 1 := ⟨n - 1, by omega⟩
      exact ⟨s.touched, by simp [clickBar, others, target, clickTarget]⟩
  | cons p l₂ ih =>
      obtain ⟨n, rfl⟩ : ∃ m, n = m + 1 := ⟨n - 1, by omega⟩
      have hp : p ≠ -1 := hchain.ne (by simp)
      have hslot := hmem p (by simp)
      have hrest : s.links.Chain (-1) ((l₁ ++ [p]) ++ l₂) := by simpa using hchain
      rw [List.length_cons] at hn
      have hgo (y : Int) := ih (s := { s with touched := .link p :: s.touched }) (x := y)
        hrest (by simpa using hmem) (by omega : l₂.length < n)
      rw [List.headD_cons, clickBar, if_neg hp, run_get_bind]
      by_cases hd : p = s.desktopId
      · rw [if_neg (not_not_intro hd), run_bind_ok (run_getNext hslot), hchain.next_of_split.1,
          others_cons_of_eq hd]
        exact hgo x
      · rw [if_pos hd, others_cons_of_ne hd, target]
        by_cases hin : mouse_x > x + 1 ∧ mouse_x ≤ x + barWidth - 1
        · rw [if_pos hin, if_pos hin]
          exact ⟨s.touched, rfl⟩
        · rw [if_neg hin, if_neg hin, run_bind_ok (run_getNext hslot), hchain.next_of_split.1]
          exact hgo (x + barWidth)

theorem labelLoop_run (hchain : s.links.Chain (-1) (l₁ ++ l₂))
    (hmem : ∀ p ∈ l₁ ++ l₂, Slot MAX_WINDOW_CNT p) (hn : l₂.length < n) :
    ∃ T, (labelLoop character text gui_style barWidth n (l₂.headD (-1)) x).run s =
      .ok (labels character text gui_style barWidth (others s.desktopId l₂) x)
        { s with touched := T } := by
  induction l₂ generalizing l₁ n s x with
  | nil =>
      obtain ⟨n, rfl⟩ : ∃ m, n = m + 1 := ⟨n - 1, by omega⟩
      exact ⟨s.touched, by simp [labelLoop, others, labels]⟩
  | cons p l₂ ih =>
      obtain ⟨n, rfl⟩ : ∃ m, n = m + 1 := ⟨n - 1, by omega⟩
      have hp : p ≠ -1 := hchain.ne (by simp)
      have hslot := hmem p (by simp)
      have hrest : s.links.Chain (-1) ((l₁ ++ [p]) ++ l₂) := by simpa using hchain
      rw [List.length_cons] at hn
      rw [List.headD_cons, labelLoop, if_neg hp, run_get_bind]
      by_cases hd : p = s.desktopId
      · rw [if_neg (not_not_intro hd), run_bind_ok (run_getNext hslot), hchain.next_of_split.1,
          others_cons_of_eq hd]
        exact ih (n := n) (s := { s with touched := .link p :: s.touched }) hrest
          (by simpa using hmem) (by omega)
      · rw [if_pos hd, others_cons_of_ne hd, labels, run_bind_ok (run_touch (a := .window p) hslot)]
        by_cases hstyle : gui_style = 1
        · obtain ⟨T, hT⟩ := ih (n := n)
            (s := { s with touched := .link p :: .window p :: s.touched })
            (x := x + barWidth) hrest (by simpa using hmem) (by omega)
          rw [if_pos hstyle, if_pos hstyle, run_bind_ok (run_getNext hslot),
            hchain.next_of_split.1, run_bind_ok hT]
          exact ⟨T, rfl⟩
        · obtain ⟨T, hT⟩ := ih (n := n)
            (s := { s with touched := .link p :: .window p :: s.touched })
            (x := x) hrest (by simpa using hmem) (by omega)
          rw [if_neg hstyle, if_neg hstyle, run_bind_ok (run_getNext hslot),
            hchain.next_of_split.1, run_bind_ok hT]
          exact ⟨T, rfl⟩

end Walk

/-! ## Bars -/

/-- Where the first bar starts. -/
abbrev barStart : Int := START_ICON_WIDTH + 5

/-- `barWidth`, for a number of windows. -/
def barWidthFor (screenWidth : Int) (windowCount : Int) : Int :=
  min ((screenWidth - START_ICON_WIDTH - SHOW_DESKTOP_ICON_WIDTH).tdiv (windowCount + 1))
    DOCK_PROGRAM_NORMAL_WIDTH

section Bars

variable {ws : List Int} {k : Nat} {p : Int} {character : Font} {text : Int → List UInt8}
  {gui_style barWidth xStart mouse_x c : Int}

/-- In style 1, or with a single window, bar `k` is the `k`-th from the start. -/
theorem labels_getElem? (h : gui_style = 1 ∨ ws.length ≤ 1) :
    (labels character text gui_style barWidth ws xStart)[k]? =
      ws[k]?.map fun p => (p, drawLabel character barWidth (xStart + k * barWidth) (text p)) := by
  induction ws generalizing k xStart with
  | nil => rfl
  | cons p ws ih =>
      rw [labels]
      cases k with
      | zero => simp
      | succ k =>
          rcases h with hstyle | hlen
          · rw [List.getElem?_cons_succ, List.getElem?_cons_succ, if_pos hstyle, ih (.inl hstyle)]
            have hnext : xStart + barWidth + k * barWidth = xStart + (k + 1 : Nat) * barWidth := by
              push_cast
              ring
            rw [hnext]
          · have hws : ws = [] := List.eq_nil_of_length_eq_zero (by
              rw [List.length_cons] at hlen
              omega)
            rw [hws]
            rfl

/-- In the Amiga style all bars are at the start. -/
theorem labels_amiga_getElem? (h : gui_style ≠ 1) :
    (labels character text gui_style barWidth ws xStart)[k]? =
      ws[k]?.map fun p => (p, drawLabel character barWidth xStart (text p)) := by
  induction ws generalizing k with
  | nil => rfl
  | cons p ws ih =>
      rw [labels, if_neg h]
      cases k with
      | zero => rfl
      | succ k =>
          rw [List.getElem?_cons_succ, List.getElem?_cons_succ]
          exact ih

theorem length_labels :
    (labels character text gui_style barWidth ws xStart).length = ws.length := by
  induction ws generalizing xStart with
  | nil => rfl
  | cons p ws ih => rw [labels, List.length_cons, List.length_cons, ih]

/-- A click that hits something hits the inside of a bar. -/
theorem target_some (h : target mouse_x barWidth ws xStart = some p) :
    ∃ k : Nat, ws[k]? = some p ∧ xStart + k * barWidth + 1 < mouse_x ∧
      mouse_x ≤ xStart + k * barWidth + barWidth - 1 := by
  induction ws generalizing xStart with
  | nil => cases h
  | cons q ws ih =>
      rw [target] at h
      split_ifs at h with hin
      · cases h
        exact ⟨0, rfl, by push_cast; omega, by push_cast; omega⟩
      · obtain ⟨k, hk, hlo, hhi⟩ := ih h
        have hnext : xStart + barWidth + k * barWidth = xStart + (k + 1 : Nat) * barWidth := by
          push_cast
          ring
        rw [hnext] at hlo hhi
        exact ⟨k + 1, hk, hlo, hhi⟩

theorem target_of_inside (hbar : 0 ≤ barWidth) (hk : ws[k]? = some p)
    (hlo : xStart + k * barWidth + 1 < mouse_x)
    (hhi : mouse_x ≤ xStart + k * barWidth + barWidth - 1) :
    target mouse_x barWidth ws xStart = some p := by
  induction ws generalizing xStart k with
  | nil => cases hk
  | cons q ws ih =>
      rw [target]
      cases k with
      | zero =>
          cases hk
          rw [if_pos]
          push_cast at hlo hhi
          omega
      | succ k =>
          have hmul : 0 ≤ (k : Int) * barWidth := mul_nonneg (Int.natCast_nonneg k) hbar
          have hnext : xStart + (k + 1 : Nat) * barWidth = xStart + barWidth + k * barWidth := by
            push_cast
            ring
          rw [hnext] at hlo hhi
          rw [if_neg (by omega)]
          exact ih hk hlo hhi

/-- The line behind a title. -/
theorem mem_rect : c ∈ bga_draw_rect_by_coord_24 (xStart + barWidth - 2) (xStart + barWidth) ↔
    c = xStart + barWidth - 2 ∧ 0 ≤ c ∧ c < BGA_SCREEN_WIDTH := by
  rw [bga_draw_rect_by_coord_24, show xStart + barWidth - (xStart + barWidth - 2) - 1 = 1 by ring,
    List.mem_filterMap]
  constructor
  · rintro ⟨j, hj, hc⟩
    rw [Option.ite_none_right_eq_some, Option.some_inj] at hc
    have : j = 0 := by simpa using hj
    subst this
    omega
  · rintro ⟨rfl, hlo, hhi⟩
    refine ⟨0, by simp, ?_⟩
    rw [Nat.cast_zero, add_zero, if_pos ⟨hlo, hhi⟩]

end Bars

/-! ## Agreement -/

/-- The columns drawn for each window are in an interval of its own, and clicks inside of it hit the
window. -/
def Agrees (drawn : List (Int × List Int)) (hit : Int → Option Int) : Prop :=
  ∃ lo hi : Nat → Int,
    (∀ k b, drawn[k]? = some b → (∀ c ∈ b.2, lo k ≤ c ∧ c ≤ hi k) ∧
      ∀ x, lo k < x → x < hi k → hit x = some b.1) ∧
    ∀ k l, k < l → l < drawn.length → hi k < lo l ∨ hi l < lo k

/-- The bars are drawn one behind the other, and no title leaves its bar. -/
def Fits (character : Font) (text : Int → List UInt8) (gui_style barWidth : Int)
    (ws : List Int) : Prop :=
  (gui_style = 1 ∨ ws.length ≤ 1) ∧ ∀ (k : Nat) p, ws[k]? = some p →
    ∀ c ∈ stringLoop character (barStart + k * barWidth + 5) (barWidth - 2) (text p) 0,
      barStart + k * barWidth + 1 ≤ c ∧ c ≤ barStart + k * barWidth + barWidth

section Agreement

variable {ws : List Int} {character : Font} {text : Int → List UInt8} {gui_style barWidth : Int}

/-- Bars that fit agree with the clicks. -/
theorem agrees_of_fits (hbar : 18 ≤ barWidth) (h : Fits character text gui_style barWidth ws) :
    Agrees (labels character text gui_style barWidth ws barStart)
      (fun x => target x barWidth ws barStart) := by
  refine ⟨fun k => barStart + k * barWidth + 1, fun k => barStart + k * barWidth + barWidth,
    fun k b hb => ?_, fun k l hkl _ => .inl ?_⟩
  · rw [labels_getElem? h.1] at hb
    obtain ⟨p, hp, rfl⟩ := Option.map_eq_some_iff.1 hb
    constructor
    · intro c hc
      dsimp only at hc
      rw [drawLabel, List.mem_append, mem_rect] at hc
      rcases hc with hc | hc
      · exact h.2 k p hp c hc
      · dsimp only
        omega
    · intro x hlo hhi
      dsimp only at hlo hhi
      exact target_of_inside (by omega) hp hlo (by omega)
  · have hmul : (k + 1 : Int) * barWidth ≤ l * barWidth :=
      mul_le_mul_of_nonneg_right (by omega) (by omega)
    rw [add_mul, one_mul] at hmul
    dsimp only
    omega

/-- Bars that agree with the clicks fit. -/
theorem fits_of_agrees (hnodup : ws.Nodup) (hbar : 18 ≤ barWidth)
    (hroom : ws.length * barWidth ≤ 942)
    (h : Agrees (labels character text gui_style barWidth ws barStart)
      (fun x => target x barWidth ws barStart)) : Fits character text gui_style barWidth ws := by
  obtain ⟨lo, hi, hdrawn, hdisj⟩ := h
  have hstart : barStart = 77 := rfl
  have hscreen : BGA_SCREEN_WIDTH = 1024 := rfl
  have hline (xStart : Int) (title : List UInt8) (hlo : 0 ≤ xStart + barWidth - 2)
      (hhi : xStart + barWidth - 2 < BGA_SCREEN_WIDTH) :
      xStart + barWidth - 2 ∈ drawLabel character barWidth xStart title := by
    rw [drawLabel, List.mem_append, mem_rect]
    exact .inr ⟨rfl, hlo, hhi⟩
  have hstyle : gui_style = 1 ∨ ws.length ≤ 1 := by
    by_contra hnot
    push Not at hnot
    obtain ⟨hamiga, hlen⟩ := hnot
    -- the lines behind the first two titles are the same
    have hbar' : 2 * barWidth ≤ ws.length * barWidth :=
      mul_le_mul_of_nonneg_right (by omega) (by omega)
    have hfirst (k : Nat) (hk : k < ws.length) := (hdrawn k _ (by
      rw [labels_amiga_getElem? hamiga, List.getElem?_eq_getElem hk]
      rfl)).1 _ (hline barStart (text ws[k]) (by omega) (by omega))
    have h0 := hfirst 0 (by omega)
    have h1 := hfirst 1 (by omega)
    have := hdisj 0 1 (by omega) (by rw [length_labels]; omega)
    omega
  refine ⟨hstyle, fun k p hk c hc => ?_⟩
  have hlt : k < ws.length := (List.getElem?_eq_some_iff.1 hk).1
  have hmul : (k + 1 : Int) * barWidth ≤ ws.length * barWidth :=
    mul_le_mul_of_nonneg_right (by omega) (by omega)
  have hmul' : 0 ≤ (k : Int) * barWidth := mul_nonneg (Int.natCast_nonneg k) (by omega)
  rw [add_mul, one_mul] at hmul
  obtain ⟨hcols, hclick⟩ := hdrawn k (p, drawLabel character barWidth
    (barStart + k * barWidth) (text p)) (by rw [labels_getElem? hstyle, hk]; rfl)
  have hend := hcols _ (hline (barStart + k * barWidth) (text p) (by omega) (by omega))
  have hin := hcols c (by
    rw [drawLabel, List.mem_append]
    exact .inl hc)
  -- next to the bar there is a column that does not hit it
  have hmiss (x : Int) (hlo : lo k < x) (hhi : x < hi k) :
      barStart + k * barWidth + 1 < x ∧ x ≤ barStart + k * barWidth + barWidth - 1 := by
    obtain ⟨l, hl, hx⟩ := target_some (hclick x hlo hhi)
    obtain ⟨hlk, heq⟩ := List.getElem?_eq_some_iff.1 hk
    obtain ⟨hll, heq'⟩ := List.getElem?_eq_some_iff.1 hl
    obtain rfl : k = l := hnodup.getElem_inj_iff.1 (heq.trans heq'.symm)
    exact hx
  constructor
  · by_contra hleft
    have := hmiss (barStart + k * barWidth + 1) (by omega) (by omega)
    omega
  · by_contra hright
    have := hmiss (barStart + k * barWidth + barWidth) (by omega) (by omega)
    omega

end Agreement

/-! ## The dock -/

section Dock

variable {s : Wm.State} {l : List Int} {junk msg : Message} {character : Font}
  {text : Int → List UInt8} {gui_style mouse_x p : Int}

/-- The windows with bars. -/
def barred (s : Wm.State) (l : List Int) : List Int := others s.desktopId l

/-- The width of a bar. -/
def dockBarWidth (s : Wm.State) (l : List Int) : Int :=
  barWidthFor s.screenWidth (barred s l).length

/-- The window that a click in the dock hits. -/
def dockTarget (s : Wm.State) (l : List Int) (mouse_x : Int) : Option Int :=
  target mouse_x (dockBarWidth s l) (barred s l) barStart

/-- What the dock shows. -/
def dockLabels (character : Font) (text : Int → List UInt8) (gui_style : Int) (s : Wm.State)
    (l : List Int) : List (Int × List Int) :=
  labels character text gui_style (dockBarWidth s l) (barred s l) barStart

theorem head_chain (h : Lists s l) : s.links.Chain (-1) ([] ++ l) := h.chain

theorem head_slots (h : Lists s l) : ∀ p ∈ [] ++ l, Slot MAX_WINDOW_CNT p :=
  fun p hp => h.within p hp

theorem drawDesktopDock_run (h : Lists s l) :
    ∃ T, (drawDesktopDock character text gui_style).run s =
      .ok (dockLabels character text gui_style s l) { s with touched := T } := by
  obtain ⟨T, hT⟩ := getWindowCount_run (c := 0) (head_chain h) (head_slots h)
    (length_lt_of_lists h)
  rw [← h.chain.head_eq] at hT
  rw [drawDesktopDock, run_get_bind, run_bind_ok hT, zero_add]
  unfold dockLabels dockBarWidth barred
  by_cases hnone : (others s.desktopId l).length = 0
  · rw [hnone, if_neg (by decide), List.eq_nil_of_length_eq_zero hnone]
    exact ⟨T, rfl⟩
  · rw [if_pos (by omega), h.chain.head_eq]
    exact labelLoop_run (s := { s with touched := T }) (head_chain h) (head_slots h)
      (length_lt_of_lists h)

theorem clickBars_run (h : Lists s l) : ∃ T, (clickBars junk mouse_x).run s =
    (clickTarget junk (dockTarget s l mouse_x)).run { s with touched := T } := by
  obtain ⟨T, hT⟩ := getWindowCount_run (c := 0) (head_chain h) (head_slots h)
    (length_lt_of_lists h)
  rw [← h.chain.head_eq] at hT
  rw [clickBars, run_get_bind, run_bind_ok hT, zero_add]
  unfold dockTarget dockBarWidth barred
  by_cases hnone : (others s.desktopId l).length = 0
  · rw [hnone, if_neg (by decide), List.eq_nil_of_length_eq_zero hnone]
    exact ⟨T, rfl⟩
  · rw [if_pos (by omega), h.chain.head_eq]
    exact clickBar_run (s := { s with touched := T }) (head_chain h) (head_slots h)
      (length_lt_of_lists h)

theorem barred_nodup (h : Lists s l) : (barred s l).Nodup := h.chain.nodup.filter _

/-- The bars are wide enough to be clicked, and all of them are on the screen. -/
theorem dockBarWidth_bounds (h : Lists s l) (hscreen : s.screenWidth = BGA_SCREEN_WIDTH) :
    18 ≤ dockBarWidth s l ∧ ((barred s l).length + 1) * dockBarWidth s l ≤ 942 := by
  have hlen : (barred s l).length ≤ 50 := by
    have h1 := length_lt_of_lists h
    have h2 : (barred s l).length ≤ l.length := List.length_filter_le _ _
    simp only [MAX_WINDOW_CNT] at h1
    omega
  unfold dockBarWidth barWidthFor
  rw [hscreen]
  generalize (barred s l).length = n at *
  have hwidth : BGA_SCREEN_WIDTH - START_ICON_WIDTH - SHOW_DESKTOP_ICON_WIDTH = 942 := rfl
  have hprog : DOCK_PROGRAM_NORMAL_WIDTH = 160 := rfl
  rw [hwidth, hprog, Int.tdiv_eq_ediv_of_nonneg (by decide)]
  have hlo : 18 ≤ (942 : Int) / (n + 1) := Int.le_ediv_of_mul_le (by omega) (by omega)
  have hhi : (942 : Int) / (n + 1) * (n + 1) ≤ 942 := Int.ediv_mul_le _ (by omega)
  refine ⟨by omega, ?_⟩
  calc ((n : Int) + 1) * min ((942 : Int) / (n + 1)) 160
      ≤ (n + 1) * ((942 : Int) / (n + 1)) :=
        mul_le_mul_of_nonneg_left (min_le_left _ _) (by omega)
    _ ≤ 942 := by rw [mul_comm]; exact hhi

/-- What a click on a bar does leaves the screen as it is. -/
theorem clickWindow_returns (h : Lists s l) (hp : p ∈ l) (T : List Access) :
    ∃ s', (clickWindow junk p).run { s with touched := T } = .ok () s' ∧
      s'.screenWidth = s.screenWidth := by
  have hslot := h.within p hp
  have hwp : wp (clickWindow junk p) (fun _ s' => s'.screenWidth = s.screenWidth) Never
      { s with touched := T } := by
    rw [clickWindow, wp_bind, wp_getWnd hslot, wp_ite]
    constructor
    · intro _
      rw [dispatchTo, wp_setEntry hslot]
    · intro _
      have h' : Lists { s with touched := .window p :: T } l := h
      refine wp_imp (focusWindow_spec h' (.inr hp)) ?_
      rintro _ s' ⟨-, hre⟩
      rw [hre.same]
  obtain ⟨_, s', hrun, hwidth⟩ := returns_of_wp hwp
  exact ⟨s', hrun, hwidth⟩

/-- A click inside a bar does what it does to the window, and nothing else. -/
theorem handleDesktopDockClick_run (h : Lists s l) (hscreen : s.screenWidth = BGA_SCREEN_WIDTH)
    (hhit : dockTarget s l mouse_x = some p) :
    ∃ T s', (clickWindow junk p).run { s with touched := T } = .ok () s' ∧
      (handleDesktopDockClick junk mouse_x msg).run s = .ok () s' := by
  obtain ⟨T, hT⟩ : ∃ T, (clickBars junk mouse_x).run s =
      (clickTarget junk (dockTarget s l mouse_x)).run { s with touched := T } := clickBars_run h
  rw [hhit, clickTarget] at hT
  obtain ⟨k, hk, hlo, hhi⟩ := target_some hhit
  obtain ⟨hlt, heq⟩ := List.getElem?_eq_some_iff.1 hk
  have hp : p ∈ l := by
    have hmem : p ∈ barred s l := heq ▸ List.getElem_mem hlt
    exact (List.mem_filter.1 hmem).1
  obtain ⟨s', hrun, hwidth⟩ : ∃ s', (clickWindow junk p).run { s with touched := T } = .ok () s' ∧
      s'.screenWidth = s.screenWidth := clickWindow_returns h hp T
  obtain ⟨hbar, hroom⟩ := dockBarWidth_bounds h hscreen
  refine ⟨T, s', hrun, ?_⟩
  have hstart : barStart = 77 := rfl
  have hmul : ((k : Int) + 1) * dockBarWidth s l ≤ (barred s l).length * dockBarWidth s l :=
    mul_le_mul_of_nonneg_right (by omega) (by omega)
  have hmul' : 0 ≤ (k : Int) * dockBarWidth s l := mul_nonneg (Int.natCast_nonneg k) (by omega)
  rw [add_mul, one_mul] at hmul hroom
  rw [handleDesktopDockClick, run_bind_ok (hT.trans hrun)]
  have hdesktop : (clickShowDesktop junk mouse_x).run s' = .ok () s' := by
    rw [clickShowDesktop, run_get_bind, if_neg]
    · rfl
    · rw [hwidth, hscreen]
      simp only [BGA_SCREEN_WIDTH, SHOW_DESKTOP_ICON_WIDTH]
      omega
  rw [run_bind_ok hdesktop, clickStart, run_get_bind, if_neg]
  · rfl
  · simp only [START_ICON_WIDTH]
    omega

/-- When the dock shows the bars where it finds them. -/
theorem dock_agrees_iff (h : Lists s l) (hscreen : s.screenWidth = BGA_SCREEN_WIDTH)
    (junk msg : Message) (character : Font) (text : Int → List UInt8) (gui_style : Int) :
    (∃ T, (drawDesktopDock character text gui_style).run s =
      .ok (dockLabels character text gui_style s l) { s with touched := T }) ∧
    (∀ mouse_x p, dockTarget s l mouse_x = some p →
      ∃ T s', (clickWindow junk p).run { s with touched := T } = .ok () s' ∧
        (handleDesktopDockClick junk mouse_x msg).run s = .ok () s') ∧
    (Agrees (dockLabels character text gui_style s l) (dockTarget s l) ↔
      Fits character text gui_style (dockBarWidth s l) (barred s l)) := by
  obtain ⟨hbar, hroom⟩ := dockBarWidth_bounds h hscreen
  rw [add_mul, one_mul] at hroom
  exact ⟨drawDesktopDock_run h, fun _ _ hhit => handleDesktopDockClick_run h hscreen hhit,
    fits_of_agrees (barred_nodup h) hbar (by omega), agrees_of_fits hbar⟩

end Dock

/-- The desktop and two windows. -/
theorem two_windows : ∃ s l, Lists s l ∧ s.screenWidth = BGA_SCREEN_WIDTH ∧
    (barred s l).length = 2 := by
  have hrun : (runActs act Wm.Sound [.create (centred 1024 768) [] 1,
    .create (centred 300 200) [] 2,
      .create (centred 100 100) [] 3] (boot cleared)).map (fun s =>
        (s.live, s.wm.screenWidth, s.wm.desktopId)) = some ([2, 1, 0], 1024, 0) := by
    decide +kernel
  obtain ⟨s, hs, hend⟩ := Option.map_eq_some_iff.1 hrun
  have hlive : s.live = [2, 1, 0] := congrArg Prod.fst hend
  have hdesk : s.wm.desktopId = 0 := congrArg (fun x => x.2.2) hend
  obtain ⟨l, hperm, hlist⟩ := (inv_of_run (.of_runActs _ hs)).listed
  refine ⟨s.wm, l, hlist, congrArg (fun x => x.2.1) hend, ?_⟩
  rw [hlive] at hperm
  rw [barred, others, hdesk, (hperm.filter _).length_eq]
  rfl

/-- In style 1, no titles: the bars are where they are clicked. -/
theorem dock_agrees_iff_two_windows : ∃ s l, (barred s l).length = 2 ∧
    Agrees (dockLabels (fun _ _ _ => 0) (fun _ => []) 1 s l) (dockTarget s l) := by
  obtain ⟨s, l, hlist, hscreen, hlen⟩ := two_windows
  refine ⟨s, l, hlen, (dock_agrees_iff hlist hscreen noMessage noMessage _ _ 1).2.2.2 ?_⟩
  exact ⟨.inl rfl, fun k p _ c hc => by simp [stringLoop] at hc⟩

/-- In the Amiga style, two windows have the same bar. -/
theorem amiga_bars_overlap : ∃ s l, Lists s l ∧ (barred s l).length = 2 ∧
    ¬Agrees (dockLabels (fun _ _ _ => 0) (fun _ => []) 2 s l) (dockTarget s l) := by
  obtain ⟨s, l, hlist, hscreen, hlen⟩ := two_windows
  obtain ⟨hbar, hroom⟩ := dockBarWidth_bounds hlist hscreen
  rw [add_mul, one_mul] at hroom
  refine ⟨s, l, hlist, hlen, fun h => ?_⟩
  have hfits := fits_of_agrees (barred_nodup hlist) hbar (by omega) h
  rcases hfits.1 with h2 | h1
  · exact absurd h2 (by decide)
  · omega

end Xv6.Kernel.Dock
