import Xv6.Verified.LinkedSlots
import Xv6.Verified.Transitions

/-!
# The widgets of a window

`ulib/user_window.c`: the widgets of a window are slots of an array, linked in the order in
which they are drawn.  `addWidget` takes the first slot that is linked to itself,
`removeWidget` gives a slot back.

`removeFromWidgetList` sets the head of the list to the successor of its *tail*, which is
never a widget.  So the first widget can be removed without harm only when it is the last one
too; otherwise the list is lost.

* `widgetList_of_run`: as long as that does not happen, the list is exactly the widgets added
  and not removed, in that order, through any number of calls.
* `removeWidget_loses_list`: two widgets, the first removed.
-/

namespace Xv6.Ulib

open Xv6.Verified

/-- `MAX_WIDGET_SIZE`. -/
abbrev MAX_WIDGET_SIZE : Nat := 50

/-- The type of a widget. -/
abbrev TEXT : Int := 0
@[inherit_doc TEXT] abbrev INPUTFIELD : Int := 1
@[inherit_doc TEXT] abbrev BUTTON : Int := 2
@[inherit_doc TEXT] abbrev COLORFILL : Int := 4
@[inherit_doc TEXT] abbrev IMAGE : Int := 6

/-- `struct Widget`, without its links: its type and the address of its data. -/
structure Widget where
  type : Int
  context : Nat

/-- `struct window`, as far as its widgets go.  `freed` lists the arguments of `free`. -/
structure Window where
  widgets : Int → Widget
  links : Links Int
  needsRepaint : Bool
  freed : List Nat

/-! ## The functions -/

/-- `create_window`. -/
def createWindow (win : Window) : Window :=
  { win with
    needsRepaint := true
    links :=
      { next := fun i => if Slot MAX_WIDGET_SIZE i then i else win.links.next i
        prev := fun i => if Slot MAX_WIDGET_SIZE i then i else win.links.prev i
        head := -1
        tail := -1 } }

/-- `addToWidgetListTail`. -/
def addToWidgetListTail (k : Links Int) (idx : Int) : Links Int := k.addTail idx

/-- `findNextAvailable`. -/
def findNextAvailable (win : Window) : Int := win.links.findSelf MAX_WIDGET_SIZE

/-- `removeFromWidgetList`. -/
def removeFromWidgetList (k : Links Int) (idx : Int) : Links Int :=
  -- The successor of the tail, not of `idx`.
  let k := if k.head = idx then { k with head := k.next k.tail } else k
  let k := if k.tail = idx then { k with tail := k.prev k.tail } else k
  let k := k.unlink idx
  { k with
    prev := Function.update k.prev idx idx
    next := Function.update k.next idx idx }

/-- `addWidget`. -/
def addWidget (win : Window) : Int × Window :=
  let widgetId := findNextAvailable win
  if widgetId = -1 then (-1, win)
  else
    let k := win.links
    let k := if k.head = -1 then { k with head := widgetId } else k
    (widgetId, { win with links := addToWidgetListTail k widgetId })

/-- `freeWidget`. -/
def freeWidget (win : Window) (index : Int) : Window :=
  let w := win.widgets index
  if w.type = COLORFILL ∨ w.type = BUTTON ∨ w.type = TEXT ∨ w.type = INPUTFIELD ∨
      w.type = IMAGE then
    { win with freed := w.context :: win.freed }
  else win

/-- `removeWidget`. -/
def removeWidget (win : Window) (index : Int) : Int × Window :=
  if win.links.prev index = index ∧ win.links.next index = index then (-1, win)
  else
    let win := freeWidget win index
    (0, { win with links := removeFromWidgetList win.links index })

/-- The widgets that `repaintWindow` draws or skips as invisible, in order. -/
def repaintWindow (win : Window) : Option (List Int) :=
  if win.needsRepaint then Links.walk win.links.next (-1) (MAX_WIDGET_SIZE + 1) win.links.head
  else some []

@[simp] theorem freeWidget_links (win : Window) (index : Int) :
    (freeWidget win index).links = win.links := by
  rw [freeWidget]
  split <;> rfl

/-! ## What the calls do to a list -/

variable {win : Window} {k : Links Int} {l : List Int} {idx : Int}

/-- The state that `create_window` establishes. -/
theorem createWindow_listed (win : Window) :
    (createWindow win).links.Listed (-1) (Slot MAX_WIDGET_SIZE) [] := by
  refine ⟨.nil rfl rfl, fun x hx => absurd hx List.not_mem_nil, fun x hx _ => ?_⟩
  simp [createWindow, hx]

theorem addWidget_eq (h : win.links.Listed (-1) (Slot MAX_WIDGET_SIZE) l)
    (hlen : l.length = MAX_WIDGET_SIZE) : addWidget win = (-1, win) := by
  rw [addWidget, findNextAvailable, if_pos (h.findSelf_eq_iff.2 hlen)]

/-- With a slot to spare, a free one is added behind the others. -/
theorem addWidget_spec (h : win.links.Listed (-1) (Slot MAX_WIDGET_SIZE) l)
    (hlen : l.length ≠ MAX_WIDGET_SIZE) :
    (addWidget win).1 ≠ -1 ∧
      (addWidget win).2.links.Listed (-1) (Slot MAX_WIDGET_SIZE) (l ++ [(addWidget win).1]) := by
  have hne : findNextAvailable win ≠ -1 := fun heq => hlen (h.findSelf_eq_iff.1 heq)
  obtain ⟨hslot, hmem⟩ := h.findSelf_spec hne
  rw [addWidget, if_neg hne]
  refine ⟨hne, ?_⟩
  have hadd := h.addTail hslot hmem rfl
  -- An empty list is told by either of the two variables.
  have hempty : win.links.head = -1 ↔ win.links.tail = -1 :=
    h.chain.head_eq_iff.trans h.chain.tail_eq_iff.symm
  by_cases hhead : win.links.head = -1
  · simpa [addToWidgetListTail, hhead, hempty.1 hhead, findNextAvailable, Links.addTail] using hadd
  · have htail : win.links.tail ≠ -1 := fun heq => hhead (hempty.2 heq)
    simpa [addToWidgetListTail, hhead, htail, findNextAvailable, Links.addTail] using hadd

/-- The end variables after `removeFromWidgetList`, before the slot is taken out. -/
def setEnds (k : Links Int) (idx : Int) : Links Int :=
  { k with
    head := if k.head = idx then k.next k.tail else k.head
    tail := if k.tail = idx then k.prev k.tail else k.tail }

theorem removeFromWidgetList_eq (k : Links Int) (idx : Int) : removeFromWidgetList k idx =
    { (setEnds k idx).unlink idx with
      prev := Function.update ((setEnds k idx).unlink idx).prev idx idx
      next := Function.update ((setEnds k idx).unlink idx).next idx idx } := by
  simp only [removeFromWidgetList, setEnds]
  split_ifs <;> rfl

/-- Removing a widget that is not the first, or is the only one. -/
theorem removeFromWidgetList_listed (h : k.Listed (-1) (Slot MAX_WIDGET_SIZE) l) (hidx : idx ∈ l)
    (hlast : k.head = idx → k.tail = idx) :
    (removeFromWidgetList k idx).Listed (-1) (Slot MAX_WIDGET_SIZE) (l.erase idx) := by
  have hself : (setEnds k idx).prev idx ≠ idx := h.chain.prev_ne hidx
  rw [removeFromWidgetList_eq]
  apply h.unlink hidx
  · intro x hx
    simp only [Function.update_apply, Links.unlink_next hx]
    rfl
  · intro x hx
    simp only [Function.update_apply, Links.unlink_prev hx hself]
    rfl
  · simp only [Links.unlink_head, setEnds]
    split_ifs with hhead
    · rw [hlast hhead]
    · rfl
  · simp only [Links.unlink_tail, setEnds]
    split_ifs with htail
    · rw [htail]
    · rfl

/-- `removeWidget` tells a widget of the list from a free slot. -/
theorem removeWidget_free_iff (h : win.links.Listed (-1) (Slot MAX_WIDGET_SIZE) l)
    (hidx : Slot MAX_WIDGET_SIZE idx) : (removeWidget win idx).1 = -1 ↔ idx ∉ l := by
  rw [removeWidget, ← h.free_iff hidx]
  split_ifs with hfree
  · simpa using hfree
  · simp [hfree]

theorem removeWidget_of_notMem (h : win.links.Listed (-1) (Slot MAX_WIDGET_SIZE) l)
    (hidx : Slot MAX_WIDGET_SIZE idx) (hmem : idx ∉ l) : removeWidget win idx = (-1, win) := by
  rw [removeWidget, if_pos ((h.free_iff hidx).2 hmem)]

theorem removeWidget_of_mem (h : win.links.Listed (-1) (Slot MAX_WIDGET_SIZE) l) (hmem : idx ∈ l)
    (hlast : win.links.head = idx → win.links.tail = idx) :
    (removeWidget win idx).2.links.Listed (-1) (Slot MAX_WIDGET_SIZE) (l.erase idx) := by
  have hused : ¬(win.links.prev idx = idx ∧ win.links.next idx = idx) :=
    fun hfree => h.chain.next_ne hmem hfree.2
  rw [removeWidget, if_neg hused]
  simpa using removeFromWidgetList_listed h hmem hlast

/-! ## Any sequence of calls -/

/-- A call of `addWidget` or `removeWidget`. -/
inductive Call where
  | add
  | remove (index : Int)

/-- A window, and the widgets added to it and not removed, in the order of addition. -/
structure Session where
  win : Window
  live : List Int

/-- A call, and what it means for the list of live widgets. -/
def call (s : Session) : Call → Option Session
  | .add =>
      let (id, win) := addWidget s.win
      some ⟨win, if id = -1 then s.live else s.live ++ [id]⟩
  | .remove index =>
      if Slot MAX_WIDGET_SIZE index then
        let (r, win) := removeWidget s.win index
        some ⟨win, if r = -1 then s.live else s.live.erase index⟩
      else none

/-- The first widget is removed only if it is the last one too. -/
def SparesHead (s : Session) : Call → Prop
  | .add => True
  | .remove index => s.win.links.head = index → s.win.links.tail = index

instance : ∀ (s : Session) (c : Call), Decidable (SparesHead s c)
  | _, .add => inferInstanceAs (Decidable True)
  | _, .remove _ => inferInstanceAs (Decidable (_ → _))

/-- What a window's list is: the live widgets, linked in both directions, with every other
slot linked to itself; and what the calls make of it. -/
structure WidgetList (win : Window) (live : List Int) : Prop where
  listed : win.links.Listed (-1) (Slot MAX_WIDGET_SIZE) live
  forward : Links.walk win.links.next (-1) (MAX_WIDGET_SIZE + 1) win.links.head = some live
  backward :
    Links.walk win.links.prev (-1) (MAX_WIDGET_SIZE + 1) win.links.tail = some live.reverse
  nodup : live.Nodup
  addFails : (addWidget win).1 = -1 ↔ ∀ i, Slot MAX_WIDGET_SIZE i → i ∈ live
  removeFails : ∀ i, Slot MAX_WIDGET_SIZE i →
    (((removeWidget win i).1 = -1 ∧ (removeWidget win i).2 = win) ↔ i ∉ live)
  repaint : win.needsRepaint = true → repaintWindow win = some live

/-- The invariant gives all of it. -/
theorem widgetList_of_listed (h : win.links.Listed (-1) (Slot MAX_WIDGET_SIZE) l) :
    WidgetList win l := by
  have hlen : l.length < MAX_WIDGET_SIZE + 1 := by
    have hsub : l.Subperm (slots MAX_WIDGET_SIZE) :=
      h.chain.nodup.subperm fun x hx => mem_slots.2 (h.within x hx)
    have := hsub.length_le
    rw [length_slots] at this
    omega
  have hforward := h.chain.walk_next hlen
  refine ⟨h, hforward, h.chain.walk_prev hlen, h.chain.nodup, ?_, ?_, ?_⟩
  · rw [slots_full_iff h.chain.nodup h.within]
    constructor
    · intro hfail
      by_contra hne
      exact (addWidget_spec h hne).1 hfail
    · intro hfull
      rw [addWidget_eq h hfull]
  · intro i hi
    constructor
    · rintro ⟨hfail, -⟩
      exact (removeWidget_free_iff h hi).1 hfail
    · intro hmem
      rw [removeWidget_of_notMem h hi hmem]
      exact ⟨rfl, rfl⟩
  · intro hpaint
    rw [repaintWindow, if_pos hpaint, hforward]

theorem call_listed {s t : Session} {c : Call}
    (h : s.win.links.Listed (-1) (Slot MAX_WIDGET_SIZE) s.live) (hspare : SparesHead s c)
    (hcall : call s c = some t) : t.win.links.Listed (-1) (Slot MAX_WIDGET_SIZE) t.live := by
  cases c with
  | add =>
      simp only [call, Option.some.injEq] at hcall
      subst hcall
      by_cases hlen : s.live.length = MAX_WIDGET_SIZE
      · rw [addWidget_eq h hlen]
        exact h
      · obtain ⟨hne, hlisted⟩ := addWidget_spec h hlen
        rw [if_neg hne]
        exact hlisted
  | remove index =>
      simp only [call, Option.ite_none_right_eq_some, Option.some.injEq] at hcall
      obtain ⟨hslot, rfl⟩ := hcall
      by_cases hmem : index ∈ s.live
      · have hne : (removeWidget s.win index).1 ≠ -1 :=
          fun heq => (removeWidget_free_iff h hslot).1 heq hmem
        rw [if_neg hne]
        exact removeWidget_of_mem h hmem hspare
      · rw [removeWidget_of_notMem h hslot hmem]
        exact h

/-- Through any number of calls that never take out the first of several widgets. -/
theorem widgetList_of_run (win : Window) {s : Session}
    (h : Reaches call SparesHead ⟨createWindow win, []⟩ s) : WidgetList s.win s.live := by
  apply widgetList_of_listed
  apply h.inv (I := fun s => s.win.links.Listed (-1) (Slot MAX_WIDGET_SIZE) s.live)
  · intro s c t hs hspare hcall
    exact call_listed hs hspare hcall
  · exact createWindow_listed win

/-- A window before `create_window`. -/
def blank : Window := ⟨fun _ => ⟨TEXT, 0⟩, ⟨fun _ => 0, fun _ => 0, 0, 0⟩, false, []⟩

/-- Three widgets are added, the second and the third are removed, and another one is added. -/
theorem widgetList_run : ∃ s, Reaches call SparesHead ⟨createWindow blank, []⟩ s ∧
    s.live = [0, 1] ∧ WidgetList s.win s.live := by
  have hrun : (runActs call SparesHead [.add, .add, .add, .remove 1, .remove 2, .add]
      ⟨createWindow blank, []⟩).map Session.live = some [0, 1] := by decide +kernel
  obtain ⟨s, hs, hlive⟩ := Option.map_eq_some_iff.1 hrun
  exact ⟨s, .of_runActs _ hs, hlive, widgetList_of_run blank (.of_runActs _ hs)⟩

/-- Two widgets are added and the first is removed: the list is lost, and the second is no
longer painted. -/
theorem removeWidget_loses_list :
    ∃ s, Reaches call (fun _ _ => True) ⟨createWindow blank, []⟩ s ∧ ¬WidgetList s.win s.live := by
  have hrun : (runActs call (fun _ _ => True) [.add, .add, .remove 0]
      ⟨createWindow blank, []⟩).map (fun s => (s.live, s.win.links.head)) = some ([1], -1) := by
    decide +kernel
  obtain ⟨s, hs, hend⟩ := Option.map_eq_some_iff.1 hrun
  refine ⟨s, .of_runActs _ hs, fun hlist => ?_⟩
  have hlive : s.live = [1] := congrArg Prod.fst hend
  have hhead : s.win.links.head = -1 := congrArg Prod.snd hend
  have hforward := hlist.forward
  rw [hlive, hhead] at hforward
  exact absurd hforward (by simp [Links.walk])

end Xv6.Ulib
