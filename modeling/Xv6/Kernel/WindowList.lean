import Xv6.Kernel.WindowManager
import Xv6.Verified.Transitions

/-!
# The list of windows

The list that `kernel/window_manager.c` keeps: what `focusWindow`, the calls of programs and
the messages from keyboard and mouse make of it, and what is left of it after any sequence of
them.

The code loses the list in two ways.  `removeFromWindowList` sets `windowlisttail` but not
`windowlisthead`, so that closing the first window leaves `windowlisthead` at an entry that is
linked to itself.  And a desktop that was closed is still focused when the mouse is pressed
where no window is: its free entry then enters the list.  A message that goes to the top
window when there is none reads and writes outside the array.

## Main results

* `focusWindow_spec`, `createWindow_spec`, `closeWindow_spec`: what the operations do to the
  list.
* `wmHandleMessage_safe`: a message that finds the state it needs (`Ready`) touches windows of
  the list only.
* `windowList_of_run`: as long as the first window is not closed and messages find what they
  need, the list is the live windows and nothing loops or leaves the array.
* `closeWindow_loses_list`: two windows, the first closed.
-/

namespace Xv6.Kernel.Wm

open Xv6.Verified
open Exec

variable {s s' s₀ : State} {l l' : List Int} {i v idx winId d : Int} {T : List Access}
  {junk msg : Message}

/-- The list runs through the windows `l`, every other entry is linked to itself. -/
abbrev Lists (s : State) (l : List Int) : Prop := s.links.Listed (-1) (Slot MAX_WINDOW_CNT) l

/-- No reason to stop. -/
abbrev Never : Stop → State → Prop := fun _ _ => False

/-! ## Accesses -/

section Access

variable {Q : Unit → State → Prop} {E : Stop → State → Prop}

theorem wp_touch {a : Access} (ha : Slot MAX_WINDOW_CNT a.index) :
    wp (touch a) Q E s ↔ Q () { s with touched := a :: s.touched } := by
  simp [touch, ha]

theorem wp_getNext {Q : Int → State → Prop} (hi : Slot MAX_WINDOW_CNT i) :
    wp (getNext i) Q E s ↔ Q (s.links.next i) { s with touched := .link i :: s.touched } := by
  simp [getNext, wp_touch (a := .link i) hi]

theorem wp_getPrev {Q : Int → State → Prop} (hi : Slot MAX_WINDOW_CNT i) :
    wp (getPrev i) Q E s ↔ Q (s.links.prev i) { s with touched := .link i :: s.touched } := by
  simp [getPrev, wp_touch (a := .link i) hi]

theorem wp_getWnd {Q : KernelWindow → State → Prop} (hi : Slot MAX_WINDOW_CNT i) :
    wp (getWnd i) Q E s ↔
      Q (s.windowlist i).wnd { s with touched := .window i :: s.touched } := by
  simp [getWnd, wp_touch (a := .window i) hi]

theorem wp_setNext (hi : Slot MAX_WINDOW_CNT i) : wp (setNext i v) Q E s ↔
    Q () { s with
      links.next := Function.update s.links.next i v
      touched := .link i :: s.touched } := by
  simp [setNext, wp_touch (a := .link i) hi]

theorem wp_setPrev (hi : Slot MAX_WINDOW_CNT i) : wp (setPrev i v) Q E s ↔
    Q () { s with
      links.prev := Function.update s.links.prev i v
      touched := .link i :: s.touched } := by
  simp [setPrev, wp_touch (a := .link i) hi]

theorem wp_setEntry {f : Entry → Entry} (hi : Slot MAX_WINDOW_CNT i) :
    wp (setEntry i f) Q E s ↔
      Q () { s with
        windowlist := Function.update s.windowlist i (f (s.windowlist i))
        touched := .window i :: s.touched } := by
  simp [setEntry, wp_touch (a := .window i) hi]

end Access

/-! ## Relinking -/

/-- What changes are the links and the record of accesses, which are to entries with `P`. -/
structure Relinks (P : Int → Prop) (s s' : State) : Prop where
  same : s' = { s with links := s'.links, touched := s'.touched }
  touched : ∀ a ∈ s'.touched, a ∈ s.touched ∨ P a.index

/-- `addToWindowList` is `addTail`. -/
theorem addToWindowList_spec {P : Int → Prop} (hidx : Slot MAX_WINDOW_CNT idx) (hP : P idx)
    (htail : s.links.tail ≠ -1 → Slot MAX_WINDOW_CNT s.links.tail ∧ P s.links.tail) :
    wp (addToWindowList idx) (fun _ s' => s'.links = s.links.addTail idx ∧ Relinks P s s') Never
      s := by
  simp only [addToWindowList, wp_bind, wp_get, wp_setPrev hidx, wp_setNext hidx, wp_ite, setTail,
    wp_modify]
  constructor
  · intro hne
    obtain ⟨hslot, hPt⟩ := htail hne
    rw [wp_setNext hslot]
    refine ⟨?_, rfl, ?_⟩
    · simp [Links.addTail, hne]
    · intro a ha
      simp only [List.mem_cons] at ha
      rcases ha with rfl | rfl | rfl | ha
      · exact .inr hPt
      · exact .inr hP
      · exact .inr hP
      · exact .inl ha
  · intro heq
    refine ⟨?_, rfl, ?_⟩
    · simp only [Links.addTail, heq, if_false]
    · intro a ha
      simp only [List.mem_cons] at ha
      rcases ha with rfl | rfl | ha
      · exact .inr hP
      · exact .inr hP
      · exact .inl ha

theorem Relinks.trans {P : Int → Prop} {s₁ : State} (h : Relinks P s s₁) (h' : Relinks P s₁ s') :
    Relinks P s s' := by
  refine ⟨?_, fun a ha => ?_⟩
  · rw [h'.same, h.same]
  · rcases h'.touched a ha with ha | hP
    · exact h.touched a ha
    · exact .inr hP

/-- The end of `focusWindow`, when the window has been taken out of the list in `s₁`. -/
theorem addToWindowList_moveBack {s₁ : State} (h : Lists s l) (hmem : winId ∈ l)
    (hlast : s.links.tail ≠ winId) (hre : Relinks (· ∈ l) s s₁)
    (hnext : ∀ x, x ≠ -1 → s₁.links.next x =
      if x = s.links.prev winId then s.links.next winId else s.links.next x)
    (hprev : ∀ x, x ≠ -1 → s₁.links.prev x =
      if x = s.links.next winId then s.links.prev winId else s.links.prev x)
    (hhead : s₁.links.head = if s.links.head = winId then s.links.next winId else s.links.head)
    (htail : s₁.links.tail = s.links.tail) :
    wp (addToWindowList winId)
      (fun _ s' => (∃ l', l'.Perm l ∧ Lists s' l') ∧ Relinks (· ∈ l) s s') Never s₁ := by
  have hadd := addToWindowList_spec (s := s₁) (P := (· ∈ l)) (h.within _ hmem) hmem fun hne => by
    rw [htail] at hne ⊢
    exact ⟨h.within _ (h.chain.tail_mem hne), h.chain.tail_mem hne⟩
  refine wp_imp hadd ?_
  rintro _ s' ⟨hlinks, hre'⟩
  refine ⟨⟨l.erase winId ++ [winId], ?_, ?_⟩, hre.trans hre'⟩
  · exact (List.perm_append_singleton _ _).trans (List.perm_cons_erase hmem).symm
  · rw [Lists, hlinks]
    exact h.moveBack hmem hlast hnext hprev hhead htail

/-- A window of the list is moved to its end. -/
theorem focusWindow_spec (h : Lists s l) (hwin : winId = -1 ∨ winId ∈ l) :
    wp (focusWindow winId)
      (fun _ s' => (∃ l', l'.Perm l ∧ Lists s' l') ∧ Relinks (· ∈ l) s s') Never s := by
  have hstay : (∃ l', l'.Perm l ∧ Lists s l') ∧ Relinks (· ∈ l) s s :=
    ⟨⟨l, .refl l, h⟩, rfl, fun a ha => .inl ha⟩
  simp only [focusWindow, wp_bind, wp_get, wp_ite, wp_pure]
  refine ⟨fun _ => hstay, fun hother => ?_⟩
  rw [not_or] at hother
  obtain ⟨hne, hlast⟩ := hother
  have hmem : winId ∈ l := hwin.resolve_left hne
  have hslot := h.within _ hmem
  -- Not the last one, so there is a window behind it.
  have hnext : s.links.next winId ∈ l :=
    h.chain.next_mem hmem fun heq => hlast ((h.chain.tail_eq_slot_iff hmem).2 heq).symm
  have hnexte : s.links.next winId ≠ -1 := h.chain.ne hnext
  constructor
  · rintro rfl
    simp only [wp_getNext hslot, wp_setPrev (h.within _ hnext), setHead, wp_modify]
    have hprev : s.links.prev s.links.head = -1 := (h.chain.head_eq_slot_iff hmem).1 rfl
    refine addToWindowList_moveBack h hmem (Ne.symm hlast) ⟨rfl, ?_⟩ ?_ ?_ ?_ rfl
    · intro a ha
      simp only [List.mem_cons] at ha
      rcases ha with rfl | rfl | ha
      · exact .inr hnext
      · exact .inr hmem
      · exact .inl ha
    · intro x hx
      rw [hprev, if_neg hx]
    · intro x _
      rw [hprev]
      exact Function.update_apply _ _ _ _
    · rw [if_pos rfl]
  · intro hhead
    have hprev : s.links.prev winId ∈ l :=
      h.chain.prev_mem hmem fun heq => hhead ((h.chain.head_eq_slot_iff hmem).2 heq).symm
    simp only [wp_getNext hslot, wp_getPrev hslot, wp_setPrev (h.within _ hnext),
      wp_setNext (h.within _ hprev)]
    refine addToWindowList_moveBack h hmem (Ne.symm hlast) ⟨rfl, ?_⟩ ?_ ?_ ?_ rfl
    · intro a ha
      simp only [List.mem_cons] at ha
      rcases ha with rfl | rfl | rfl | rfl | ha
      · exact .inr hnext
      · exact .inr hprev
      · exact .inr hmem
      · exact .inr hmem
      · exact .inl ha
    · intro x _
      exact Function.update_apply _ _ _ _
    · intro x _
      exact Function.update_apply _ _ _ _
    · rw [if_neg (Ne.symm hhead)]

/-! ## Walking along the list -/

section Walk

variable {k : Links Int} {l₁ l₂ : List Int} {I : State → Prop} {step : Int → M Int} {n : Nat}

/-- The search visits the rest of the list, and finds the first window with the test. -/
theorem search_spec {test : Int → M Bool} {t : Int → Bool} (hchain : k.Chain (-1) (l₁ ++ l₂))
    (hstep : ∀ p ∈ l₁ ++ l₂, ∀ s, I s → wp (step p) (fun q s' => q = k.next p ∧ I s') Never s)
    (htest : ∀ p ∈ l₁ ++ l₂, ∀ s, I s → wp (test p) (fun b s' => b = t p ∧ I s') Never s)
    (hn : l₂.length < n) (hs : I s) :
    wp (search step test n (l₂.headD (-1)))
      (fun q s' => q = (l₂.find? t).getD (-1) ∧ I s') Never s := by
  induction l₂ generalizing l₁ n s with
  | nil =>
      obtain ⟨n, rfl⟩ : ∃ m, n = m + 1 := ⟨n - 1, by omega⟩
      simpa [search] using hs
  | cons p l₂ ih =>
      obtain ⟨n, rfl⟩ : ∃ m, n = m + 1 := ⟨n - 1, by omega⟩
      have hp : p ≠ -1 := hchain.ne (by simp)
      have hrest : k.Chain (-1) ((l₁ ++ [p]) ++ l₂) := by simpa using hchain
      rw [List.length_cons] at hn
      rw [List.headD_cons, search, if_neg hp, wp_bind]
      refine wp_imp (htest p (by simp) s hs) ?_
      rintro b s₁ ⟨rfl, hs₁⟩
      rw [List.find?_cons]
      cases ht : t p with
      | true => simpa using hs₁
      | false =>
          simp only [Bool.false_eq_true, if_false, wp_bind]
          refine wp_imp (hstep p (by simp) s₁ hs₁) ?_
          rintro q s₂ ⟨rfl, hs₂⟩
          rw [hchain.next_of_split.1]
          exact ih hrest (by simpa using hstep) (by simpa using htest) (by omega) hs₂

/-- What the body keeps for every window, the traversal keeps. -/
theorem traverse_spec {body : Int → M Unit} (hchain : k.Chain (-1) (l₁ ++ l₂))
    (hstep : ∀ p ∈ l₁ ++ l₂, ∀ s, I s → wp (step p) (fun q s' => q = k.next p ∧ I s') Never s)
    (hbody : ∀ p ∈ l₁ ++ l₂, ∀ s, I s → wp (body p) (fun _ s' => I s') Never s)
    (hn : l₂.length < n) (hs : I s) :
    wp (traverse step body n (l₂.headD (-1))) (fun _ s' => I s') Never s := by
  induction l₂ generalizing l₁ n s with
  | nil =>
      obtain ⟨n, rfl⟩ : ∃ m, n = m + 1 := ⟨n - 1, by omega⟩
      simpa [traverse] using hs
  | cons p l₂ ih =>
      obtain ⟨n, rfl⟩ : ∃ m, n = m + 1 := ⟨n - 1, by omega⟩
      have hp : p ≠ -1 := hchain.ne (by simp)
      have hrest : k.Chain (-1) ((l₁ ++ [p]) ++ l₂) := by simpa using hchain
      rw [List.length_cons] at hn
      rw [List.headD_cons, traverse, if_neg hp, wp_bind]
      refine wp_imp (hbody p (by simp) s hs) ?_
      intro _ s₁ hs₁
      rw [wp_bind]
      refine wp_imp (hstep p (by simp) s₁ hs₁) ?_
      rintro q s₂ ⟨rfl, hs₂⟩
      rw [hchain.next_of_split.1]
      exact ih hrest (by simpa using hstep) (by simpa using hbody) (by omega) hs₂

end Walk

/-! ## Messages stay among the windows -/

/-- The windows are those of `l`, and apart from the accesses `T` only they were touched. -/
structure Safe (l : List Int) (d : Int) (T : List Access) (s : State) : Prop where
  listed : ∃ l', l'.Perm l ∧ Lists s l'
  desktop : s.desktopId = d
  touched : ∀ a ∈ s.touched, a ∈ T ∨ a.index ∈ l

theorem Safe.slot (h : Safe l d T s) (hi : i ∈ l) : Slot MAX_WINDOW_CNT i := by
  obtain ⟨l', hperm, hlist⟩ := h.listed
  exact hlist.within i (hperm.mem_iff.2 hi)

theorem Safe.tail_mem (h : Safe l d T s) (hl : l ≠ []) : s.links.tail ∈ l := by
  obtain ⟨l', hperm, hlist⟩ := h.listed
  refine hperm.mem_iff.1 (hlist.chain.tail_mem fun heq => hl ?_)
  rw [hlist.chain.tail_eq_iff] at heq
  rw [heq] at hperm
  exact hperm.symm.eq_nil

/-- The links, the desktop and the record of accesses are all that counts. -/
theorem Safe.of_eq (h : Safe l d T s) (hlinks : s'.links = s.links)
    (hdesk : s'.desktopId = s.desktopId) (htouched : ∀ a ∈ s'.touched, a ∈ s.touched ∨
      a.index ∈ l) :
    Safe l d T s' := by
  refine ⟨?_, hdesk.trans h.desktop, fun a ha => ?_⟩
  · obtain ⟨l', hperm, hlist⟩ := h.listed
    exact ⟨l', hperm, by rwa [Lists, hlinks]⟩
  · rcases htouched a ha with ha | ha
    · exact h.touched a ha
    · exact .inr ha

/-- Other variables change. -/
theorem Safe.frame (h : Safe l d T s) (hlinks : s'.links = s.links)
    (hdesk : s'.desktopId = s.desktopId) (htouched : s'.touched = s.touched) : Safe l d T s' :=
  h.of_eq hlinks hdesk fun _ ha => .inl (htouched ▸ ha)

theorem Safe.touch {a : Access} (h : Safe l d T s) (ha : a.index ∈ l) :
    Safe l d T { s with touched := a :: s.touched } := by
  refine h.of_eq rfl rfl fun b hb => ?_
  rcases List.mem_cons.1 hb with rfl | hb
  · exact .inr ha
  · exact .inl hb

theorem Safe.relink (h : Safe l d T s) (hlist : ∃ l', l'.Perm l ∧ Lists s' l')
    (hre : Relinks (· ∈ l) s s') : Safe l d T s' := by
  refine ⟨hlist, ?_, fun a ha => ?_⟩
  · rw [hre.same]
    exact h.desktop
  · rcases hre.touched a ha with ha | ha
    · exact h.touched a ha
    · exact .inr ha

theorem focusWindow_safe (h : Safe l d T s) (hwin : winId = -1 ∨ winId ∈ l) :
    wp (focusWindow winId) (fun _ s' => Safe l d T s') Never s := by
  obtain ⟨l', hperm, hlist⟩ := h.listed
  refine wp_imp (focusWindow_spec hlist (hwin.imp_right hperm.mem_iff.2)) ?_
  rintro _ s' ⟨⟨l'', hperm', hlist'⟩, hre⟩
  refine h.relink ⟨l'', hperm'.trans hperm, hlist'⟩ ⟨hre.same, fun a ha => ?_⟩
  exact (hre.touched a ha).imp_right hperm.mem_iff.1

theorem setEntry_safe {f : Entry → Entry} (h : Safe l d T s) (hi : i ∈ l) :
    wp (setEntry i f) (fun _ s' => Safe l d T s' ∧ s'.links = s.links) Never s := by
  rw [wp_setEntry (h.slot hi)]
  exact ⟨(h.touch (a := .window i) hi).frame rfl rfl rfl, rfl⟩

theorem dispatchTo_safe (h : Safe l d T s) (hi : i ∈ l) :
    wp (dispatchTo i msg) (fun _ s' => Safe l d T s' ∧ s'.links = s.links) Never s :=
  setEntry_safe h hi

theorem dispatchTop_safe {t : Int} (h : Safe l d T s) (hl : l ≠ []) :
    wp (dispatchTop junk t) (fun _ s' => Safe l d T s') Never s := by
  have htail := h.tail_mem hl
  simp only [dispatchTop, wp_bind, wp_get, wp_getWnd (h.slot htail)]
  refine wp_imp (dispatchTo_safe (h.touch (a := .window _) htail) htail) ?_
  exact fun _ s' hs' => hs'.1

theorem moveFocusWindow_safe {dx dy : Int} (h : Safe l d T s) (hl : l ≠ []) :
    wp (moveFocusWindow dx dy) (fun _ s' => Safe l d T s') Never s := by
  have htail := h.tail_mem hl
  have htouch := h.touch (a := .window _) htail
  simp only [moveFocusWindow, wp_bind, wp_get, wp_getWnd (h.slot htail), wp_ite, wp_pure]
  exact ⟨fun _ => wp_imp (setEntry_safe htouch htail) fun _ s' hs' => hs'.1, fun _ => htouch⟩

/-! ### The dock -/

section Dock

variable {k : Links Int} {l₁ l₂ : List Int} {n : Nat} {c mouseX barWidth xStart : Int}

theorem getNext_safe (hs : s.links = k ∧ Safe l d T s) (hi : i ∈ l) :
    wp (getNext i) (fun q s' => q = k.next i ∧ s'.links = k ∧ Safe l d T s') Never s := by
  rw [wp_getNext (hs.2.slot hi)]
  exact ⟨by rw [hs.1], hs.1, hs.2.touch (a := .link i) hi⟩

theorem getWindowCount_safe (hchain : k.Chain (-1) (l₁ ++ l₂)) (hmem : ∀ p ∈ l₁ ++ l₂, p ∈ l)
    (hn : l₂.length < n) (hs : s.links = k ∧ Safe l d T s) :
    wp (getWindowCount n (l₂.headD (-1)) c) (fun _ s' => s'.links = k ∧ Safe l d T s') Never
      s := by
  induction l₂ generalizing l₁ n s c with
  | nil =>
      obtain ⟨n, rfl⟩ : ∃ m, n = m + 1 := ⟨n - 1, by omega⟩
      simpa [getWindowCount] using hs
  | cons p l₂ ih =>
      obtain ⟨n, rfl⟩ : ∃ m, n = m + 1 := ⟨n - 1, by omega⟩
      have hp : p ≠ -1 := hchain.ne (by simp)
      have hrest : k.Chain (-1) ((l₁ ++ [p]) ++ l₂) := by simpa using hchain
      rw [List.length_cons] at hn
      rw [List.headD_cons, getWindowCount, if_neg hp, wp_bind, wp_get, wp_bind]
      refine wp_imp (getNext_safe hs (hmem p (by simp))) ?_
      rintro q s₁ ⟨rfl, hs₁⟩
      rw [hchain.next_of_split.1]
      exact ih hrest (by simpa using hmem) (by omega) hs₁

theorem clickBar_safe (hchain : k.Chain (-1) (l₁ ++ l₂)) (hmem : ∀ p ∈ l₁ ++ l₂, p ∈ l)
    (hn : l₂.length < n) (hs : s.links = k ∧ Safe l d T s) :
    wp (clickBar junk mouseX barWidth n (l₂.headD (-1)) xStart) (fun _ s' => Safe l d T s') Never
      s := by
  induction l₂ generalizing l₁ n s xStart with
  | nil =>
      obtain ⟨n, rfl⟩ : ∃ m, n = m + 1 := ⟨n - 1, by omega⟩
      simpa [clickBar] using hs.2
  | cons p l₂ ih =>
      obtain ⟨n, rfl⟩ : ∃ m, n = m + 1 := ⟨n - 1, by omega⟩
      have hp : p ≠ -1 := hchain.ne (by simp)
      have hpl : p ∈ l := hmem p (by simp)
      have hrest : k.Chain (-1) ((l₁ ++ [p]) ++ l₂) := by simpa using hchain
      rw [List.length_cons] at hn
      -- Both ways on along the list are the same but for `xStart`.
      have hgo : ∀ x, wp (do let q ← getNext p; clickBar junk mouseX barWidth n q x)
          (fun _ s' => Safe l d T s') Never s := by
        intro x
        rw [wp_bind]
        refine wp_imp (getNext_safe hs hpl) ?_
        rintro q s₁ ⟨rfl, hs₁⟩
        rw [hchain.next_of_split.1]
        exact ih hrest (by simpa using hmem) (by omega) hs₁
      rw [List.headD_cons, clickBar, if_neg hp, wp_bind, wp_get]
      simp only [wp_ite]
      refine ⟨fun _ => ⟨fun _ => ?_, fun _ => hgo _⟩, fun _ => hgo _⟩
      have htouch := hs.2.touch (a := .window p) hpl
      simp only [wp_bind, wp_getWnd (hs.2.slot hpl), wp_ite]
      exact ⟨fun _ => wp_imp (dispatchTo_safe htouch hpl) fun _ s' hs' => hs'.1,
        fun _ => focusWindow_safe htouch (.inr hpl)⟩

theorem minimizeOther_safe (hs : s.links = k ∧ Safe l d T s) (hi : i ∈ l) :
    wp (minimizeOther junk i) (fun _ s' => s'.links = k ∧ Safe l d T s') Never s := by
  have htouch := hs.2.touch (a := .window i) hi
  simp only [minimizeOther, wp_bind, wp_get, wp_ite, wp_pure, wp_getWnd (hs.2.slot hi)]
  refine ⟨fun _ => ⟨fun _ => ?_, fun _ => ⟨hs.1, htouch⟩⟩, fun _ => hs⟩
  refine wp_imp (dispatchTo_safe htouch hi) ?_
  exact fun _ s' hs' => ⟨hs'.2.trans hs.1, hs'.1⟩

/-- The fuel is enough for any list. -/
theorem length_lt_of_lists (h : Lists s l) : l.length < MAX_WINDOW_CNT + 1 := by
  have hsub : l.Subperm (slots MAX_WINDOW_CNT) :=
    h.chain.nodup.subperm fun x hx => mem_slots.2 (h.within x hx)
  have := hsub.length_le
  rw [length_slots] at this
  omega

theorem Safe.length_lt (h : Safe l d T s) : l.length < MAX_WINDOW_CNT + 1 := by
  obtain ⟨l', hperm, hlist⟩ := h.listed
  rw [← hperm.length_eq]
  exact length_lt_of_lists hlist

theorem clickBars_safe (h : Safe l d T s) :
    wp (clickBars junk mouseX) (fun _ s' => Safe l d T s') Never s := by
  obtain ⟨l', hperm, hlist⟩ := h.listed
  have hmem : ∀ p ∈ [] ++ l', p ∈ l := fun p hp => hperm.mem_iff.1 hp
  have hlen : l'.length < MAX_WINDOW_CNT + 1 := by
    rw [hperm.length_eq]
    exact h.length_lt
  simp only [clickBars, wp_bind, wp_get, hlist.chain.head_eq]
  refine wp_imp (getWindowCount_safe hlist.chain hmem hlen ⟨rfl, h⟩) ?_
  intro w s₁ hs₁
  simp only [wp_ite, wp_pure]
  exact ⟨fun _ => clickBar_safe hlist.chain hmem hlen hs₁, fun _ => hs₁.2⟩

theorem clickShowDesktop_safe (h : Safe l d T s) :
    wp (clickShowDesktop junk mouseX) (fun _ s' => Safe l d T s') Never s := by
  obtain ⟨l', hperm, hlist⟩ := h.listed
  have hlen : l'.length < MAX_WINDOW_CNT + 1 := by
    rw [hperm.length_eq]
    exact h.length_lt
  simp only [clickShowDesktop, wp_bind, wp_get, wp_ite, wp_pure, hlist.chain.head_eq]
  refine ⟨fun _ => ?_, fun _ => h⟩
  have hchain : s.links.Chain (-1) ([] ++ l') := hlist.chain
  refine wp_imp (traverse_spec (I := fun s' => s'.links = s.links ∧ Safe l d T s') hchain ?_ ?_
    hlen ⟨rfl, h⟩) fun _ s' hs' => hs'.2
  · intro p hp s₁ hs₁
    exact getNext_safe hs₁ (hperm.mem_iff.1 hp)
  · intro p hp s₁ hs₁
    exact minimizeOther_safe hs₁ (hperm.mem_iff.1 hp)

theorem handleDesktopDockClick_safe (h : Safe l d T s) (hdesk : d ∈ l) :
    wp (handleDesktopDockClick junk mouseX msg) (fun _ s' => Safe l d T s') Never s := by
  rw [handleDesktopDockClick, wp_bind]
  refine wp_imp (clickBars_safe h) ?_
  intro _ s₁ h₁
  rw [wp_bind]
  refine wp_imp (clickShowDesktop_safe h₁) ?_
  intro _ s₂ h₂
  simp only [clickStart, wp_bind, wp_get, wp_ite, wp_pure]
  refine ⟨fun _ => ?_, fun _ => h₂⟩
  rw [h₂.desktop]
  exact wp_imp (dispatchTo_safe h₂ hdesk) fun _ s' hs' => hs'.1

end Dock

/-! ### Keyboard and mouse -/

/-- Entry `i` is linked to itself, as the entries of closed windows are. -/
def Free (s : State) (i : Int) : Prop := s.links.prev i = i ∧ s.links.next i = i

instance (s : State) (i : Int) : Decidable (Free s i) := inferInstanceAs (Decidable (_ ∧ _))

/-- The state a message needs: a window at the top of the list if the message goes there, and
a desktop that is open if the mouse is on no window. -/
def Ready (s : State) (msg : Message) : Prop :=
  if msg.msgType = M_MOUSE_MOVE then
    s.clickedOnTitle ∨ s.clickedOnContent → s.links.tail ≠ -1
  else if msg.msgType = M_MOUSE_DOWN then
    onPopup s = false → s.links.tail ≠ -1 ∧
      ((∀ p ∈ slots MAX_WINDOW_CNT, underMouse s p → Free s p) → ¬Free s s.desktopId)
  else if msg.msgType = M_MOUSE_LEFT_CLICK ∨ msg.msgType = M_MOUSE_RIGHT_CLICK ∨
      msg.msgType = M_MOUSE_DBCLICK then
    s.clickedOnContent → s.links.tail ≠ -1
  else if msg.msgType = M_MOUSE_UP then s.clickedOnContent → s.links.tail ≠ -1
  else if msg.msgType = M_KEY_DOWN ∨ msg.msgType = M_KEY_UP then s.links.tail ≠ -1
  else True

instance (s : State) (msg : Message) : Decidable (Ready s msg) :=
  inferInstanceAs (Decidable (ite _ _ _))

theorem Safe.free_of_notMem (h : Safe l d T s) (hi : Slot MAX_WINDOW_CNT i) (hmem : i ∉ l) :
    Free s i := by
  obtain ⟨l', hperm, hlist⟩ := h.listed
  exact (hlist.free_iff hi).2 fun hmem' => hmem (hperm.mem_iff.1 hmem')

theorem Safe.ne_nil (h : Safe l d T s) (htail : s.links.tail ≠ -1) : l ≠ [] := by
  obtain ⟨l', hperm, hlist⟩ := h.listed
  rintro rfl
  exact htail (hlist.chain.tail_eq_iff.2 hperm.eq_nil)

/-- Nothing but the record of accesses has changed since `s₀`. -/
structure Looks (l : List Int) (d : Int) (T : List Access) (s₀ s : State) : Prop where
  links : s.links = s₀.links
  safe : Safe l d T s
  under : ∀ p, underMouse s p = underMouse s₀ p

theorem isUnderMouse_safe (hs : Looks l d T s₀ s) (hi : i ∈ l) :
    wp (isUnderMouse i) (fun b s' => b = underMouse s₀ i ∧ Looks l d T s₀ s') Never s := by
  simp only [isUnderMouse, wp_bind, wp_get, wp_ite, wp_pure,
    wp_touch (a := .window i) (hs.safe.slot hi)]
  refine ⟨fun _ => ⟨hs.under i, hs.links, hs.safe.touch (a := .window i) hi, hs.under⟩,
    fun hdesk => ⟨?_, hs⟩⟩
  rw [← hs.under i]
  simp [underMouse, not_not.1 hdesk]

theorem focusUnderMouse_safe (h : Safe l d T s)
    (hdesk : (∀ p ∈ l, underMouse s p = false) → d = -1 ∨ d ∈ l) :
    wp focusUnderMouse (fun _ s' => Safe l d T s') Never s := by
  obtain ⟨l', hperm, hlist⟩ := h.listed
  have hmem : ∀ p ∈ [] ++ l'.reverse, p ∈ l := fun p hp => hperm.mem_iff.1 (List.mem_reverse.1 hp)
  have hlen : l'.reverse.length < MAX_WINDOW_CNT + 1 := by
    rw [List.length_reverse, hperm.length_eq]
    exact h.length_lt
  have htail : s.links.tail = l'.reverse.headD (-1) := hlist.chain.flip.head_eq
  simp only [focusUnderMouse, wp_bind, wp_get, htail]
  -- The windows from the top of the screen down are the list read backwards.
  have hchain : s.links.flip.Chain (-1) ([] ++ l'.reverse) := hlist.chain.flip
  refine wp_imp (search_spec (I := Looks l d T s) (t := underMouse s) hchain
    (fun p hp s₁ hs₁ => ?_) (fun p hp s₁ hs₁ => isUnderMouse_safe hs₁ (hmem p hp)) hlen
    ⟨rfl, h, fun _ => rfl⟩) ?_
  · rw [wp_getPrev (hs₁.safe.slot (hmem p hp))]
    refine ⟨?_, hs₁.links, hs₁.safe.touch (a := .link p) (hmem p hp), hs₁.under⟩
    rw [hs₁.links]
    rfl
  · rintro p s₁ ⟨rfl, hs₁⟩
    rw [wp_ite]
    cases hfind : l'.reverse.find? (underMouse s) with
    | none =>
        refine ⟨fun _ => ?_, fun hne => absurd rfl hne⟩
        rw [h.desktop]
        refine focusWindow_safe hs₁.safe (hdesk fun p hp => ?_)
        have := List.find?_eq_none.1 hfind p (List.mem_reverse.2 (hperm.mem_iff.2 hp))
        simpa using this
    | some p =>
        have hp : p ∈ l := hmem p (List.mem_of_find?_eq_some hfind)
        refine ⟨fun heq => ?_, fun _ => focusWindow_safe hs₁.safe (.inr hp)⟩
        exact absurd heq (hlist.chain.ne (hperm.mem_iff.2 hp))

theorem clickTitle_safe (h : Safe l d T s) (hl : l ≠ []) :
    wp (clickTitle junk) (fun _ s' => Safe l d T s') Never s := by
  have htail := h.tail_mem hl
  have htouch := h.touch (a := .window _) htail
  have hsend : ∀ m, wp (dispatchTo s.links.tail m) (fun _ s' => Safe l d T s') Never
      { s with touched := .window s.links.tail :: s.touched } :=
    fun m => wp_imp (dispatchTo_safe htouch htail) fun _ s' hs' => hs'.1
  simp only [clickTitle, wp_bind, wp_get, wp_getWnd (h.slot htail), wp_ite, wp_pure, wp_modify]
  refine ⟨fun _ => ⟨fun _ => hsend _, fun _ => ⟨fun _ => hsend _, fun _ => ?_⟩⟩, fun _ => htouch⟩
  exact htouch.frame rfl rfl rfl

theorem clickContent_safe {t : Int} (h : Safe l d T s) (hl : l ≠ []) :
    wp (clickContent junk t) (fun _ s' => Safe l d T s') Never s := by
  have htail := h.tail_mem hl
  have htouch := h.touch (a := .window _) htail
  simp only [clickContent, wp_bind, wp_get, wp_getWnd (h.slot htail), wp_ite, wp_pure, wp_modify]
  refine ⟨fun _ => ?_, fun _ => htouch⟩
  refine wp_imp (dispatchTo_safe (htouch.frame rfl rfl rfl) htail) ?_
  exact fun _ s' hs' => hs'.1

theorem mouseMove_safe (h : Safe l d T s)
    (hready : s.clickedOnTitle ∨ s.clickedOnContent → l ≠ []) :
    wp (mouseMove junk msg) (fun _ s' => Safe l d T s') Never s := by
  have hmoved : Safe l d T { s with lastMousePos := s.mousePos, mousePos := moveMouse s msg } :=
    h.frame rfl rfl rfl
  simp only [mouseMove, wp_bind, wp_get, wp_ite, wp_pure, wp_modify]
  exact ⟨fun hclick => moveFocusWindow_safe hmoved (hready (.inl hclick)),
    fun _ => ⟨fun hclick => dispatchTop_safe hmoved (hready (.inr hclick)), fun _ => hmoved⟩⟩

theorem mouseDown_safe (h : Safe l d T s) (hready : onPopup s = false →
      l ≠ [] ∧ ((∀ p ∈ l, underMouse s p = false) → d = -1 ∨ d ∈ l)) :
    wp (mouseDown junk msg) (fun _ s' => Safe l d T s') Never s := by
  simp only [mouseDown, wp_bind, wp_get, wp_ite, wp_modify, dispatchPopup]
  refine ⟨fun _ => h.frame rfl rfl rfl, fun hpop => ?_⟩
  obtain ⟨hl, hdesk⟩ := hready (by simpa using hpop)
  refine wp_imp (focusUnderMouse_safe (h.frame rfl rfl rfl) hdesk) ?_
  intro _ s₁ h₁
  refine wp_imp (clickTitle_safe h₁ hl) ?_
  intro _ s₂ h₂
  exact clickContent_safe h₂ hl

theorem mouseUp_safe (h : Safe l d T s) (hready : s.clickedOnContent → l ≠ []) :
    wp (mouseUp junk msg) (fun _ s' => Safe l d T s') Never s := by
  have hrelease : wp (releaseContent junk msg.msgType) (fun _ s' => Safe l d T s') Never
      { s with clickedOnPopup := false } := by
    simp only [releaseContent, wp_bind, wp_get, wp_ite, wp_pure, wp_modify]
    refine ⟨fun hclick => ?_, fun _ => h.frame rfl rfl rfl⟩
    exact dispatchTop_safe (h.frame rfl rfl rfl) (hready hclick)
  simp only [mouseUp, wp_bind, wp_modify]
  refine wp_imp hrelease ?_
  intro _ s₁ h₁
  exact h₁.frame rfl rfl rfl

/-- A click leaves `mouseUp` with a window at the top, if it goes there. -/
theorem mouseClick_safe (h : Safe l d T s) (hready : s.clickedOnContent → l ≠ []) :
    wp (mouseClick junk msg) (fun _ s' => Safe l d T s' ∧ (s'.clickedOnContent → l ≠ [])) Never
      s := by
  simp only [mouseClick, wp_bind, wp_get, wp_ite, wp_pure, wp_modify, dispatchPopup]
  refine ⟨fun _ => ⟨h.frame rfl rfl rfl, hready⟩, fun _ => ⟨fun hclick => ?_, fun _ => ⟨h, hready⟩⟩⟩
  have hl := hready hclick
  have hoff : Safe l d T { s with clickedOnContent := false } := h.frame rfl rfl rfl
  constructor
  · rintro ⟨hdock, -⟩
    have hdesk : d ∈ l := by
      rw [← h.desktop, ← hdock]
      exact h.tail_mem hl
    exact wp_imp (handleDesktopDockClick_safe hoff hdesk) fun _ s' hs' => ⟨hs', fun _ => hl⟩
  · intro _
    exact wp_imp (dispatchTop_safe hoff hl) fun _ s' hs' => ⟨hs', fun _ => hl⟩

/-- A message that finds the state it needs is handled within the list. -/
theorem wmHandleMessage_safe (h : Safe l d T s) (hd : l ≠ [] → Slot MAX_WINDOW_CNT d)
    (hready : Ready s msg) : wp (wmHandleMessage junk msg) (fun _ s' => Safe l d T s') Never s := by
  have htail := h.ne_nil
  rw [Ready] at hready
  rw [wmHandleMessage]
  by_cases hmove : msg.msgType = M_MOUSE_MOVE
  · rw [if_pos hmove] at hready ⊢
    exact mouseMove_safe h fun hclick => htail (hready hclick)
  rw [if_neg hmove] at hready ⊢
  by_cases hdown : msg.msgType = M_MOUSE_DOWN
  · rw [if_pos hdown] at hready ⊢
    refine mouseDown_safe h fun hpop => ?_
    obtain ⟨hne, hdesk⟩ := hready hpop
    refine ⟨htail hne, fun hmiss => .inr ?_⟩
    rw [← h.desktop] at hd ⊢
    have hslot := hd (htail hne)
    by_contra hclosed
    refine hdesk (fun p hp hunder => ?_) (h.free_of_notMem hslot hclosed)
    refine h.free_of_notMem (mem_slots.1 hp) fun hmem => ?_
    rw [hmiss p hmem] at hunder
    cases hunder
  rw [if_neg hdown] at hready ⊢
  by_cases hclick : msg.msgType = M_MOUSE_LEFT_CLICK ∨ msg.msgType = M_MOUSE_RIGHT_CLICK ∨
      msg.msgType = M_MOUSE_DBCLICK
  · rw [if_pos hclick] at hready ⊢
    rw [wp_bind]
    refine wp_imp (mouseClick_safe h fun hc => htail (hready hc)) ?_
    rintro _ s₁ ⟨h₁, hc₁⟩
    exact mouseUp_safe h₁ hc₁
  rw [if_neg hclick] at hready ⊢
  by_cases hup : msg.msgType = M_MOUSE_UP
  · rw [if_pos hup] at hready ⊢
    exact mouseUp_safe h fun hc => htail (hready hc)
  rw [if_neg hup] at hready ⊢
  by_cases hkey : msg.msgType = M_KEY_DOWN ∨ msg.msgType = M_KEY_UP
  · rw [if_pos hkey] at hready ⊢
    rw [wp_bind, wp_get]
    exact wp_imp (dispatchTo_safe h (h.tail_mem (htail hready))) fun _ s' hs' => hs'.1
  · rw [if_neg hkey]
    exact (wp_pure ()).2 h

/-! ## Calls -/

theorem bypassNext_spec {P : Int → Prop} (hidx : Slot MAX_WINDOW_CNT idx) (hP : P idx)
    (hprev : s.links.prev idx ≠ -1 → Slot MAX_WINDOW_CNT (s.links.prev idx) ∧
      P (s.links.prev idx)) :
    wp (bypassNext idx) (fun _ s' => s'.links = s.links.bypassNext idx ∧ Relinks P s s') Never
      s := by
  simp only [bypassNext, wp_bind, wp_getPrev hidx, wp_ite, wp_getNext hidx, wp_pure,
    Links.bypassNext]
  constructor
  · intro hne
    obtain ⟨hslot, hPp⟩ := hprev hne
    rw [wp_setNext hslot, if_pos hne]
    refine ⟨rfl, rfl, fun a ha => ?_⟩
    simp only [List.mem_cons] at ha
    rcases ha with rfl | rfl | rfl | ha
    · exact .inr hPp
    · exact .inr hP
    · exact .inr hP
    · exact .inl ha
  · intro heq
    rw [if_neg heq]
    refine ⟨rfl, rfl, fun a ha => ?_⟩
    rcases List.mem_cons.1 ha with rfl | ha
    · exact .inr hP
    · exact .inl ha

theorem bypassPrev_spec {P : Int → Prop} (hidx : Slot MAX_WINDOW_CNT idx) (hP : P idx)
    (hnext : s.links.next idx ≠ -1 → Slot MAX_WINDOW_CNT (s.links.next idx) ∧
      P (s.links.next idx)) :
    wp (bypassPrev idx) (fun _ s' => s'.links = s.links.bypassPrev idx ∧ Relinks P s s') Never
      s := by
  simp only [bypassPrev, wp_bind, wp_getPrev hidx, wp_ite, wp_getNext hidx, wp_pure,
    Links.bypassPrev]
  constructor
  · intro hne
    obtain ⟨hslot, hPn⟩ := hnext hne
    rw [wp_setPrev hslot, if_pos hne]
    refine ⟨rfl, rfl, fun a ha => ?_⟩
    simp only [List.mem_cons] at ha
    rcases ha with rfl | rfl | rfl | ha
    · exact .inr hPn
    · exact .inr hP
    · exact .inr hP
    · exact .inl ha
  · intro heq
    rw [if_neg heq]
    refine ⟨rfl, rfl, fun a ha => ?_⟩
    rcases List.mem_cons.1 ha with rfl | ha
    · exact .inr hP
    · exact .inl ha

theorem leaveTail_spec {P : Int → Prop} (hidx : Slot MAX_WINDOW_CNT idx) (hP : P idx) :
    wp (leaveTail idx) (fun _ s' => s'.links = { s.links with
      tail := if s.links.tail = idx then s.links.prev idx else s.links.tail } ∧ Relinks P s s')
      Never s := by
  simp only [leaveTail, wp_bind, wp_get, wp_ite, wp_pure]
  constructor
  · intro heq
    rw [heq]
    simp only [wp_getPrev hidx, setTail, wp_modify, if_true]
    refine ⟨trivial, rfl, fun a ha => ?_⟩
    rcases List.mem_cons.1 ha with rfl | ha
    · exact .inr hP
    · exact .inl ha
  · intro hne
    rw [if_neg hne]
    exact ⟨rfl, rfl, fun a ha => .inl ha⟩

theorem removeFromWindowList_spec (h : Lists s l) (hmem : idx ∈ l) :
    wp (removeFromWindowList idx) (fun _ s' => s'.links = Links.unlink { s.links with
      tail := if s.links.tail = idx then s.links.prev idx else s.links.tail } idx ∧
        Relinks (· ∈ l) s s') Never s := by
  have hslot := h.within _ hmem
  have hself : s.links.prev idx ≠ idx := h.chain.prev_ne hmem
  simp only [removeFromWindowList, wp_bind]
  refine wp_imp (leaveTail_spec hslot hmem) ?_
  rintro _ s₁ ⟨hlinks₁, hre₁⟩
  refine wp_imp (bypassNext_spec hslot hmem fun hne => ?_) ?_
  · rw [hlinks₁] at hne ⊢
    exact ⟨h.within _ (h.chain.prev_mem hmem hne), h.chain.prev_mem hmem hne⟩
  rintro _ s₂ ⟨hlinks₂, hre₂⟩
  refine wp_imp (bypassPrev_spec hslot hmem fun hne => ?_) ?_
  · have hstay : s₂.links.next idx = s.links.next idx := by
      rw [hlinks₂, Links.bypassNext_next_self (by rw [hlinks₁]; exact hself), hlinks₁]
    rw [hstay] at hne ⊢
    exact ⟨h.within _ (h.chain.next_mem hmem hne), h.chain.next_mem hmem hne⟩
  rintro _ s₃ ⟨hlinks₃, hre₃⟩
  refine ⟨?_, (hre₁.trans hre₂).trans hre₃⟩
  rw [hlinks₃, hlinks₂, hlinks₁]
  rfl

/-- With every entry in use nothing happens. -/
theorem createWindow_full {win : UserWindow} {title : List UInt8} {proc : Nat} (h : Lists s l)
    (hlen : l.length = MAX_WINDOW_CNT) :
    wp (createWindow win title proc) (fun r s' => r = (1, win.handler) ∧ s' = s) Never s := by
  have hfull : findNextAvailableWindowId s = -1 := h.findSelf_eq_iff.2 hlen
  simp [createWindow, hfull]

/-- A new window is the last one of the list, and the desktop if it is the first ever. -/
theorem createWindow_spec {win : UserWindow} {title : List UInt8} {proc : Nat} (h : Lists s l)
    (hlen : l.length ≠ MAX_WINDOW_CNT) :
    wp (createWindow win title proc) (fun r s' => r.1 = 0 ∧ Slot MAX_WINDOW_CNT r.2 ∧ r.2 ∉ l ∧
      Lists s' (l ++ [r.2]) ∧ s'.desktopId = if s.desktopId = -1 then r.2 else s.desktopId)
      Never s := by
  have hne : findNextAvailableWindowId s ≠ -1 := fun heq => hlen (h.findSelf_eq_iff.1 heq)
  have hslot : Slot MAX_WINDOW_CNT (findNextAvailableWindowId s) := (h.findSelf_spec hne).1
  have hmem : findNextAvailableWindowId s ∉ l := (h.findSelf_spec hne).2
  have hempty : s.links.head = -1 ↔ s.links.tail = -1 :=
    h.chain.head_eq_iff.trans h.chain.tail_eq_iff.symm
  have hstart : wp (startList (findNextAvailableWindowId s)) (fun _ s' => s' = { s with
      links.head := if s.links.tail = -1 then findNextAvailableWindowId s else s.links.head }) Never
      s := by
    simp only [startList, wp_bind, wp_get, wp_ite, wp_pure, setHead, wp_modify, ← hempty]
    exact ⟨fun heq => by rw [if_pos heq], fun heq => by rw [if_neg heq]⟩
  simp only [createWindow, wp_bind, wp_get, wp_ite, wp_pure]
  refine ⟨fun heq => absurd heq hne, fun _ => wp_imp hstart ?_⟩
  rintro _ s₁ rfl
  refine wp_imp (addToWindowList_spec (P := fun _ => True) hslot trivial fun htail =>
    ⟨h.within _ (h.chain.tail_mem htail), trivial⟩) ?_
  rintro _ s₂ ⟨hlinks, hre⟩
  have hdesk : s₂.desktopId = s.desktopId := by rw [hre.same]
  have hlist : Lists s₂ (l ++ [findNextAvailableWindowId s]) := by
    rw [Lists, hlinks, Links.addTail_setHead]
    exact h.addTail hslot hmem rfl
  simp only [setDesktop, wp_bind, wp_get, wp_ite, wp_pure, wp_modify, wp_setEntry hslot, hdesk]
  constructor
  · intro hfirst
    exact ⟨trivial, hslot, hmem, hlist, by rw [if_pos hfirst]⟩
  · intro hlater
    exact ⟨trivial, hslot, hmem, hlist, by rw [if_neg hlater]⟩

theorem closeWindow_spec (h : Lists s l) (hmem : winId ∈ l) (hhead : s.links.head ≠ winId) :
    wp (closeWindow winId) (fun _ s' => Lists s' (l.erase winId) ∧ s'.desktopId = s.desktopId)
      Never s := by
  have hslot := h.within _ hmem
  have hself : s.links.prev winId ≠ winId := h.chain.prev_ne hmem
  simp only [closeWindow, wp_bind]
  refine wp_imp (removeFromWindowList_spec h hmem) ?_
  rintro _ s₁ ⟨hlinks, hre⟩
  have htail : winId ≠ s₁.links.tail := by
    rw [hlinks, Links.unlink_tail]
    split_ifs with heq
    · exact hself.symm
    · exact Ne.symm heq
  simp only [wp_setPrev hslot, wp_setNext hslot, wp_setEntry hslot, wp_get, wp_ite, htail,
    false_imp_iff, true_and, not_false_eq_true, true_imp_iff, wp_pure]
  refine ⟨?_, ?_⟩
  · apply h.unlink hmem
    · intro x hx
      simp only [Function.update_apply, hlinks, Links.unlink_next hx]
    · intro x hx
      simp only [Function.update_apply, hlinks]
      rw [Links.unlink_prev hx]
      exact hself
    · simp only [hlinks, Links.unlink_head, if_neg hhead]
    · simp only [hlinks, Links.unlink_tail]
  · rw [hre.same]

/-- Closing a window that is not there changes nothing of the list. -/
theorem closeWindow_free (h : Lists s l) (hmem : winId ∉ l) :
    wp (closeWindow winId) (fun _ s' => Lists s' l ∧ s'.desktopId = s.desktopId)
      (fun _ _ => True) s := by
  by_cases hslot : Slot MAX_WINDOW_CNT winId
  · obtain ⟨hprev, hnext⟩ := (h.free_iff hslot).2 hmem
    have hne : winId ≠ -1 := by
      rintro rfl
      exact absurd hslot.1 (by decide)
    have htail : s.links.tail ≠ winId := by
      rintro rfl
      exact hmem (h.chain.tail_mem hne)
    have hprevs : Function.update s.links.prev winId winId = s.links.prev := by
      rw [Function.update_eq_self_iff, hprev]
    have hnexts : Function.update s.links.next winId winId = s.links.next := by
      rw [Function.update_eq_self_iff, hnext]
    simpa [closeWindow, removeFromWindowList, leaveTail, bypassNext, bypassPrev,
      wp_getPrev hslot, wp_getNext hslot, wp_setPrev hslot, wp_setNext hslot, wp_setEntry hslot,
      htail, htail.symm, hprev, hnext, hne, hprevs, hnexts] using h
  · have hstop : ∀ Q t, wp (getPrev winId) Q (fun _ _ => True) t := by
      intro Q t
      have hindex : ¬Slot MAX_WINDOW_CNT (Access.link winId).index := hslot
      simp [getPrev, touch, hindex]
    have hleave : wp (leaveTail winId) (fun _ _ => True) (fun _ _ => True) s := by
      simp only [leaveTail, wp_bind, wp_get, wp_ite, wp_pure]
      exact ⟨fun heq => by rw [heq]; exact hstop _ _, fun _ => trivial⟩
    simp only [closeWindow, removeFromWindowList, bypassNext, wp_bind]
    exact wp_mono hleave (fun _ t _ => hstop _ t) fun _ _ _ => trivial

theorem minimizeWindow_safe (h : Safe l d T s) (hmem : winId ∈ l) :
    wp (minimizeWindow winId) (fun _ s' => Safe l d T s') Never s := by
  simp only [minimizeWindow, wp_bind]
  refine wp_imp (setEntry_safe h hmem) ?_
  rintro _ s₁ ⟨h₁, -⟩
  simp only [wp_bind, wp_get, wp_ite, wp_pure, wp_getPrev (h₁.slot hmem)]
  refine ⟨fun _ => ?_, fun _ => h₁⟩
  obtain ⟨l', hperm, hlist⟩ := h₁.listed
  refine focusWindow_safe (h₁.touch (a := .link winId) hmem) ?_
  by_cases hprev : s₁.links.prev winId = -1
  · exact .inl hprev
  · exact .inr (hperm.mem_iff.1 (hlist.chain.prev_mem (hperm.mem_iff.2 hmem) hprev))

theorem maximizeWindow_safe (h : Safe l d T s) (hmem : winId ∈ l) :
    wp (maximizeWindow winId) (fun _ s' => Safe l d T s') Never s := by
  rw [maximizeWindow, wp_bind]
  refine wp_imp (setEntry_safe h hmem) ?_
  rintro _ s₁ ⟨h₁, -⟩
  exact focusWindow_safe h₁ (.inr hmem)

/-! ## Any sequence of calls and messages -/

/-- A call of a program, or a message from keyboard or mouse. -/
inductive Act where
  | create (win : UserWindow) (title : List UInt8) (proc : Nat)
  | close (handler : Int)
  | minimize (handler : Int)
  | maximize (handler : Int)
  | message (junk msg : Message)

/-- The window manager, and the windows created and not closed. -/
structure Session where
  wm : State
  live : List Int

/-- The session after `m`, if it comes to an end. -/
def finish {α : Type} (s : Session) (m : M α) (live : α → List Int) : Option Session :=
  match m.run s.wm with
  | .ok a wm => some ⟨wm, live a⟩
  | .fail _ _ => none

/-- The handle that an act is given is that of a live window. -/
def Handles (s : Session) : Act → Prop
  | .create _ _ _ => True
  | .close handler | .minimize handler | .maximize handler => handler ∈ s.live
  | .message _ _ => True

instance : ∀ (s : Session) (a : Act), Decidable (Handles s a)
  | _, .create _ _ _ => inferInstanceAs (Decidable True)
  | _, .close _ | _, .minimize _ | _, .maximize _ => inferInstanceAs (Decidable (_ ∈ _))
  | _, .message _ _ => inferInstanceAs (Decidable True)

/-- The code that an act runs. -/
def perform (s : Session) : Act → Option Session
  | .create win title proc =>
      finish s (createWindow win title proc) fun r => if r.1 = 0 then r.2 :: s.live else s.live
  | .close handler => finish s (closeWindow handler) fun _ => s.live.erase handler
  | .minimize handler => finish s (minimizeWindow handler) fun _ => s.live
  | .maximize handler => finish s (maximizeWindow handler) fun _ => s.live
  | .message junk msg => finish s (wmHandleMessage junk msg) fun _ => s.live

/-- An act on a live handle. -/
def act (s : Session) (a : Act) : Option Session := if Handles s a then perform s a else none

/-- The first window of the list is not closed, and messages find the state they need. -/
def Sound (s : Session) : Act → Prop
  | .create _ _ _ | .minimize _ | .maximize _ => True
  | .close handler => s.wm.links.head ≠ handler
  | .message _ msg => Ready s.wm msg

instance : ∀ (s : Session) (a : Act), Decidable (Sound s a)
  | _, .create _ _ _ | _, .minimize _ | _, .maximize _ => inferInstanceAs (Decidable True)
  | _, .close _ => inferInstanceAs (Decidable (_ ≠ _))
  | s, .message _ msg => inferInstanceAs (Decidable (Ready s.wm msg))

/-- After `wmInit`, which runs once, before any window. -/
def boot (wm : State) : Session := ⟨wmInit { wm with desktopId := -1 }, []⟩

/-- What every act keeps: the list is that of the live windows, and the desktop is known as
soon as there are any. -/
structure Inv (s : Session) : Prop where
  listed : ∃ l, l.Perm s.live ∧ Lists s.wm l
  desktop : s.wm.desktopId ≠ -1 → Slot MAX_WINDOW_CNT s.wm.desktopId
  first : s.wm.desktopId = -1 → s.live = []

theorem boot_inv (wm : State) : Inv (boot wm) := by
  refine ⟨⟨[], .refl [], .nil rfl rfl, fun x hx => absurd hx List.not_mem_nil, fun x hx _ => ?_⟩,
    fun hne => absurd rfl hne, fun _ => rfl⟩
  simp [boot, wmInit, hx]

theorem Inv.safe {s : Session} (h : Inv s) : Safe s.live s.wm.desktopId s.wm.touched s.wm :=
  ⟨h.listed, rfl, fun _ ha => .inl ha⟩

/-- An act that stays within the windows keeps them. -/
theorem Inv.of_safe {s : Session} (h : Inv s) {wm : State}
    (hsafe : Safe s.live s.wm.desktopId s.wm.touched wm) : Inv ⟨wm, s.live⟩ where
  listed := hsafe.listed
  desktop hne := by
    rw [hsafe.desktop] at hne ⊢
    exact h.desktop hne
  first heq := h.first (hsafe.desktop.symm.trans heq)

theorem Inv.slot {s : Session} (h : Inv s) (hne : s.live ≠ []) :
    Slot MAX_WINDOW_CNT s.wm.desktopId := h.desktop fun heq => hne (h.first heq)

/-- From a specification to the session it leads to. -/
theorem finish_spec {α : Type} {s : Session} {m : M α} {live : α → List Int} {P : Session → Prop}
    (h : wp m (fun a wm => P ⟨wm, live a⟩) Never s.wm) : ∃ t, finish s m live = some t ∧ P t := by
  rw [finish]
  cases hrun : m.run s.wm with
  | ok a wm => exact ⟨_, rfl, ok_of_wp h hrun⟩
  | fail e wm => exact absurd (fail_of_wp h hrun) id

/-- An act on a live handle that meets the condition comes to an end and keeps the list. -/
theorem act_inv {s : Session} {a : Act} (h : Inv s) (hhandle : Handles s a) (hsound : Sound s a) :
    ∃ t, act s a = some t ∧ Inv t := by
  obtain ⟨l, hperm, hlist⟩ := h.listed
  rw [act, if_pos hhandle]
  cases a with
  | create win title proc =>
      apply finish_spec
      by_cases hlen : l.length = MAX_WINDOW_CNT
      · refine wp_imp (createWindow_full hlist hlen) ?_
        rintro r wm ⟨rfl, rfl⟩
        exact h
      · refine wp_imp (createWindow_spec hlist hlen) ?_
        rintro r wm ⟨hr, hslot, hmem, hlist', hdesk⟩
        have hdesk' : Slot MAX_WINDOW_CNT wm.desktopId := by
          rw [hdesk]
          split_ifs with hfirst
          · exact hslot
          · exact h.desktop hfirst
        rw [if_pos hr]
        refine ⟨⟨_, ?_, hlist'⟩, fun _ => hdesk', fun heq => ?_⟩
        · exact (List.perm_append_singleton _ _).trans (hperm.cons _)
        · rw [show wm.desktopId = -1 from heq] at hdesk'
          exact absurd hdesk'.1 (by decide)
  | close handler =>
      apply finish_spec
      refine wp_imp (closeWindow_spec hlist (hperm.mem_iff.2 hhandle) hsound) ?_
      rintro _ wm ⟨hlist', hdesk⟩
      refine ⟨⟨_, hperm.erase handler, hlist'⟩, fun hne => ?_, fun heq => ?_⟩
      · rw [show wm.desktopId = _ from hdesk] at hne ⊢
        exact h.desktop hne
      · have hnil := h.first (hdesk.symm.trans heq)
        rw [Handles, hnil] at hhandle
        exact absurd hhandle List.not_mem_nil
  | minimize handler =>
      apply finish_spec
      exact wp_imp (minimizeWindow_safe h.safe hhandle) fun _ wm hsafe => h.of_safe hsafe
  | maximize handler =>
      apply finish_spec
      exact wp_imp (maximizeWindow_safe h.safe hhandle) fun _ wm hsafe => h.of_safe hsafe
  | message junk msg =>
      apply finish_spec
      exact wp_imp (wmHandleMessage_safe h.safe h.slot hsound) fun _ wm hsafe => h.of_safe hsafe

theorem inv_of_run {wm : State} {s : Session} (h : Reaches act Sound (boot wm) s) : Inv s := by
  refine h.inv (fun s a t hs hsound hact => ?_) (boot_inv wm)
  have hhandle : Handles s a := by
    by_contra hnot
    rw [act, if_neg hnot] at hact
    cases hact
  obtain ⟨t', ht', hinv⟩ := act_inv hs hhandle hsound
  rw [hact, Option.some.injEq] at ht'
  rw [ht']
  exact hinv

/-- What the list of windows is: the live windows, linked in both directions, with every
other entry linked to itself, so that walks along it end and free entries are found. -/
structure WindowList (s : Session) : Prop where
  listed : ∃ l, l.Perm s.live ∧ l.Nodup ∧ Lists s.wm l ∧
    Links.walk s.wm.links.next (-1) (MAX_WINDOW_CNT + 1) s.wm.links.head = some l ∧
    Links.walk s.wm.links.prev (-1) (MAX_WINDOW_CNT + 1) s.wm.links.tail = some l.reverse
  find : findNextAvailableWindowId s.wm ≠ -1 ↔ s.live.length < MAX_WINDOW_CNT
  found : findNextAvailableWindowId s.wm ≠ -1 →
    Slot MAX_WINDOW_CNT (findNextAvailableWindowId s.wm) ∧
      findNextAvailableWindowId s.wm ∉ s.live
  ends : ∀ a, Handles s a → Sound s a → ∃ t, act s a = some t

theorem Inv.windowList {s : Session} (h : Inv s) : WindowList s := by
  obtain ⟨l, hperm, hlist⟩ := h.listed
  have hlen := h.safe.length_lt
  rw [← hperm.length_eq] at hlen
  refine ⟨⟨l, hperm, hlist.chain.nodup, hlist, hlist.chain.walk_next hlen,
    hlist.chain.walk_prev hlen⟩, ?_, fun hne => ?_, fun a hhandle hsound => ?_⟩
  · rw [findNextAvailableWindowId, ne_eq, hlist.findSelf_eq_iff, ← hperm.length_eq]
    omega
  · obtain ⟨hslot, hmem⟩ := hlist.findSelf_spec hne
    exact ⟨hslot, fun hlive => hmem (hperm.mem_iff.2 hlive)⟩
  · obtain ⟨t, ht, -⟩ := act_inv h hhandle hsound
    exact ⟨t, ht⟩

/-- In every run that meets the conditions the list is the live windows, and no act that meets
them loops or leaves the array. -/
theorem windowList_of_run (wm : State) {s : Session} (h : Reaches act Sound (boot wm) s) :
    WindowList s := (inv_of_run h).windowList

/-- A message without parameters. -/
def noMessage : Message := ⟨0, fun _ => 0⟩

/-- A window that nothing was written to. -/
def noWindow : KernelWindow := ⟨⟨0, 0, 0, 0⟩, 0, ⟨fun _ => noMessage, 0, 0, 0⟩, [], 0, 0⟩

/-- The variables of the window manager at boot, on a screen of 1024 by 768 points. -/
def cleared : State where
  windowlist := fun _ => ⟨none, noWindow⟩
  links := ⟨fun _ => 0, fun _ => 0, 0, 0⟩
  desktopId := -1
  popupwindow := ⟨none, noWindow, 0⟩
  clickedOnTitle := false
  clickedOnContent := false
  clickedOnPopup := false
  mousePos := ⟨0, 0⟩
  lastMousePos := ⟨0, 0⟩
  screenWidth := 1024
  screenHeight := 768
  touched := []

/-- A window in the middle of the screen. -/
def centred (width height : Int) : UserWindow := ⟨⟨-1, 0, 0, 0⟩, 1, 0, width, height, 0⟩

/-- The desktop and two windows are created, the mouse is pressed on the upper one, the middle
one is brought to the top, and the other one is closed. -/
theorem windowList_run : ∃ s, Reaches act Sound (boot cleared) s ∧ s.live = [1, 0] ∧
    WindowList s := by
  have hrun : (runActs act Sound [.create (centred 1024 768) [] 1, .create (centred 300 200) [] 2,
      .create (centred 100 100) [] 3, .message noMessage (noMessage.ofType M_MOUSE_DOWN),
      .maximize 1, .close 2] (boot cleared)).map Session.live = some [1, 0] := by decide +kernel
  obtain ⟨s, hs, hlive⟩ := Option.map_eq_some_iff.1 hrun
  exact ⟨s, .of_runActs _ hs, hlive, windowList_of_run cleared (.of_runActs _ hs)⟩

/-- Two windows are created and the first is closed: `windowlisthead` is the entry of the
closed one, which is linked to itself. -/
theorem closeWindow_loses_list :
    ∃ s, Reaches act (fun _ _ => True) (boot cleared) s ∧ ¬WindowList s := by
  have hrun : (runActs act (fun _ _ => True) [.create (centred 1024 768) [] 1,
      .create (centred 300 200) [] 2, .close 0] (boot cleared)).map (fun s =>
        Links.walk s.wm.links.next (-1) (MAX_WINDOW_CNT + 1) s.wm.links.head) = some none := by
    decide +kernel
  obtain ⟨s, hs, hwalk⟩ := Option.map_eq_some_iff.1 hrun
  refine ⟨s, .of_runActs _ hs, fun hlist => ?_⟩
  obtain ⟨l, -, -, -, hforward, -⟩ := hlist.listed
  rw [hwalk] at hforward
  cases hforward

end Xv6.Kernel.Wm
