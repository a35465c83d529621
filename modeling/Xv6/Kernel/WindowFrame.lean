import Xv6.Kernel.WindowManager

/-!
# What the list of windows leaves alone

Adding an entry to the list, removing one and moving one to its end use `next` and `prev` of the
entries and nothing else of them.

* `createWindow_entry`: the entry that `create_window` fills, and that it is the only one.
-/

namespace Xv6.Kernel.Wm

open Xv6.Verified
open Exec

/-- Only the list changes. -/
structure LinksOnly (s s' : State) : Prop where
  windowlist : s'.windowlist = s.windowlist
  popup : s'.popupwindow = s.popupwindow
  screen : s'.screenWidth = s.screenWidth ∧ s'.screenHeight = s.screenHeight
  touched : ∀ i, .window i ∈ s'.touched ↔ .window i ∈ s.touched

theorem LinksOnly.refl (s : State) : LinksOnly s s := ⟨rfl, rfl, ⟨rfl, rfl⟩, fun _ => Iff.rfl⟩

instance : IsPreorder State LinksOnly where
  refl := .refl
  trans _ _ _ h h' := ⟨h'.windowlist.trans h.windowlist, h'.popup.trans h.popup,
    ⟨h'.screen.1.trans h.screen.1, h'.screen.2.trans h.screen.2⟩,
    fun i => (h'.touched i).trans (h.touched i)⟩

theorem touch_linksOnly (i : Int) : Preserves LinksOnly (touch (.link i)) :=
  .ite (.modify fun s => { LinksOnly.refl s with touched := by simp }) (.stop _)

theorem getNext_linksOnly (i : Int) : Preserves LinksOnly (getNext i) :=
  .bind (touch_linksOnly i) fun _ => .bind .get fun _ => .pure _

theorem getPrev_linksOnly (i : Int) : Preserves LinksOnly (getPrev i) :=
  .bind (touch_linksOnly i) fun _ => .bind .get fun _ => .pure _

theorem setNext_linksOnly (i v : Int) : Preserves LinksOnly (setNext i v) :=
  .bind (touch_linksOnly i) fun _ => .modify fun s => { LinksOnly.refl s with }

theorem setPrev_linksOnly (i v : Int) : Preserves LinksOnly (setPrev i v) :=
  .bind (touch_linksOnly i) fun _ => .modify fun s => { LinksOnly.refl s with }

theorem setHead_linksOnly (v : Int) : Preserves LinksOnly (setHead v) :=
  .modify fun s => { LinksOnly.refl s with }

theorem setTail_linksOnly (v : Int) : Preserves LinksOnly (setTail v) :=
  .modify fun s => { LinksOnly.refl s with }

theorem startList_linksOnly (i : Int) : Preserves LinksOnly (startList i) :=
  .bind .get fun _ => .ite (setHead_linksOnly i) (.pure ())

theorem setDesktop_linksOnly (i : Int) : Preserves LinksOnly (setDesktop i) :=
  .bind .get fun _ => .ite (.modify fun s => { LinksOnly.refl s with }) (.pure ())

theorem addToWindowList_linksOnly (i : Int) : Preserves LinksOnly (addToWindowList i) := by
  refine .bind .get fun s => .bind (setPrev_linksOnly _ _) fun _ =>
    .bind (setNext_linksOnly _ _) fun _ => .bind .get fun s => .ite ?_ (setTail_linksOnly _)
  exact .bind (setNext_linksOnly _ _) fun _ => setTail_linksOnly _

theorem focusWindow_linksOnly (i : Int) : Preserves LinksOnly (focusWindow i) := by
  refine .bind .get fun s => .ite (.pure ()) (.ite ?_ ?_)
  · exact .bind (getNext_linksOnly _) fun _ => .bind (setPrev_linksOnly _ _) fun _ =>
      .bind (setHead_linksOnly _) fun _ => addToWindowList_linksOnly _
  · exact .bind (getPrev_linksOnly _) fun _ => .bind (getNext_linksOnly _) fun _ =>
      .bind (setNext_linksOnly _ _) fun _ => .bind (setPrev_linksOnly _ _) fun _ =>
        addToWindowList_linksOnly _

theorem removeFromWindowList_linksOnly (i : Int) :
    Preserves LinksOnly (removeFromWindowList i) := by
  refine .bind ?_ fun _ => .bind ?_ fun _ => ?_
  · exact .bind .get fun _ =>
      .ite (.bind (getPrev_linksOnly _) fun _ => setTail_linksOnly _) (.pure ())
  · exact .bind (getPrev_linksOnly _) fun _ =>
      .ite (.bind (getNext_linksOnly _) fun _ => setNext_linksOnly _ _) (.pure ())
  · exact .bind (getNext_linksOnly _) fun _ =>
      .ite (.bind (getPrev_linksOnly _) fun _ => setPrev_linksOnly _ _) (.pure ())

/-- What `create_window` fills in. -/
def newEntry (s : State) (win : UserWindow) (title : List UInt8) (proc : Nat) (w : Entry) : Entry :=
  { proc := some proc
    wnd :=
      { position := place s win
        windowBuf := win.windowBuf
        msgBuf := initMessageQueue w.wnd.msgBuf
        title := copyTitle w.wnd.title title
        minimized := 0
        hasTitleBar := win.hasTitleBar } }

/-- If there is no free entry `create_window` does nothing; else it fills the first. -/
theorem createWindow_entry (win : UserWindow) (title : List UInt8) (proc : Nat) (s : State) :
    wp (createWindow win title proc) (fun r s' =>
      findNextAvailableWindowId s = -1 ∧ r.1 = 1 ∧ s' = s ∨
      findNextAvailableWindowId s ≠ -1 ∧ r = (0, findNextAvailableWindowId s) ∧
        s'.windowlist = Function.update s.windowlist r.2
          (newEntry s win title proc (s.windowlist r.2)) ∧
        s'.popupwindow = s.popupwindow ∧
        ∀ i, .window i ∈ s'.touched ↔ i = r.2 ∨ .window i ∈ s.touched) (fun _ _ => True) s := by
  unfold createWindow
  rw [wp_bind, wp_get, wp_ite]
  refine ⟨fun hfull => (wp_pure _).2 (.inl ⟨hfull, rfl, rfl⟩), fun hfree => ?_⟩
  generalize findNextAvailableWindowId s = winId at hfree ⊢
  rw [wp_bind]
  refine wp_mono ((startList_linksOnly winId).wp s) ?_ fun _ _ _ => trivial
  intro _ s₁ h₁
  rw [wp_bind]
  refine wp_mono ((addToWindowList_linksOnly winId).wp s₁) ?_ fun _ _ _ => trivial
  intro _ s₂ h₂
  rw [wp_bind]
  refine wp_mono ((setDesktop_linksOnly winId).wp s₂) ?_ fun _ _ _ => trivial
  intro _ s₃ h₃
  have hlinks := trans_of LinksOnly (trans_of LinksOnly h₁ h₂) h₃
  have hplace : place s₃ win = place s win := by
    simp only [place, hlinks.screen.1, hlinks.screen.2]
  rw [wp_bind, wp_get, wp_bind]
  unfold setEntry touch
  rw [wp_bind, wp_ite]
  refine ⟨fun _ => ?_, fun _ => (wp_stop _).2 trivial⟩
  rw [wp_modify, wp_modify, wp_pure]
  refine .inr ⟨hfree, rfl, ?_, hlinks.popup, fun i => ?_⟩
  · dsimp only
    rw [hlinks.windowlist, hplace]
    rfl
  · simp only [List.mem_cons, Access.window.injEq, hlinks.touched]

end Xv6.Kernel.Wm
