import Xv6.Kernel.ExitWait
import Xv6.Kernel.WindowFrame
import Xv6.Kernel.WindowList

/-!
# The owners of windows

A window's picture lies in the memory of the process that made it.  `update_screen` switches to
the page directory of `windowlist[p].proc` and reads from `window_buf` as many pixels as the
window's position has.  Nobody tells the window manager when the process is gone, has another
program, or when its slot is another process's.  And `close_window` leaves the first window of the
list, and the desktop, where `update_screen` still finds them.

The process table and the window manager are those of `Ptable` and `WindowManager`; here each
slot also has its page directory and the size of its memory.

* A page directory is a number that is used once.  `freed` are those that `freevm` has freed;
  a process that was reaped keeps its pointer to one.
* `owner` records, for each window that was made and not yet closed, the process that made it
  (by its number, as slots are used again) and the page directory it had then.

## Main results

* `owners_of_run`: as long as `wait` reaps no owner of a window, no owner calls `exec`, windows
  are made with their picture inside the caller's memory, and neither the first window nor the
  desktop is closed, everything that `update_screen` draws is a window that has its owner, with
  the same page directory, and its picture in the owner's memory.
-/

namespace Xv6.Kernel.Owners

open Xv6.Verified
open Exec

/-! ## The system -/

/-- Who made a window. -/
structure Owner where
  inc : Nat
  pgdir : Option Nat
  deriving DecidableEq

/-- Processes, their memory, and the window manager. -/
structure State where
  procs : Ptable.State
  pgdir : Nat → Option Nat
  sz : Nat → Nat
  dirs : Nat
  freed : List Nat
  wm : Wm.State
  owner : Int → Option Owner
  popupOwner : Option Owner

/-- What can happen next.  `exec` is one that succeeds; one that fails changes nothing here. -/
inductive Act where
  | proc (a : Ptable.Act)
  | exec (p sz : Nat)
  | createWindow (p : Nat) (win : Wm.UserWindow) (title : List UInt8)
  | closeWindow (p : Nat) (handler : Int)
  | createPopupWindow (p : Nat) (win : Wm.UserWindow) (caller : Int)
  | closePopupWindow (p : Nat)

namespace State

/-- `freevm(p->pgdir)`. -/
def freevm (s : State) (p : Nat) : State := { s with freed := (s.pgdir p).toList ++ s.freed }

/-- Slot `p` gets a new page directory, of `sz` bytes of memory. -/
def setupvm (s : State) (p sz : Nat) : State :=
  { s with
    pgdir := Function.update s.pgdir p (some s.dirs)
    sz := Function.update s.sz p sz
    dirs := s.dirs + 1 }

/-- What `fork` and `wait` do to the memory. -/
def memory (s : State) : Ptable.Act → State
  | .forkCopy p =>
      match s.procs.pc p with
      | .forking np _ => s.setupvm np (s.sz p)
      | _ => s
  | .wait p =>
      match s.procs.waitScan p with
      | .found q => s.freevm q
      | _ => s
  | _ => s

/-- Process `p` is in a call. -/
def InCall (s : State) (p : Nat) : Prop :=
  (s.procs.proc p).state = .running ∧ s.procs.pc p = .user

instance (s : State) (p : Nat) : Decidable (s.InCall p) := by
  unfold InCall
  infer_instance

/-- Who process `p` is. -/
def self (s : State) (p : Nat) : Owner := ⟨s.procs.inc p, s.pgdir p⟩

end State

/-- What an act does, if it is possible. -/
def Act.step (s : State) : Act → Option State
  | .proc a => (Ptable.Act.exec s.procs a).map fun t => { s.memory a with procs := t }
  | .exec p sz => if s.InCall p then some ((s.freevm p).setupvm p sz) else none
  | .createWindow p win title =>
      if s.InCall p then
        match (Wm.createWindow win title p).run s.wm with
        | .ok (r, h) wm => some { s with
            wm
            owner := if r = 0 then Function.update s.owner h (some (s.self p)) else s.owner }
        | .fail _ _ => none
      else none
  | .closeWindow p h =>
      if s.InCall p then
        match (Wm.closeWindow h).run s.wm with
        | .ok _ wm => some { s with wm, owner := Function.update s.owner h none }
        | .fail _ _ => none
      else none
  | .createPopupWindow p win caller =>
      if s.InCall p then
        match (Wm.createPopupWindow win caller p).run s.wm with
        | .ok (r, _) wm => some { s with
            wm
            popupOwner := if r = 0 then some (s.self p) else s.popupOwner }
        | .fail _ _ => none
      else none
  | .closePopupWindow p =>
      if s.InCall p then
        match Wm.closePopupWindow.run s.wm with
        | .ok _ wm => some { s with wm, popupOwner := none }
        | .fail _ _ => none
      else none

/-! ## What must hold -/

/-- The bytes that `drawWindow` reads for a window at position `r`: three for each pixel. -/
def pictureSize (r : Wm.Rect) : Nat := 3 * ((r.xmax - r.xmin).toNat * (r.ymax - r.ymin).toNat)

/-- The picture of a window at position `r` lies in the memory of process `p`. -/
def State.Maps (s : State) (p buf : Nat) (r : Wm.Rect) : Prop := buf + pictureSize r ≤ s.sz p

/-- Slot `p` is in use by a process that has its memory. -/
def InUse (x : Ptable.ProcState) : Prop := x ≠ .unused ∧ x ≠ .embryo

/-- Drawing the window `w` of `proc`, made by `o`, uses the memory of the process that made it:
the slot is in use by that process, its page directory is the same and not freed, and maps the
picture. -/
def State.Drawable (s : State) (proc : Option Nat) (w : Wm.KernelWindow) (o : Owner) : Prop :=
  ∃ p, proc = some p ∧ InUse (s.procs.proc p).state ∧ s.procs.inc p = o.inc ∧
    s.pgdir p = o.pgdir ∧ (∃ d, s.pgdir p = some d ∧ d ∉ s.freed) ∧
    s.Maps p w.windowBuf w.position

/-- Slot `p` owns a window or the popup window. -/
def State.Owns (s : State) (p : Nat) : Prop :=
  (∃ i ∈ slots Wm.MAX_WINDOW_CNT, s.owner i ≠ none ∧ (s.wm.windowlist i).proc = some p) ∨
    s.wm.popupwindow.caller ≠ -1 ∧ s.wm.popupwindow.proc = some p

instance (s : State) (p : Nat) : Decidable (s.Owns p) := by
  unfold State.Owns
  infer_instance

instance (s : State) (p buf : Nat) (r : Wm.Rect) : Decidable (s.Maps p buf r) := by
  unfold State.Maps
  infer_instance

/-- `update_screen` gets to entry `i` on its way along `next`. -/
inductive State.Walked (s : State) : Int → Prop
  | head : s.wm.links.head ≠ -1 → s.Walked s.wm.links.head
  | next {i : Int} : s.Walked i → s.wm.links.next i ≠ -1 → s.Walked (s.wm.links.next i)

/-- `update_screen` draws the desktop, and then what it walks to. -/
def State.Shown (s : State) (i : Int) : Prop :=
  i = s.wm.desktopId ∧ s.wm.desktopId ≠ -1 ∨ s.Walked i

/-- The condition on acts: no owner of a window is reaped or replaced by another program, a
picture lies in the memory of the process that makes the window, and neither the first window of
the list nor the desktop is closed. -/
def Sound (s : State) : Act → Prop
  | .proc (.wait p) =>
      match s.procs.waitScan p with
      | .found q => ¬s.Owns q
      | _ => True
  | .proc _ => True
  | .exec p _ => ¬s.Owns p
  | .createWindow p win _ => s.Maps p win.windowBuf (Wm.place s.wm win)
  | .closeWindow _ h => h ≠ s.wm.links.head ∧ h ≠ s.wm.desktopId
  | .createPopupWindow p win _ => s.Maps p win.windowBuf (Wm.placePopup s.wm win)
  | .closePopupWindow _ => True

instance (s : State) (a : Act) : Decidable (Sound s a) := by
  unfold Sound
  split
  · split <;> infer_instance
  all_goals infer_instance

/-- Every window made and not yet closed, and the popup window if there is one, can be drawn from
its owner's memory. -/
structure Owned (s : State) : Prop where
  windows : ∀ i ∈ slots Wm.MAX_WINDOW_CNT, ∀ o, s.owner i = some o →
    s.Drawable (s.wm.windowlist i).proc (s.wm.windowlist i).wnd o
  popup : s.wm.popupwindow.caller ≠ -1 →
    ∃ o, s.popupOwner = some o ∧ s.Drawable s.wm.popupwindow.proc s.wm.popupwindow.wnd o

/-- Everything that `update_screen` draws can be drawn from its owner's memory. -/
structure Drawn (s : State) : Prop extends Owned s where
  screen : ∀ i, s.Shown i →
    ∃ o, s.owner i = some o ∧ s.Drawable (s.wm.windowlist i).proc (s.wm.windowlist i).wnd o

/-- After `userinit` and `wmInit`. -/
def start (wm : Wm.State) (sz : Nat) : State where
  procs := Ptable.userinit
  pgdir p := if p = 0 then some 0 else none
  sz _ := sz
  dirs := 1
  freed := []
  wm := Wm.wmInit { wm with desktopId := -1 }
  owner _ := none
  popupOwner := none

/-! ## Processes -/

section Processes

variable {s s' : Ptable.State} {p q : Nat}

/-- The memory of slot `p` has been set up: it is in use, or `fork` has copied its parent. -/
def HasMemory (s : Ptable.State) (p : Nat) : Prop :=
  InUse (s.proc p).state ∨ ∃ q, s.pc q = .forking p true

/-- No slot is taken or given up. -/
structure Calm (s s' : Ptable.State) : Prop where
  inc : s'.inc = s.inc
  forking : ∀ q np b, s'.pc q = .forking np b ↔ s.pc q = .forking np b
  inUse : ∀ q, InUse (s'.proc q).state ↔ InUse (s.proc q).state

theorem inUse_of_live {x : Ptable.ProcState} (h : x.Live) : InUse x := by
  obtain rfl | rfl | rfl := h
  · exact ⟨nofun, nofun⟩
  · exact ⟨nofun, nofun⟩
  · exact ⟨nofun, nofun⟩

theorem Calm.of_quiet (h : Ptable.Quiet s s') : Calm s s' := by
  refine ⟨h.inc, fun q np b => by rw [h.pc], fun q => ?_⟩
  rcases h.state q with heq | ⟨hl, hl'⟩
  · rw [heq]
  · exact ⟨fun _ => inUse_of_live hl', fun _ => inUse_of_live hl⟩

theorem Calm.refl (s : Ptable.State) : Calm s s := ⟨rfl, fun _ _ _ => Iff.rfl, fun _ => Iff.rfl⟩

theorem Calm.trans {s'' : Ptable.State} (h : Calm s s') (h' : Calm s' s'') : Calm s s'' :=
  ⟨h'.inc.trans h.inc, fun q np b => (h'.forking q np b).trans (h.forking q np b),
    fun q => (h'.inUse q).trans (h.inUse q)⟩

theorem Calm.hasMemory (h : Calm s s') (p : Nat) : HasMemory s' p ↔ HasMemory s p := by
  simp only [HasMemory, h.inUse, h.forking]

theorem calm_goto {l : Ptable.Pc} (hl : ∀ np b, l ≠ .forking np b)
    (hp : ∀ np b, s.pc p ≠ .forking np b) : Calm s (s.goto p l) := by
  refine ⟨rfl, fun q np b => ?_, fun _ => Iff.rfl⟩
  by_cases hq : q = p
  · subst hq
    simp [Ptable.State.goto, hl, hp]
  · simp [Ptable.State.goto, Function.update_of_ne hq]

theorem calm_passOn (p : Nat) (s : Ptable.State) (q : Nat) : Calm s (s.passOn p q) := by
  have hadopt : ∀ t : Ptable.State, Calm t (t.adopt q) := by
    refine fun t => ⟨rfl, fun _ _ _ => Iff.rfl, fun r => ?_⟩
    by_cases hr : r = q
    · subst hr
      simp [Ptable.State.adopt, Ptable.State.setProc]
    · simp [Ptable.State.adopt, Ptable.State.setProc, Function.update_of_ne hr]
  rw [Ptable.passOn_eq]
  split
  · split
    · exact (Calm.of_quiet (Ptable.wakeup1_quiet s _)).trans (hadopt _)
    · exact hadopt s
  · exact .refl s

theorem calm_zombify (huse : InUse (s.proc p).state) (l : List Nat) :
    Calm s { s.setProc p { s.proc p with state := .zombie } with exited := l } := by
  refine ⟨rfl, fun _ _ _ => Iff.rfl, fun q => ?_⟩
  by_cases hq : q = p
  · subst hq
    simp only [Ptable.State.setProc, Function.update_self]
    exact ⟨fun _ => huse, fun _ => ⟨by simp, by simp⟩⟩
  · simp only [Ptable.State.setProc, Function.update_of_ne hq]

theorem calm_exit (hrun : (s.proc p).state = .running) : Calm s (s.exit p) := by
  have hwoken := Calm.of_quiet (Ptable.wakeup1_quiet s ((s.proc p).parent.map .proc))
  have hloop : ∀ (l : List Nat) (t : Ptable.State), Calm t (l.foldl (Ptable.State.passOn p) t) := by
    intro l
    induction l with
    | nil => exact fun t => .refl t
    | cons q l ih => exact fun t => (calm_passOn p t q).trans (ih _)
  have hall := hwoken.trans (hloop (List.range NPROC) _)
  have hself := (hall.inUse p).2 (inUse_of_live (.inr (.inl hrun)))
  exact hall.trans (calm_zombify hself _)

/-- Acts that neither begin nor end a `fork` and reap nobody. -/
theorem calm_act {a : Ptable.Act} (h : a.exec s = some s') (hfork : ∀ p, a ≠ .fork p)
    (hfail : ∀ p, a ≠ .forkFail p) (hcopy : ∀ p, a ≠ .forkCopy p) (hdone : ∀ p, a ≠ .forkDone p)
    (hwait : ∀ p, a = .wait p → ∀ q, s.waitScan p ≠ .found q) : Calm s s' := by
  have hleads := Ptable.Act.leads h
  cases a with
  | fork p => exact absurd rfl (hfork p)
  | forkFail p => exact absurd rfl (hfail p)
  | forkCopy p => exact absurd rfl (hcopy p)
  | forkDone p => exact absurd rfl (hdone p)
  | exit p =>
      obtain ⟨hrun, -, -, rfl⟩ := hleads
      exact calm_exit hrun
  | wait p =>
      obtain ⟨hrun, hpc, rfl⟩ := hleads
      have huser : ∀ np b, s.pc p ≠ .forking np b := by
        intro np b heq
        rw [heq] at hpc
        rcases hpc with hpc | hpc <;> cases hpc
      unfold Ptable.State.wait
      cases hscan : s.waitScan p with
      | found q => exact absurd hscan (hwait p rfl q)
      | fail => exact calm_goto (by simp) huser
      | again =>
          have hsleep : Calm s (s.sleep p (.proc p)) := by
            refine ⟨rfl, fun _ _ _ => Iff.rfl, fun q => ?_⟩
            by_cases hq : q = p
            · subst hq
              simp only [Ptable.State.sleep, Ptable.State.setProc, Function.update_self]
              rw [hrun]
              exact ⟨fun _ => ⟨by simp, by simp⟩, fun _ => ⟨by simp, by simp⟩⟩
            · simp only [Ptable.State.sleep, Ptable.State.setProc, Function.update_of_ne hq]
          exact hsleep.trans (calm_goto (by simp) huser)
  | kill pid =>
      obtain rfl := hleads
      exact .of_quiet (Ptable.kill_quiet s pid)
  | run p =>
      obtain ⟨hst, rfl⟩ := hleads
      exact .of_quiet (Ptable.quiet_setProc _ _ rfl (.inr ⟨.inr (.inl rfl), .inl hst⟩) (by simp))
  | yield p =>
      obtain ⟨hrun, rfl⟩ := hleads
      exact .of_quiet (Ptable.quiet_setProc _ _ rfl (.inr ⟨.inl rfl, .inr (.inl hrun)⟩) (by simp))
  | sleep p c =>
      obtain ⟨hrun, hpc, rfl⟩ := hleads
      exact .of_quiet (Ptable.quiet_setProc _ _ rfl (.inr ⟨.inr (.inr rfl), .inr (.inl hrun)⟩)
        fun _ => .inr ⟨⟨c, rfl⟩, hpc⟩)
  | wakeup c =>
      obtain rfl := hleads
      exact .of_quiet (Ptable.wakeup1_quiet s _)
  | fault p =>
      obtain ⟨hrun, hpc, rfl⟩ := hleads
      exact .of_quiet (Ptable.quiet_setProc _ _ rfl (.inl rfl) fun hst => .inl ⟨hst, rfl⟩)

/-- What an act does to the slots: one that is in use stays so, by the same process, until it is
reaped; and one that has its memory had it before, or it was copied now, and was not reaped. -/
structure Slots (a : Ptable.Act) (s s' : Ptable.State) : Prop where
  inUse : ∀ p, InUse (s.proc p).state → (∀ q, a = .wait q → s.waitScan q ≠ .found p) →
    InUse (s'.proc p).state ∧ s'.inc p = s.inc p
  memory : ∀ p, HasMemory s' p → (HasMemory s p ∨ ∃ q b, a = .forkCopy q ∧ s.pc q = .forking p b) ∧
    ∀ q, a = .wait q → s.waitScan q ≠ .found p

theorem Calm.slots {a : Ptable.Act} (h : Calm s s')
    (hwait : ∀ p, a = .wait p → ∀ q, s.waitScan p ≠ .found q) : Slots a s s' :=
  ⟨fun p hp _ => ⟨(h.inUse p).2 hp, by rw [h.inc]⟩,
    fun p hp => ⟨.inl ((h.hasMemory p).1 hp), fun q hq => hwait q hq p⟩⟩

theorem slots_fork (h : Ptable.Inv s) : Slots (.fork p) s (s.allocproc p) := by
  unfold Ptable.State.allocproc
  split
  · exact (Calm.refl s).slots nofun
  · rename_i np hnp
    obtain ⟨-, -, hunused, -⟩ := firstFrom_eq_some.1 hnp
    rw [decide_eq_true_eq] at hunused
    have hforking := h.family.forking
    refine ⟨fun q hq _ => ?_, fun q hq => ⟨.inl ?_, nofun⟩⟩
    · have hne : q ≠ np := by
        rintro rfl
        exact hq.1 hunused
      simp only [Ptable.State.setProc, Ptable.State.goto, Function.update_of_ne hne]
      exact ⟨hq, trivial⟩
    · simp only [HasMemory, InUse, Ptable.State.setProc, Ptable.State.goto,
        Function.update_apply] at hq ⊢
      grind

theorem slots_forkFail (h : Ptable.Inv s) {np : Nat} (hpc : s.pc p = .forking np false) :
    Slots (.forkFail p) s (s.forkFail p np) := by
  obtain ⟨-, hembryo, -⟩ := h.family.forking p np false hpc
  have hsingle := h.family.single
  refine ⟨fun q hq _ => ?_, fun q hq => ⟨.inl ?_, nofun⟩⟩
  · have hne : q ≠ np := by
      rintro rfl
      exact hq.2 hembryo
    simp only [Ptable.State.forkFail, Ptable.State.setProc, Ptable.State.goto,
      Function.update_of_ne hne]
    exact ⟨hq, trivial⟩
  · simp only [HasMemory, InUse, Ptable.State.forkFail, Ptable.State.setProc, Ptable.State.goto,
      Function.update_apply] at hq ⊢
    grind

theorem slots_forkCopy (h : Ptable.Inv s) {np : Nat} (hpc : s.pc p = .forking np false) :
    Slots (.forkCopy p) s (s.forkCopy p np) := by
  obtain ⟨-, hembryo, -⟩ := h.family.forking p np false hpc
  refine ⟨fun q hq _ => ?_, fun q hq => ⟨?_, nofun⟩⟩
  · have hne : q ≠ np := by
      rintro rfl
      exact hq.2 hembryo
    simp only [Ptable.State.forkCopy, Ptable.State.setProc, Ptable.State.goto,
      Function.update_of_ne hne]
    exact ⟨hq, trivial⟩
  · by_cases hne : q = np
    · subst hne
      exact .inr ⟨p, false, rfl, hpc⟩
    · left
      simp only [HasMemory, InUse, Ptable.State.forkCopy, Ptable.State.setProc,
        Ptable.State.goto, Function.update_apply] at hq ⊢
      grind

theorem slots_forkDone (h : Ptable.Inv s) {np : Nat} (hpc : s.pc p = .forking np true) :
    Slots (.forkDone p) s (s.forkDone p np) := by
  obtain ⟨-, hembryo, -⟩ := h.family.forking p np true hpc
  refine ⟨fun q hq _ => ?_, fun q hq => ⟨.inl ?_, nofun⟩⟩
  · have hne : q ≠ np := by
      rintro rfl
      exact hq.2 hembryo
    simp only [Ptable.State.forkDone, Ptable.State.setProc, Ptable.State.goto,
      Function.update_of_ne hne]
    exact ⟨hq, trivial⟩
  · simp only [HasMemory, InUse, Ptable.State.forkDone, Ptable.State.setProc, Ptable.State.goto,
      Function.update_apply] at hq ⊢
    grind

theorem slots_reap (h : Ptable.Inv s) (hscan : s.waitScan p = .found q) :
    Slots (.wait p) s (s.wait p) := by
  obtain ⟨-, hzombie⟩ := Ptable.waitScan_found hscan
  have hforking := h.family.forking
  unfold Ptable.State.wait
  rw [hscan]
  refine ⟨fun r hr hne => ?_, fun r hr => ?_⟩
  · have hne' : r ≠ q := by
      rintro rfl
      exact hne p rfl hscan
    simp only [Ptable.State.setProc, Ptable.State.goto, Function.update_of_ne hne']
    exact ⟨hr, trivial⟩
  · simp only [HasMemory, InUse, Ptable.State.setProc, Ptable.State.goto,
      Function.update_apply] at hr ⊢
    grind

theorem slots_act {a : Ptable.Act} (h : Ptable.Inv s) (hexec : a.exec s = some s') :
    Slots a s s' := by
  have hleads := Ptable.Act.leads hexec
  cases a with
  | fork p =>
      obtain ⟨-, -, rfl⟩ := hleads
      exact slots_fork h
  | forkFail p =>
      obtain ⟨np, hpc, rfl⟩ := hleads
      exact slots_forkFail h hpc
  | forkCopy p =>
      obtain ⟨np, hpc, rfl⟩ := hleads
      exact slots_forkCopy h hpc
  | forkDone p =>
      obtain ⟨np, hpc, rfl⟩ := hleads
      exact slots_forkDone h hpc
  | wait p =>
      by_cases hfound : ∃ q, s.waitScan p = .found q
      · obtain ⟨q, hscan⟩ := hfound
        obtain ⟨-, -, rfl⟩ := hleads
        exact slots_reap h hscan
      · have hwait : ∀ p', Ptable.Act.wait p = .wait p' → ∀ q, s.waitScan p' ≠ .found q := by
          rintro p' hp q hscan
          cases hp
          exact hfound ⟨q, hscan⟩
        exact (calm_act hexec nofun nofun nofun nofun hwait).slots hwait
  | exit p => exact (calm_act hexec nofun nofun nofun nofun nofun).slots nofun
  | kill pid => exact (calm_act hexec nofun nofun nofun nofun nofun).slots nofun
  | run p => exact (calm_act hexec nofun nofun nofun nofun nofun).slots nofun
  | yield p => exact (calm_act hexec nofun nofun nofun nofun nofun).slots nofun
  | sleep p c => exact (calm_act hexec nofun nofun nofun nofun nofun).slots nofun
  | wakeup c => exact (calm_act hexec nofun nofun nofun nofun nofun).slots nofun
  | fault p => exact (calm_act hexec nofun nofun nofun nofun nofun).slots nofun

end Processes

/-! ## Windows -/

section Windows

/-- What is drawn of an entry: whose memory, from where, and how much. -/
def picture (w : Wm.Entry) : Option Nat × Nat × Wm.Rect := (w.proc, w.wnd.windowBuf, w.wnd.position)

/-- What is drawn stays: only links and messages change. -/
structure SamePictures (s s' : Wm.State) : Prop where
  windows : ∀ i, picture (s'.windowlist i) = picture (s.windowlist i)
  popup : s'.popupwindow = s.popupwindow

instance : IsPreorder Wm.State SamePictures where
  refl _ := ⟨fun _ => rfl, rfl⟩
  trans _ _ _ h h' := ⟨fun i => (h'.windows i).trans (h.windows i), h'.popup.trans h.popup⟩

theorem SamePictures.of_links {α : Type} {m : Wm.M α} (h : Preserves Wm.LinksOnly m) :
    Preserves SamePictures m :=
  h.imp fun _ _ hs => ⟨fun i => by rw [hs.windowlist], hs.popup⟩

theorem setEntry_pictures (i : Int) {f : Wm.Entry → Wm.Entry}
    (hf : ∀ w, picture (f w) = picture w) : Preserves SamePictures (Wm.setEntry i f) := by
  refine .bind (.ite (.modify fun _ => ⟨fun _ => rfl, rfl⟩) (.stop _)) fun _ =>
    .modify fun s => ⟨fun j => ?_, rfl⟩
  by_cases hj : j = i
  · subst hj
    dsimp only
    rw [Function.update_self, hf]
  · dsimp only
    rw [Function.update_of_ne hj]

theorem closeWindow_pictures (h : Int) : Preserves SamePictures (Wm.closeWindow h) := by
  refine .bind (SamePictures.of_links (Wm.removeFromWindowList_linksOnly _)) fun _ =>
    .bind (SamePictures.of_links (Wm.setPrev_linksOnly _ _)) fun _ =>
      .bind (SamePictures.of_links (Wm.setNext_linksOnly _ _)) fun _ =>
        .bind (setEntry_pictures _ fun _ => rfl) fun _ => .bind .get fun s => .ite ?_ (.pure ())
  exact .bind (SamePictures.of_links (Wm.getPrev_linksOnly _)) fun _ =>
    SamePictures.of_links (Wm.focusWindow_linksOnly _)

end Windows

/-! ## The invariant -/

section Invariant

variable {s s' : State} {p q : Nat}

/-- The list runs through the windows that were made and not closed. -/
def LiveList (wm : Wm.State) (owner : Int → Option Owner) : Prop :=
  ∃ l, Wm.Lists wm l ∧ ∀ i, i ∈ l ↔ owner i ≠ none

/-- Page directories are distinct, those of processes that have their memory are not freed, and
the windows of the list, with the desktop among them, have their owners. -/
structure Inv (s : State) : Prop where
  procs : Ptable.Inv s.procs
  dirs : ∀ p d, s.pgdir p = some d → d < s.dirs
  freed : ∀ d ∈ s.freed, d < s.dirs
  single : ∀ p q d, s.pgdir p = some d → s.pgdir q = some d → p = q
  alive : ∀ p, HasMemory s.procs p → ∃ d, s.pgdir p = some d ∧ d ∉ s.freed
  live : LiveList s.wm s.owner
  desktop : s.wm.desktopId ≠ -1 → s.owner s.wm.desktopId ≠ none
  owned : Owned s

/-- What drawing from the memory of process `p` needs is still there. -/
structure KeepsMemory (s s' : State) (p : Nat) : Prop where
  inUse : InUse (s.procs.proc p).state → InUse (s'.procs.proc p).state
  inc : s'.procs.inc p = s.procs.inc p
  pgdir : s'.pgdir p = s.pgdir p
  freed : ∀ d, s.pgdir p = some d → d ∉ s.freed → d ∉ s'.freed
  sz : s'.sz p = s.sz p

theorem State.Drawable.keeps {proc : Option Nat} {w : Wm.KernelWindow} {o : Owner}
    (h : s.Drawable proc w o)
    (hk : ∀ p, proc = some p → InUse (s.procs.proc p).state → KeepsMemory s s' p) :
    s'.Drawable proc w o := by
  obtain ⟨p, hproc, huse, hinc, hpgdir, ⟨d, hd, hfreed⟩, hmaps⟩ := h
  have hp := hk p hproc huse
  refine ⟨p, hproc, hp.inUse huse, hp.inc.trans hinc, hp.pgdir.trans hpgdir, ⟨d, ?_, ?_⟩, ?_⟩
  · rw [hp.pgdir, hd]
  · exact hp.freed d hd hfreed
  · rw [State.Maps, hp.sz]
    exact hmaps

theorem Owned.keeps (h : Owned s) (hwm : s'.wm = s.wm) (howner : s'.owner = s.owner)
    (hpopup : s'.popupOwner = s.popupOwner)
    (hk : ∀ p, s.Owns p → InUse (s.procs.proc p).state → KeepsMemory s s' p) : Owned s' := by
  constructor
  · intro i hi o ho
    rw [hwm]
    rw [howner] at ho
    refine (h.windows i hi o ho).keeps fun p hp => hk p (.inl ⟨i, hi, ?_, hp⟩)
    rw [ho]
    nofun
  · intro hcaller
    rw [hwm] at hcaller ⊢
    obtain ⟨o, ho, hdraw⟩ := h.popup hcaller
    exact ⟨o, hpopup.trans ho, hdraw.keeps fun p hp => hk p (.inr ⟨hcaller, hp⟩)⟩

theorem memory_cases (s : State) (a : Ptable.Act) :
    (s.memory a = s ∧ (∀ q np b, a = .forkCopy q → s.procs.pc q ≠ .forking np b) ∧
      ∀ q r, a = .wait q → s.procs.waitScan q ≠ .found r) ∨
    (∃ q np b, a = .forkCopy q ∧ s.procs.pc q = .forking np b ∧
      s.memory a = s.setupvm np (s.sz q)) ∨
    ∃ q r, a = .wait q ∧ s.procs.waitScan q = .found r ∧ s.memory a = s.freevm r := by
  cases a with
  | forkCopy q =>
      by_cases hpc : ∃ np b, s.procs.pc q = .forking np b
      · obtain ⟨np, b, hpc⟩ := hpc
        exact .inr (.inl ⟨q, np, b, rfl, hpc, by simp only [State.memory, hpc]⟩)
      · refine .inl ⟨?_, ?_, nofun⟩
        · simp only [State.memory]
          split
          · rename_i np b heq
            exact absurd ⟨np, b, heq⟩ hpc
          · rfl
        · rintro q' np b hq heq
          cases hq
          exact hpc ⟨np, b, heq⟩
  | wait q =>
      by_cases hscan : ∃ r, s.procs.waitScan q = .found r
      · obtain ⟨r, hscan⟩ := hscan
        exact .inr (.inr ⟨q, r, rfl, hscan, by simp only [State.memory, hscan]⟩)
      · refine .inl ⟨?_, nofun, ?_⟩
        · simp only [State.memory]
          split
          · rename_i r heq
            exact absurd ⟨r, heq⟩ hscan
          · rfl
        · rintro q' r hq heq
          cases hq
          exact hscan ⟨r, heq⟩
  | _ => exact .inl ⟨rfl, nofun, nofun⟩

/-- A page directory that is new is nobody else's. -/
theorem Inv.setupvm (h : Inv s) (np sz : Nat) {t : Ptable.State} (ht : Ptable.Inv t)
    (halive : ∀ p, p ≠ np → HasMemory t p → HasMemory s.procs p)
    (hk : ∀ p, s.Owns p → InUse (s.procs.proc p).state → p ≠ np ∧ InUse (t.proc p).state ∧
      t.inc p = s.procs.inc p) : Inv { s.setupvm np sz with procs := t } := by
  have hself : ∀ p d, (s.setupvm np sz).pgdir p = some d →
      p = np ∧ d = s.dirs ∨ p ≠ np ∧ s.pgdir p = some d := by
    intro p d hd
    by_cases hp : p = np
    · subst hp
      simp only [State.setupvm, Function.update_self, Option.some.injEq] at hd
      exact .inl ⟨rfl, hd.symm⟩
    · simp only [State.setupvm, Function.update_of_ne hp] at hd
      exact .inr ⟨hp, hd⟩
  refine ⟨ht, ?_, ?_, ?_, ?_, h.live, h.desktop, h.owned.keeps rfl rfl rfl ?_⟩
  · intro p d hd
    rcases hself p d hd with ⟨-, rfl⟩ | ⟨-, hd⟩
    · exact Nat.lt_succ_self _
    · exact Nat.lt_succ_of_lt (h.dirs p d hd)
  · exact fun d hd => Nat.lt_succ_of_lt (h.freed d hd)
  · intro p q d hp hq
    rcases hself p d hp with ⟨rfl, rfl⟩ | ⟨-, hp'⟩
    · rcases hself q _ hq with ⟨rfl, -⟩ | ⟨-, hq'⟩
      · rfl
      · exact absurd (h.dirs q _ hq') (Nat.lt_irrefl _)
    · rcases hself q d hq with ⟨rfl, rfl⟩ | ⟨-, hq'⟩
      · exact absurd (h.dirs p _ hp') (Nat.lt_irrefl _)
      · exact h.single p q d hp' hq'
  · intro p hp
    by_cases hnp : p = np
    · subst hnp
      refine ⟨s.dirs, Function.update_self .., fun hd => ?_⟩
      exact absurd (h.freed _ hd) (Nat.lt_irrefl _)
    · obtain ⟨d, hd, hfreed⟩ := h.alive p (halive p hnp hp)
      exact ⟨d, (Function.update_of_ne hnp ..).trans hd, hfreed⟩
  · intro p howns huse
    obtain ⟨hp, huse', hinc⟩ := hk p howns huse
    exact ⟨fun _ => huse', hinc, Function.update_of_ne hp .., fun _ _ hd => hd,
      Function.update_of_ne hp ..⟩

/-- Page directories that are freed are the memory of no process. -/
theorem Inv.free (h : Inv s) {l : List Nat} (hl : ∀ d ∈ l, d < s.dirs) {t : Ptable.State}
    (ht : Ptable.Inv t)
    (halive : ∀ p, HasMemory t p → HasMemory s.procs p ∧ ∀ d ∈ l, s.pgdir p ≠ some d)
    (hk : ∀ p, s.Owns p → InUse (s.procs.proc p).state → (∀ d ∈ l, s.pgdir p ≠ some d) ∧
      InUse (t.proc p).state ∧ t.inc p = s.procs.inc p) :
    Inv { s with procs := t, freed := l ++ s.freed } := by
  refine ⟨ht, h.dirs, ?_, h.single, ?_, h.live, h.desktop, h.owned.keeps rfl rfl rfl ?_⟩
  · intro d hd
    rcases List.mem_append.1 hd with hd | hd
    · exact hl d hd
    · exact h.freed d hd
  · intro p hp
    obtain ⟨hp, hne⟩ := halive p hp
    obtain ⟨d, hd, hd'⟩ := h.alive p hp
    refine ⟨d, hd, fun hmem => ?_⟩
    rcases List.mem_append.1 hmem with hmem | hmem
    · exact hne d hmem hd
    · exact hd' hmem
  · intro p howns huse
    obtain ⟨hne, huse', hinc⟩ := hk p howns huse
    refine ⟨fun _ => huse', hinc, rfl, fun d hd hd' hmem => ?_, rfl⟩
    rcases List.mem_append.1 hmem with hmem | hmem
    · exact hne d hmem hd
    · exact hd' hmem

/-- What `fork`, `exit`, `kill` and `wait` do. -/
theorem Inv.proc (h : Inv s) {a : Ptable.Act} {t : Ptable.State} (hexec : a.exec s.procs = some t)
    (hsound : Sound s (.proc a)) : Inv { s.memory a with procs := t } := by
  have ht := h.procs.act hexec
  have hslots := slots_act h.procs hexec
  rcases memory_cases s a with ⟨hmem, hcopy, hwait⟩ | ⟨q, np, b, rfl, hpc, hmem⟩ |
    ⟨q, r, rfl, hscan, hmem⟩
  · rw [hmem]
    refine h.free (l := []) nofun ht (fun p hp => ⟨?_, nofun⟩) fun p _ huse => ⟨nofun, ?_⟩
    · rcases (hslots.memory p hp).1 with hp | ⟨q, b, ha, hpc⟩
      · exact hp
      · exact absurd hpc (hcopy q p b ha)
    · exact hslots.inUse p huse fun q ha => hwait q p ha
  · rw [hmem]
    refine h.setupvm np (s.sz q) ht (fun p hne hp => ?_) fun p _ huse => ⟨?_, ?_⟩
    · rcases (hslots.memory p hp).1 with hp | ⟨q', b', ha, hpc'⟩
      · exact hp
      · cases ha
        rw [hpc] at hpc'
        cases hpc'
        exact absurd rfl hne
    · rintro rfl
      obtain ⟨-, hembryo, -⟩ := h.procs.family.forking q p b hpc
      exact huse.2 hembryo
    · exact hslots.inUse p huse nofun
  · rw [hmem]
    have hother : ∀ p, p ≠ r → ∀ d ∈ (s.pgdir r).toList, s.pgdir p ≠ some d := by
      intro p hp d hd hd'
      exact hp (h.single p r d hd' (by simpa using hd))
    refine h.free (fun d hd => h.dirs r d (by simpa using hd)) ht (fun p hp => ?_)
      fun p howns huse => ?_
    · obtain ⟨hp, hne⟩ := hslots.memory p hp
      refine ⟨?_, hother p ?_⟩
      · rcases hp with hp | ⟨q', b', ha, -⟩
        · exact hp
        · cases ha
      · rintro rfl
        exact hne q rfl hscan
    · have hne : p ≠ r := by
        rintro rfl
        simp only [Sound, hscan] at hsound
        exact hsound howns
      refine ⟨hother p hne, hslots.inUse p huse ?_⟩
      rintro q' ha hscan'
      cases ha
      rw [hscan] at hscan'
      cases hscan'
      exact hne rfl

/-- What `exec` does: the new page directory is there before the old one is freed. -/
theorem Inv.exec (h : Inv s) (sz : Nat) (howns : ¬s.Owns p) : Inv ((s.freevm p).setupvm p sz) := by
  have hnew : Inv (s.setupvm p sz) := by
    refine h.setupvm p sz h.procs (fun _ _ hq => hq) fun q hq huse => ⟨?_, huse, rfl⟩
    rintro rfl
    exact howns hq
  have hold : ∀ q, ∀ d ∈ (s.pgdir p).toList, (s.setupvm p sz).pgdir q ≠ some d := by
    intro q d hd hq
    have hd' : s.pgdir p = some d := by simpa using hd
    by_cases hqp : q = p
    · subst hqp
      simp only [State.setupvm, Function.update_self, Option.some.injEq] at hq
      subst hq
      exact absurd (h.dirs q _ hd') (Nat.lt_irrefl _)
    · simp only [State.setupvm, Function.update_of_ne hqp] at hq
      exact hqp (h.single q p d hq hd')
  have hlt : ∀ d ∈ (s.pgdir p).toList, d < (s.setupvm p sz).dirs := by
    intro d hd
    exact Nat.lt_succ_of_lt (h.dirs p d (by simpa using hd))
  exact hnew.free hlt h.procs (fun q hq => ⟨hq, hold q⟩) fun q _ huse => ⟨hold q, huse, rfl⟩

/-- The caller can have its own window drawn. -/
theorem Inv.drawable_self (h : Inv s) (hcall : s.InCall p) {w : Wm.KernelWindow}
    (hmaps : s.Maps p w.windowBuf w.position) : s.Drawable (some p) w (s.self p) := by
  have huse := inUse_of_live (.inr (.inl hcall.1))
  exact ⟨p, rfl, huse, rfl, rfl, h.alive p (.inl huse), hmaps⟩

theorem drawable_picture {w w' : Wm.Entry} {o : Owner} (hpic : picture w' = picture w) :
    s.Drawable w'.proc w'.wnd o ↔ s.Drawable w.proc w.wnd o := by
  simp only [picture, Prod.mk.injEq] at hpic
  simp only [State.Drawable, hpic.1, hpic.2.1, hpic.2.2]

theorem Inv.createWindow (h : Inv s) (hcall : s.InCall p) {win : Wm.UserWindow}
    {title : List UInt8} (hmaps : s.Maps p win.windowBuf (Wm.place s.wm win)) {r i : Int}
    {wm : Wm.State} (hrun : (Wm.createWindow win title p).run s.wm = .ok (r, i) wm) :
    Inv { s with
      wm
      owner := if r = 0 then Function.update s.owner i (some (s.self p)) else s.owner } := by
  have hentry := ok_of_wp (Wm.createWindow_entry win title p s.wm) hrun
  obtain ⟨l, hlist, hlive⟩ := h.live
  rcases hentry with ⟨-, rfl, rfl⟩ | ⟨hfree, hr, hwindows, hpopup, -⟩
  · exact h
  · obtain rfl : r = 0 := congrArg Prod.fst hr
    have hlen : l.length ≠ Wm.MAX_WINDOW_CNT := fun heq => hfree (hlist.findSelf_eq_iff.2 heq)
    obtain ⟨-, -, -, hlist', hdesk⟩ := ok_of_wp (Wm.createWindow_spec hlist hlen) hrun
    rw [if_pos rfl]
    dsimp only at hwindows hlist' hdesk
    refine { h with live := ⟨_, hlist', fun j => ?_⟩, desktop := fun hne => ?_, owned := ?_ }
    · rw [List.mem_append, List.mem_singleton, hlive]
      by_cases hj : j = i
      · simp [hj]
      · simp [hj]
    · dsimp only at hne ⊢
      rw [hdesk] at hne ⊢
      by_cases hfirst : s.wm.desktopId = -1
      · simp [hfirst]
      · rw [if_neg hfirst]
        by_cases hi : s.wm.desktopId = i
        · simp [hi]
        · rw [Function.update_of_ne hi]
          exact h.desktop hfirst
    refine ⟨fun j hslot o ho => ?_, fun hcaller => ?_⟩
    · by_cases hj : j = i
      · subst hj
        dsimp only at ho ⊢
        rw [Function.update_self, Option.some.injEq] at ho
        subst ho
        rw [hwindows, Function.update_self]
        exact h.drawable_self hcall hmaps
      · dsimp only at ho ⊢
        rw [Function.update_of_ne hj] at ho
        rw [hwindows, Function.update_of_ne hj]
        exact h.owned.windows j hslot o ho
    · dsimp only at hcaller ⊢
      rw [hpopup] at hcaller ⊢
      exact h.owned.popup hcaller

theorem Inv.closeWindow (h : Inv s) {i : Int} (hhead : i ≠ s.wm.links.head)
    (hdesk : i ≠ s.wm.desktopId) {wm : Wm.State}
    (hrun : (Wm.closeWindow i).run s.wm = .ok () wm) :
    Inv { s with wm, owner := Function.update s.owner i none } := by
  have hpics := ok_of_wp ((closeWindow_pictures i).wp s.wm) hrun
  obtain ⟨l, hlist, hlive⟩ := h.live
  obtain ⟨hlist', hsame⟩ : Wm.Lists wm (l.erase i) ∧ wm.desktopId = s.wm.desktopId := by
    by_cases hmem : i ∈ l
    · exact ok_of_wp (Wm.closeWindow_spec hlist hmem hhead.symm) hrun
    · rw [List.erase_of_not_mem hmem]
      exact ok_of_wp (Wm.closeWindow_free hlist hmem) hrun
  refine { h with live := ⟨_, hlist', fun j => ?_⟩, desktop := fun hne => ?_, owned := ?_ }
  · rw [hlist.chain.nodup.mem_erase_iff, hlive]
    by_cases hj : j = i
    · simp [hj]
    · simp [hj]
  · dsimp only at hne ⊢
    rw [hsame] at hne ⊢
    rw [Function.update_of_ne hdesk.symm]
    exact h.desktop hne
  refine ⟨fun j hslot o ho => ?_, fun hcaller => ?_⟩
  · by_cases hj : j = i
    · subst hj
      dsimp only at ho
      rw [Function.update_self] at ho
      cases ho
    · dsimp only at ho
      rw [Function.update_of_ne hj] at ho
      exact (drawable_picture (hpics.windows j)).2 (h.owned.windows j hslot o ho)
  · dsimp only at hcaller ⊢
    rw [hpics.popup] at hcaller ⊢
    exact h.owned.popup hcaller

theorem Inv.createPopupWindow (h : Inv s) (hcall : s.InCall p) {win : Wm.UserWindow} {caller : Int}
    (hmaps : s.Maps p win.windowBuf (Wm.placePopup s.wm win)) {r i : Int} {wm : Wm.State}
    (hrun : (Wm.createPopupWindow win caller p).run s.wm = .ok (r, i) wm) :
    Inv { s with wm, popupOwner := if r = 0 then some (s.self p) else s.popupOwner } := by
  simp only [Wm.createPopupWindow, run_get_bind, run_ite, run_modify_bind, run_pure] at hrun
  split at hrun
  · simp only [Res.ok.injEq, Prod.mk.injEq] at hrun
    obtain ⟨⟨rfl, -⟩, rfl⟩ := hrun
    exact h
  · simp only [Res.ok.injEq, Prod.mk.injEq] at hrun
    obtain ⟨⟨rfl, -⟩, rfl⟩ := hrun
    refine { h with owned := ⟨h.owned.windows, fun _ => ?_⟩ }
    exact ⟨s.self p, rfl, h.drawable_self hcall hmaps⟩

theorem Inv.closePopupWindow (h : Inv s) {wm : Wm.State}
    (hrun : Wm.closePopupWindow.run s.wm = .ok () wm) : Inv { s with wm, popupOwner := none } := by
  simp only [Wm.closePopupWindow, run_modify, Res.ok.injEq, true_and] at hrun
  subst hrun
  exact { h with owned := ⟨h.owned.windows, fun hcaller => absurd rfl hcaller⟩ }

/-- One act keeps the invariant, if it meets the condition. -/
theorem Inv.step (h : Inv s) {a : Act} (hsound : Sound s a) (hstep : a.step s = some s') :
    Inv s' := by
  cases a with
  | proc a =>
      obtain ⟨t, hexec, rfl⟩ := Option.map_eq_some_iff.1 hstep
      exact h.proc hexec hsound
  | exec p sz =>
      simp only [Act.step] at hstep
      split at hstep
      · cases hstep
        exact h.exec sz hsound
      · cases hstep
  | createWindow p win title =>
      simp only [Act.step] at hstep
      split at hstep
      · rename_i hcall
        split at hstep
        · rename_i hrun
          cases hstep
          exact h.createWindow hcall hsound hrun
        · cases hstep
      · cases hstep
  | closeWindow p i =>
      simp only [Act.step] at hstep
      split at hstep
      · split at hstep
        · rename_i hrun
          cases hstep
          exact h.closeWindow hsound.1 hsound.2 hrun
        · cases hstep
      · cases hstep
  | createPopupWindow p win caller =>
      simp only [Act.step] at hstep
      split at hstep
      · rename_i hcall
        split at hstep
        · rename_i hrun
          cases hstep
          exact h.createPopupWindow hcall hsound hrun
        · cases hstep
      · cases hstep
  | closePopupWindow p =>
      simp only [Act.step] at hstep
      split at hstep
      · split at hstep
        · rename_i hrun
          cases hstep
          exact h.closePopupWindow hrun
        · cases hstep
      · cases hstep

theorem start_inv (wm : Wm.State) (sz : Nat) : Inv (start wm sz) where
  procs := Ptable.inv_userinit
  dirs p d hd := by
    simp only [start] at hd ⊢
    split at hd
    · cases hd
      exact Nat.one_pos
    · cases hd
  freed := by rintro _ ⟨⟩
  single p q d hp hq := by
    simp only [start] at hp hq
    grind
  alive p hp := by
    simp only [HasMemory, start, Ptable.userinit, InUse] at hp
    by_cases h0 : p = 0
    · subst h0
      exact ⟨0, rfl, by rintro ⟨⟩⟩
    · simp [Function.update_of_ne h0, Ptable.Proc.zero] at hp
  live := by
    obtain ⟨l, hperm, hlist⟩ := (Wm.boot_inv wm).listed
    have hnil : l = [] := hperm.eq_nil
    exact ⟨l, hlist, fun i => by simp [hnil, start]⟩
  desktop hne := absurd rfl hne
  owned := ⟨fun _ _ _ h => (by cases h), fun hcaller => absurd rfl hcaller⟩

/-- What `update_screen` draws was made and not closed. -/
theorem Inv.shown (h : Inv s) {i : Int} (hi : s.Shown i) : s.owner i ≠ none := by
  obtain ⟨l, hlist, hlive⟩ := h.live
  rcases hi with ⟨rfl, hne⟩ | hwalk
  · exact h.desktop hne
  rw [← hlive]
  induction hwalk with
  | head hne => exact hlist.chain.head_mem hne
  | next _ hne ih => exact hlist.chain.next_mem ih hne

theorem Inv.drawn (h : Inv s) : Drawn s := by
  refine { h.owned with screen := fun i hi => ?_ }
  have howner := h.shown hi
  obtain ⟨l, hlist, hlive⟩ := h.live
  have hslot : i ∈ slots Wm.MAX_WINDOW_CNT := mem_slots.2 (hlist.within i ((hlive i).2 howner))
  obtain ⟨o, ho⟩ := Option.ne_none_iff_exists'.1 howner
  exact ⟨o, ho, h.owned.windows i hslot o ho⟩

end Invariant

/-! ## Runs -/

/-- In every state of a run that meets the condition, each window that was made and not closed,
the popup window, and whatever else `update_screen` draws, is drawn from the memory of the process
that made it. -/
theorem owners_of_run (wm : Wm.State) (sz : Nat) {s : State}
    (h : Reaches Act.step Sound (start wm sz) s) : Drawn s :=
  (h.inv (fun _ _ _ hinv hsound hstep => hinv.step hsound hstep) (start_inv wm sz)).drawn

/-- The first process makes a window, a second one that it closes, and a popup window, and reaps a
child that has none. -/
theorem owners_run : ∃ s, Reaches Act.step Sound (start Wm.cleared 4096) s ∧
    s.owner 0 = some ⟨0, some 1⟩ ∧ s.freed = [2, 0] ∧ Drawn s := by
  have hrun : (runActs Act.step Sound
      [.proc (.run 0), .exec 0 262144, .createWindow 0 (Wm.centred 300 200) [],
        .createWindow 0 (Wm.centred 100 100) [], .closeWindow 0 1,
        .proc (.fork 0), .proc (.forkCopy 0), .proc (.forkDone 0),
        .createPopupWindow 0 ⟨⟨0, 100, 0, 100⟩, 0, 0, 100, 100, 0⟩ 0,
        .proc (.run 1), .proc (.exit 1), .proc (.wait 0)] (start Wm.cleared 4096)).map
      (fun s => (s.owner 0, s.freed)) = some (some ⟨0, some 1⟩, [2, 0]) := by
    decide +kernel
  obtain ⟨s, hs, heq⟩ := Option.map_eq_some_iff.1 hrun
  simp only [Prod.mk.injEq] at heq
  exact ⟨s, .of_runActs _ hs, heq.1, heq.2, owners_of_run _ _ (.of_runActs _ hs)⟩

/-- A child makes a window, exits and is reaped: the window's process is an unused slot. -/
theorem reaped_owner :
    ∃ s, Reaches Act.step (fun _ _ => True) (start Wm.cleared 4096) s ∧
      ¬Drawn s := by
  have hrun : (runActs Act.step (fun _ _ => True)
      [.proc (.run 0), .exec 0 262144, .proc (.fork 0), .proc (.forkCopy 0), .proc (.forkDone 0),
        .proc (.run 1), .createWindow 1 (Wm.centred 300 200) [], .proc (.exit 1),
        .proc (.wait 0)] (start Wm.cleared 4096)).map
      (fun s => (s.owner 0, (s.wm.windowlist 0).proc, (s.procs.proc 1).state)) =
        some (some ⟨1, some 2⟩, some 1, .unused) := by
    decide +kernel
  obtain ⟨s, hs, heq⟩ := Option.map_eq_some_iff.1 hrun
  simp only [Prod.mk.injEq] at heq
  obtain ⟨howner, hproc, hunused⟩ := heq
  refine ⟨s, .of_runActs _ hs, fun hdrawn => ?_⟩
  obtain ⟨p, hp, huse, -⟩ := hdrawn.windows 0 (by decide) _ howner
  rw [hproc, Option.some.injEq] at hp
  subst hp
  exact huse.1 hunused

end Xv6.Kernel.Owners
