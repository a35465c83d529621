import Mathlib.Data.Nat.Find
import Xv6.Kernel.UserPointers
import Xv6.Kernel.WindowFrame
import Xv6.Kernel.WindowList

/-!
# System calls of the window manager

`sys_gui_createWindow`, `sys_GUI_closeWindow`, `sys_GUI_minimizeWindow`,
`sys_GUI_maximizeWindow` and `sys_GUI_getMessage` of `kernel/window_manager.c`, with the memory
of the process that calls them.  None of them looks at what `argptr` and `argstr` return, so a
pointer that did not pass stays as it was, uninitialised; and the handler, the buffer and its
size are what the process wrote into its `struct window`.

* An access to user memory that is not in `[0, sz)` stops the model (`address`), as an index
  outside `windowlist` does.
* The uninitialised pointers are a parameter, `junk`.

## Main results

* `confined_iff`: exactly when a call, whatever the uninitialised pointers hold, uses the caller's
  memory and windows only.
-/

namespace Xv6.Kernel.Gui

open Xv6.Verified
open Exec
open UserPointers

/-! ## Memory -/

/-- Why the model stops. -/
inductive Stop where
  | wm (e : Wm.Stop)
  | address (a : Nat)
  deriving DecidableEq

/-- User memory. -/
abbrev Mem := Nat → UInt8

/-- The window manager, and the memory of the process. -/
structure State where
  wm : Wm.State
  mem : Mem

/-- Code of a system call. -/
abbrev M := Exec Stop State

/-- Code of the window manager. -/
def liftWm {α : Type} (m : Wm.M α) : M α := ⟨fun s =>
  match m.run s.wm with
  | .ok a wm => .ok a { s with wm }
  | .fail e wm => .fail (.wm e) { s with wm }⟩

/-- The process that calls: its slot, its size and its registers. -/
structure Caller where
  slot : Nat
  proc : UserPointers.Proc
  tf : Trapframe

variable (c : Caller)

/-- Read the byte at `a`. -/
def load (a : Nat) : M UInt8 := do
  if a < c.proc.sz then return (← get).mem a else stop (.address a)

/-- Write the byte at `a`. -/
def store (a : Nat) (b : UInt8) : M Unit := do
  if a < c.proc.sz then modify fun s => { s with mem := Function.update s.mem a b }
  else stop (.address a)

/-- Read `n` bytes at `a`, the lowest first. -/
def loadBytes : Nat → Nat → M Nat
  | _, 0 => return 0
  | a, n + 1 => do
      let b ← load c a
      let rest ← loadBytes (a + 1) n
      return b.toNat + 256 * rest

/-- Write bytes at `a`. -/
def storeBytes : Nat → List UInt8 → M Unit
  | _, [] => return ()
  | a, b :: bs => do
      store c a b
      storeBytes (a + 1) bs

/-- Read an `int`. -/
def loadInt (a : Nat) : M Int := do
  return int (← loadBytes c a 4)

/-- The bytes of an `int`. -/
def intBytes (v : Int) : List UInt8 :=
  [UInt8.ofNat (uint v), UInt8.ofNat (uint v / 256), UInt8.ofNat (uint v / 65536),
    UInt8.ofNat (uint v / 16777216)]

/-- The string at `a`: `strlen`, and the bytes it has passed. -/
def loadString : Nat → Nat → M (List UInt8)
  | 0, a => stop (.address a)
  | n + 1, a => do
      let b ← load c a
      if b = 0 then return []
      let rest ← loadString n (a + 1)
      return b :: rest

/-! ## `struct window` and `message` -/

/-- `sizeof(window)`. -/
abbrev sizeofWindow : Nat := 3680

/-- `sizeof(message)`. -/
abbrev sizeofMessage : Nat := 44

/-- `window->window_buf`. -/
def loadWindowBuf (window : Nat) : M Nat := loadBytes c (window + 24) 8

/-- `window->handler`. -/
def loadHandler (window : Nat) : M Int := loadInt c (window + 48)

/-- `window->handler = v`. -/
def storeHandler (window : Nat) (v : Int) : M Unit := storeBytes c (window + 48) (intBytes v)

/-- What `create_window` reads of `*window`. -/
def loadWindow (window : Nat) : M Wm.UserWindow := do
  let xmin ← loadInt c window
  let xmax ← loadInt c (window + 4)
  let ymin ← loadInt c (window + 8)
  let ymax ← loadInt c (window + 12)
  let hasTitleBar ← loadInt c (window + 16)
  let windowBuf ← loadWindowBuf c window
  let width ← loadInt c (window + 32)
  let height ← loadInt c (window + 36)
  let handler ← loadHandler c window
  return ⟨⟨xmin, xmax, ymin, ymax⟩, hasTitleBar, windowBuf, width, height, handler⟩

/-- `*result = msg`. -/
def storeMessage (result : Nat) (msg : Wm.Message) : M Unit :=
  storeBytes c result (intBytes msg.msgType ++ (List.ofFn msg.params).flatMap intBytes)

/-! ## The window manager -/

/-- The loop of `clear_window`, from round `i` on.  The fields are read in each round: the
pixels may lie on them. -/
def clearWindowLoop (win : Nat) : Nat → Nat → M Unit
  | 0, _ => return ()
  | n + 1, i => do
      let width ← loadInt c (win + 32)
      let height ← loadInt c (win + 36)
      if (i : Int) < int (width * height) then
        let windowBuf ← loadWindowBuf c win
        let rgb := (windowBuf + 3 * i) % 18446744073709551616
        store c (rgb + 2) 89
        store c (rgb + 1) 101
        store c rgb 186
        clearWindowLoop win n (i + 1)

/-- `clear_window`.  After as many rounds as there are positive `int`s the test has failed. -/
def clearWindow (win : Nat) : M Unit := clearWindowLoop c win 2147483648 0

/-- `create_window`.  Nothing between the reads of `*window` writes to it. -/
def createWindow (window title : Nat) : M Int := do
  clearWindow c window
  let winId := Wm.findNextAvailableWindowId (← get).wm
  if winId = -1 then return 1
  let win ← loadWindow c window
  storeHandler c window winId
  let title ← loadString c (c.proc.sz + 1) title
  let _ ← liftWm (Wm.createWindow win title c.slot)
  return 0

/-- `close_window`. -/
def closeWindow (window : Nat) : M Int := do
  let winId ← loadHandler c window
  liftWm (Wm.closeWindow winId)
  storeHandler c window (-1)
  return 0

/-- `minimizeWindow`. -/
def minimizeWindow (window : Nat) : M Int := do
  let winId ← loadHandler c window
  liftWm (Wm.minimizeWindow winId)
  return 0

/-- `maximizeWindow`. -/
def maximizeWindow (window : Nat) : M Int := do
  let winId ← loadHandler c window
  liftWm (Wm.maximizeWindow winId)
  return 0

/-- `--buf->cnt` and the step of `buf->front`. -/
def takeMessage (b : Wm.MsgBuf) : Wm.MsgBuf := { b with cnt := b.cnt - 1, front := b.front + 1 }

/-- `getMessage`, for the queue of entry `h`. -/
def getMessage (h : Int) (result : Nat) : M Int := do
  let wnd ← liftWm (Wm.getWnd h)
  if wnd.msgBuf.cnt = 0 then return 1
  storeMessage c result (wnd.msgBuf.data wnd.msgBuf.front)
  liftWm (Wm.setEntry h fun w => { w with wnd.msgBuf := takeMessage w.wnd.msgBuf })
  return 0

/-- `windowlist[h].proc`. -/
def ownerOf (h : Int) : M (Option Nat) := do
  if Slot Wm.MAX_WINDOW_CNT h then return ((← get).wm.windowlist h).proc
  else stop (.wm (.outside h))

/-! ## The calls -/

/-- What `argptr` leaves in a pointer that held `junk`. -/
def pointer (n : Nat) (size junk : Nat) : Nat := (argptr c.proc c.tf n size).getD junk

/-- What `argstr` leaves in a pointer that held `junk`: `fetchstr` stores the address as soon as it
is in the process, also if the string does not end there. -/
def stringPointer (n junk : Nat) : Nat :=
  if c.proc.sz ≤ (c.tf n).toNat then junk else (c.tf n).toNat

/-- The five calls. -/
inductive Call where
  | createWindow
  | closeWindow
  | minimizeWindow
  | maximizeWindow
  | getMessage

/-- `sys_gui_createWindow`, `sys_GUI_closeWindow`, `sys_GUI_minimizeWindow`,
`sys_GUI_maximizeWindow` and `sys_GUI_getMessage`. -/
def Call.sys (junk : Nat → Nat) : Call → M Int
  | .createWindow =>
      Gui.createWindow c (pointer c 0 sizeofWindow (junk 0)) (stringPointer c 1 (junk 1))
  | .closeWindow => Gui.closeWindow c (pointer c 0 sizeofWindow (junk 0))
  | .minimizeWindow => Gui.minimizeWindow c (pointer c 0 sizeofWindow (junk 0))
  | .maximizeWindow => Gui.maximizeWindow c (pointer c 0 sizeofWindow (junk 0))
  | .getMessage => do
      let h := argint c.tf 0
      let res := pointer c 1 sizeofMessage (junk 0)
      if (← ownerOf h) ≠ some c.slot then return 1
      Gui.getMessage c h res

/-! ## What a call may do -/

/-- The entries a call may use: the caller's windows, and a free entry that becomes one. -/
def MayUse (s s' : Wm.State) (i : Int) : Prop :=
  (s.windowlist i).proc = some c.slot ∨
    Wm.Free s i ∧ (s'.windowlist i).proc = some c.slot

/-- A call that has returned `r` has used windows and memory of the caller only, and if it is an
error has changed nothing. -/
structure Confined (s s' : State) (r : Int) : Prop where
  windows : ∀ i, .window i ∈ s'.wm.touched → MayUse c s.wm s'.wm i
  others : ∀ i, ¬MayUse c s.wm s'.wm i → s'.wm.windowlist i = s.wm.windowlist i
  memory : ∀ a, c.proc.sz ≤ a → s'.mem a = s.mem a
  error : r ≠ 0 → { s'.wm with touched := s.wm.touched } = s.wm

/-- The call does not stop. -/
abbrev Never : Stop → State → Prop := fun _ _ => False

/-- A call does no harm, whatever its uninitialised pointers hold. -/
def Harmless (s : State) (call : Call) : Prop :=
  ∀ junk, wp (call.sys c junk) (fun r s' => Confined c s s' r) Never { s with wm.touched := [] }

/-! ## When it does -/

/-- The number in `n` bytes at `a`. -/
def bytesAt (m : Mem) : Nat → Nat → Nat
  | _, 0 => 0
  | a, n + 1 => (m a).toNat + 256 * bytesAt m (a + 1) n

/-- The `int` at `a`. -/
def intAt (m : Mem) (a : Nat) : Int := int (bytesAt m a 4)

/-- Memory `m` with bytes stored at `a`. -/
def stored (m : Mem) : Nat → List UInt8 → Mem
  | _, [] => m
  | a, b :: bs => stored (Function.update m a b) (a + 1) bs

/-- `window->width * window->height`. -/
def pixels (m : Mem) (win : Nat) : Int := int (intAt m (win + 32) * intAt m (win + 36))

/-- `window->window_buf + i`. -/
def pixel (m : Mem) (win i : Nat) : Nat := (bytesAt m (win + 24) 8 + 3 * i) % 18446744073709551616

/-- The pixel at `a` coloured. -/
def coloured (m : Mem) (a : Nat) : Mem :=
  Function.update (Function.update (Function.update m (a + 2) 89) (a + 1) 101) a 186

/-- The memory when the first `i` pixels of the window at `win` are coloured. -/
def canvas (m : Mem) (win : Nat) : Nat → Mem
  | 0 => m
  | i + 1 => coloured (canvas m win i) (pixel (canvas m win i) win i)

/-- There are more than `i` pixels: while they are coloured the number in the struct is never less
than those done. -/
def HasPixel (m : Mem) (win i : Nat) : Prop := ∀ j ≤ i, (j : Int) < pixels (canvas m win j) win

/-- There are `n` pixels. -/
def PixelCount (m : Mem) (win n : Nat) : Prop :=
  (∀ i < n, (i : Int) < pixels (canvas m win i) win) ∧ pixels (canvas m win n) win ≤ n

/-- An end of the list or an index. -/
def LinkOk (i : Int) : Prop := i = -1 ∨ Slot Wm.MAX_WINDOW_CNT i

/-- `focusWindow(w)` finds indices where it needs them. -/
def Focusable (k : Links Int) (w : Int) : Prop :=
  w = -1 ∨ w = k.tail ∨
    Slot Wm.MAX_WINDOW_CNT w ∧ Slot Wm.MAX_WINDOW_CNT (k.next w) ∧
      (w ≠ k.head → Slot Wm.MAX_WINDOW_CNT (k.prev w)) ∧ LinkOk k.tail

/-- Entry `h` is the caller's. -/
def Mine (s : Wm.State) (h : Int) : Prop :=
  Slot Wm.MAX_WINDOW_CNT h ∧ (s.windowlist h).proc = some c.slot

/-- The string that ends before the end of the process. -/
def Terminated (m : Mem) (a : Nat) : Prop := ∃ b, a ≤ b ∧ b < c.proc.sz ∧ m b = 0

/-- The condition on a call.  Arguments: the struct, and for `sys_GUI_getMessage` the message,
lies in the process.  For a new window each pixel that is coloured lies in the process and, if an
entry is free, the last window is an entry and the title ends in the process, also when the
window is coloured and the handler stored.  For the others the handler is an entry of the caller's
and the entries linked to it exist. -/
def Call.Fits (s : State) : Call → Prop
  | .createWindow =>
      let win := (c.tf 0).toNat
      win + sizeofWindow ≤ c.proc.sz ∧
        (∀ i, HasPixel s.mem win i → pixel (canvas s.mem win i) win i + 3 ≤ c.proc.sz) ∧
        let winId := Wm.findNextAvailableWindowId s.wm
        (winId ≠ -1 → LinkOk s.wm.links.tail ∧ ∀ n, PixelCount s.mem win n →
          Terminated c (stored (canvas s.mem win n) (win + 48) (intBytes winId)) (c.tf 1).toNat)
  | .closeWindow =>
      let win := (c.tf 0).toNat
      let h := intAt s.mem (win + 48)
      win + sizeofWindow ≤ c.proc.sz ∧ Mine c s.wm h ∧ LinkOk (s.wm.links.prev h) ∧
        LinkOk (s.wm.links.next h)
  | .minimizeWindow =>
      let win := (c.tf 0).toNat
      let h := intAt s.mem (win + 48)
      win + sizeofWindow ≤ c.proc.sz ∧ Mine c s.wm h ∧
        (h = s.wm.links.tail → Focusable s.wm.links (s.wm.links.prev h))
  | .maximizeWindow =>
      let win := (c.tf 0).toNat
      let h := intAt s.mem (win + 48)
      win + sizeofWindow ≤ c.proc.sz ∧ Mine c s.wm h ∧ Focusable s.wm.links h
  | .getMessage =>
      let h := argint c.tf 0
      Slot Wm.MAX_WINDOW_CNT h ∧ ((s.wm.windowlist h).proc = some c.slot →
        (s.wm.windowlist h).wnd.msgBuf.cnt ≠ 0 → (c.tf 1).toNat + sizeofMessage ≤ c.proc.sz)

/-! ## Memory -/

section Memory

variable {c} {s : State} {a n : Nat}

theorem wp_load {Q : UInt8 → State → Prop} :
    wp (load c a) Q Never s ↔ a < c.proc.sz ∧ Q (s.mem a) s := by
  by_cases ha : a < c.proc.sz
  · simp [load, ha]
  · simp [load, ha]

theorem wp_store {b : UInt8} {Q : Unit → State → Prop} : wp (store c a b) Q Never s ↔
    a < c.proc.sz ∧ Q () { s with mem := Function.update s.mem a b } := by
  by_cases ha : a < c.proc.sz
  · simp [store, ha]
  · simp [store, ha]

theorem wp_loadBytes {Q : Nat → State → Prop} : wp (loadBytes c a n) Q Never s ↔
    (n ≠ 0 → a + n ≤ c.proc.sz) ∧ Q (bytesAt s.mem a n) s := by
  induction n generalizing a Q with
  | zero => simp [loadBytes, bytesAt]
  | succ n ih =>
      simp only [loadBytes, wp_bind, wp_load, ih, wp_pure, bytesAt]
      constructor
      · rintro ⟨ha, hn, hQ⟩
        exact ⟨fun _ => by omega, hQ⟩
      · rintro ⟨hn, hQ⟩
        exact ⟨by omega, fun _ => by omega, hQ⟩

theorem wp_loadInt {Q : Int → State → Prop} :
    wp (loadInt c a) Q Never s ↔ a + 4 ≤ c.proc.sz ∧ Q (intAt s.mem a) s := by
  simp [loadInt, wp_loadBytes, intAt]

theorem wp_storeBytes {bs : List UInt8} {Q : Unit → State → Prop} :
    wp (storeBytes c a bs) Q Never s ↔
      (bs ≠ [] → a + bs.length ≤ c.proc.sz) ∧ Q () { s with mem := stored s.mem a bs } := by
  induction bs generalizing a s with
  | nil => simp [storeBytes, stored]
  | cons b bs ih =>
      simp only [storeBytes, wp_bind, wp_store, ih, stored, List.length_cons]
      constructor
      · rintro ⟨ha, hbs, hQ⟩
        refine ⟨fun _ => ?_, hQ⟩
        by_cases hnil : bs = []
        · simp only [hnil, List.length_nil]
          omega
        · have := hbs hnil
          omega
      · rintro ⟨hbs, hQ⟩
        have := hbs (List.cons_ne_nil b bs)
        exact ⟨by omega, fun _ => by omega, hQ⟩

theorem stored_above {bs : List UInt8} {m : Mem} (h : a + bs.length ≤ n) :
    stored m a bs n = m n := by
  induction bs generalizing a m with
  | nil => rfl
  | cons b bs ih =>
      rw [List.length_cons] at h
      rw [stored, ih (by omega), Function.update_of_ne (by omega)]

theorem terminated_of_wp {k : Nat} {Q : List UInt8 → State → Prop}
    (h : wp (loadString c k a) Q Never s) : Terminated c s.mem a ∧ ∃ t, Q t s := by
  induction k generalizing a Q with
  | zero => exact absurd ((wp_stop _).1 h) id
  | succ k ih =>
      simp only [loadString, wp_bind, wp_load, wp_ite, wp_pure] at h
      obtain ⟨ha, hzero, hmore⟩ := h
      by_cases hb : s.mem a = 0
      · exact ⟨⟨a, Nat.le_refl _, ha, hb⟩, [], hzero hb⟩
      · obtain ⟨⟨b, hab, hb, hmem⟩, t, ht⟩ := ih (hmore hb)
        exact ⟨⟨b, by omega, hb, hmem⟩, _, ht⟩

theorem wp_loadString {k : Nat} {Q : List UInt8 → State → Prop} (h : Terminated c s.mem a)
    (hk : c.proc.sz < a + k) (hQ : ∀ t, Q t s) : wp (loadString c k a) Q Never s := by
  induction k generalizing a Q with
  | zero =>
      obtain ⟨b, hab, hb, -⟩ := h
      omega
  | succ k ih =>
      obtain ⟨b, hab, hb, hmem⟩ := h
      simp only [loadString, wp_bind, wp_load, wp_ite, wp_pure]
      refine ⟨by omega, fun _ => hQ [], fun hne => ih ⟨b, ?_, hb, hmem⟩ (by omega) fun t => hQ _⟩
      rcases Nat.lt_or_eq_of_le hab with hlt | rfl
      · exact hlt
      · exact absurd hmem hne

theorem wp_liftWm {α : Type} {m : Wm.M α} {Q : α → State → Prop} : wp (liftWm m) Q Never s ↔
    wp m (fun r wm => Q r { s with wm }) Wm.Never s.wm := by
  unfold wp liftWm
  dsimp only
  cases m.run s.wm with
  | ok r wm => exact Iff.rfl
  | fail e wm => exact Iff.rfl

end Memory

/-! ## `clear_window` -/

section Clear

variable {c} {m : Mem} {win i n : Nat}

theorem PixelCount.unique {k : Nat} (hn : PixelCount m win n) (hk : PixelCount m win k) :
    n = k := by
  rcases Nat.lt_trichotomy n k with hlt | heq | hgt
  · have := hk.1 n hlt
    have := hn.2
    omega
  · exact heq
  · have := hn.1 k hgt
    have := hk.2
    omega

theorem HasPixel.lt (h : HasPixel m win i) (hn : PixelCount m win n) : i < n := by
  by_contra hle
  have := h n (by omega)
  have := hn.2
  omega

/-- A round. -/
theorem wp_clearWindowLoop_succ (hwin : win + sizeofWindow ≤ c.proc.sz) {k : Nat} {s : State}
    {Q : Unit → State → Prop} : wp (clearWindowLoop c win (k + 1) i) Q Never s ↔
      if (i : Int) < pixels s.mem win then
        pixel s.mem win i + 3 ≤ c.proc.sz ∧ wp (clearWindowLoop c win k (i + 1)) Q Never
          { s with mem := coloured s.mem (pixel s.mem win i) }
      else Q () s := by
  simp only [sizeofWindow] at hwin
  have hbuf : win + 24 + 8 ≤ c.proc.sz := by omega
  have hwidth : win + 32 + 4 ≤ c.proc.sz := by omega
  have hheight : win + 36 + 4 ≤ c.proc.sz := by omega
  simp only [clearWindowLoop, wp_bind, wp_loadInt, wp_ite, loadWindowBuf, wp_loadBytes, wp_store,
    wp_pure, hwidth, hheight, hbuf, true_and, implies_true]
  unfold pixels pixel coloured
  split
  · rename_i hlt
    simp only [hlt, not_true_eq_false, forall_const, false_implies, and_true]
    constructor
    · rintro ⟨h2, h1, h0, hrest⟩
      exact ⟨by omega, hrest⟩
    · rintro ⟨h3, hrest⟩
      exact ⟨by omega, by omega, by omega, hrest⟩
  · rename_i hle
    simp only [hle, not_false_eq_true, forall_const, false_implies, true_and]

/-- From round `i` on, the loop colours the pixels that are left. -/
theorem wp_clearWindowLoop (hwin : win + sizeofWindow ≤ c.proc.sz) {k : Nat} {s : State}
    {Q : Unit → State → Prop} (hk : i + k = 2147483648) (hmem : s.mem = canvas m win i)
    (hdone : ∀ j < i, (j : Int) < pixels (canvas m win j) win) :
    wp (clearWindowLoop c win k i) Q Never s ↔
      (∀ j, i ≤ j → HasPixel m win j → pixel (canvas m win j) win j + 3 ≤ c.proc.sz) ∧
        ∀ n, PixelCount m win n → Q () { s with mem := canvas m win n } := by
  have hstop : ∀ {i : Nat} {s : State}, s.mem = canvas m win i →
      (∀ j < i, (j : Int) < pixels (canvas m win j) win) → pixels (canvas m win i) win ≤ i →
      (Q () s ↔ (∀ j, i ≤ j → HasPixel m win j → pixel (canvas m win j) win j + 3 ≤ c.proc.sz) ∧
        ∀ n, PixelCount m win n → Q () { s with mem := canvas m win n }) := by
    intro i s hmem hdone hle
    have hcount : PixelCount m win i := ⟨hdone, hle⟩
    have hsame : { s with mem := canvas m win i } = s := by rw [← hmem]
    constructor
    · intro hQ
      refine ⟨fun j hij hpix => ?_, fun n hn => ?_⟩
      · have := hpix.lt hcount
        omega
      · rw [hn.unique hcount, hsame]
        exact hQ
    · rintro ⟨-, hQ⟩
      rw [← hsame]
      exact hQ i hcount
  induction k generalizing i s with
  | zero =>
      have hlt := (int_bounds (intAt (canvas m win i) (win + 32) *
        intAt (canvas m win i) (win + 36))).2
      rw [clearWindowLoop, wp_pure]
      exact hstop hmem hdone (by unfold pixels; omega)
  | succ k ih =>
      rw [wp_clearWindowLoop_succ hwin, hmem]
      split
      · rename_i hpix
        have hdone' : ∀ j < i + 1, (j : Int) < pixels (canvas m win j) win := by
          intro j hj
          rcases Nat.lt_succ_iff_lt_or_eq.1 hj with hj | rfl
          · exact hdone j hj
          · exact hpix
        have hhas : HasPixel m win i := fun j hj => hdone' j (by omega)
        have hrest := ih (s := { s with mem := canvas m win (i + 1) }) (by omega) rfl hdone'
        refine (and_congr_right fun _ => hrest).trans ?_
        constructor
        · rintro ⟨hpixel, hlater, hQ⟩
          refine ⟨fun j hij hj => ?_, hQ⟩
          rcases Nat.lt_or_eq_of_le hij with hlt | rfl
          · exact hlater j hlt hj
          · exact hpixel
        · rintro ⟨hall, hQ⟩
          exact ⟨hall i (Nat.le_refl i) hhas, fun j hij => hall j (by omega), hQ⟩
      · exact hstop hmem hdone (by omega)

theorem exists_pixelCount (m : Mem) (win : Nat) : ∃ n, PixelCount m win n := by
  have hend : ∃ n : Nat, pixels (canvas m win n) win ≤ n := by
    refine ⟨2147483648, ?_⟩
    have := (int_bounds (intAt (canvas m win 2147483648) (win + 32) *
      intAt (canvas m win 2147483648) (win + 36))).2
    unfold pixels
    omega
  refine ⟨Nat.find hend, fun i hi => ?_, Nat.find_spec hend⟩
  have := Nat.find_min hend hi
  omega

theorem canvas_above {sz : Nat} (h : ∀ i < n, pixel (canvas m win i) win i + 3 ≤ sz) {a : Nat}
    (ha : sz ≤ a) : canvas m win n a = m a := by
  induction n with
  | zero => rfl
  | succ n ih =>
      have hpixel := h n (Nat.lt_succ_self n)
      rw [canvas, coloured, Function.update_of_ne (by omega), Function.update_of_ne (by omega),
        Function.update_of_ne (by omega)]
      exact ih fun i hi => h i (by omega)

/-- `clear_window`, for a struct in the process. -/
theorem wp_clearWindow (hwin : win + sizeofWindow ≤ c.proc.sz) {s : State}
    {Q : Unit → State → Prop} : wp (clearWindow c win) Q Never s ↔
      (∀ i, HasPixel s.mem win i → pixel (canvas s.mem win i) win i + 3 ≤ c.proc.sz) ∧
        ∀ n, PixelCount s.mem win n → Q () { s with mem := canvas s.mem win n } := by
  have h := wp_clearWindowLoop (Q := Q) (m := s.mem) (i := 0) (s := s) (k := 2147483648) hwin
    (by omega) rfl nofun
  unfold clearWindow
  simpa only [Nat.zero_le, forall_const] using h

theorem not_wp_clearWindow (hwin : c.proc.sz ≤ win) {s : State} {Q : Unit → State → Prop} :
    ¬wp (clearWindow c win) Q Never s := by
  have hround : ∀ k, ¬wp (clearWindowLoop c win (k + 1) 0) Q Never s := by
    intro k h
    simp only [clearWindowLoop, wp_bind, wp_loadInt] at h
    omega
  exact hround 2147483647

end Clear

/-! ## The list -/

section List

variable {w : Wm.State} {i v : Int}

theorem touch_iff {a : Wm.Access} {Q : Unit → Wm.State → Prop} :
    wp (Wm.touch a) Q Wm.Never w ↔
      Slot Wm.MAX_WINDOW_CNT a.index ∧ Q () { w with touched := a :: w.touched } := by
  by_cases ha : Slot Wm.MAX_WINDOW_CNT a.index
  · simp [Wm.touch, ha]
  · simp [Wm.touch, ha]

theorem getNext_iff {Q : Int → Wm.State → Prop} : wp (Wm.getNext i) Q Wm.Never w ↔
    Slot Wm.MAX_WINDOW_CNT i ∧ Q (w.links.next i) { w with touched := .link i :: w.touched } := by
  simp only [Wm.getNext, wp_bind, touch_iff, wp_get, wp_pure, Wm.Access.index]

theorem getPrev_iff {Q : Int → Wm.State → Prop} : wp (Wm.getPrev i) Q Wm.Never w ↔
    Slot Wm.MAX_WINDOW_CNT i ∧ Q (w.links.prev i) { w with touched := .link i :: w.touched } := by
  simp only [Wm.getPrev, wp_bind, touch_iff, wp_get, wp_pure, Wm.Access.index]

theorem setNext_iff {Q : Unit → Wm.State → Prop} : wp (Wm.setNext i v) Q Wm.Never w ↔
    Slot Wm.MAX_WINDOW_CNT i ∧ Q () { w with
      links.next := Function.update w.links.next i v, touched := .link i :: w.touched } := by
  simp only [Wm.setNext, wp_bind, touch_iff, wp_modify, Wm.Access.index]

theorem setPrev_iff {Q : Unit → Wm.State → Prop} : wp (Wm.setPrev i v) Q Wm.Never w ↔
    Slot Wm.MAX_WINDOW_CNT i ∧ Q () { w with
      links.prev := Function.update w.links.prev i v, touched := .link i :: w.touched } := by
  simp only [Wm.setPrev, wp_bind, touch_iff, wp_modify, Wm.Access.index]

theorem setEntry_iff {f : Wm.Entry → Wm.Entry} {Q : Unit → Wm.State → Prop} :
    wp (Wm.setEntry i f) Q Wm.Never w ↔ Slot Wm.MAX_WINDOW_CNT i ∧ Q () { w with
      windowlist := Function.update w.windowlist i (f (w.windowlist i))
      touched := .window i :: w.touched } := by
  simp only [Wm.setEntry, wp_bind, touch_iff, wp_modify, Wm.Access.index]

theorem addToWindowList_iff {P : Prop} : wp (Wm.addToWindowList i) (fun _ _ => P) Wm.Never w ↔
    Slot Wm.MAX_WINDOW_CNT i ∧ LinkOk w.links.tail ∧ P := by
  simp only [Wm.addToWindowList, Wm.setTail, wp_bind, wp_get, setPrev_iff, setNext_iff, wp_ite,
    wp_modify, LinkOk]
  grind

theorem focusWindow_iff : wp (Wm.focusWindow i) (fun _ _ => True) Wm.Never w ↔
    Focusable w.links i := by
  simp only [Wm.focusWindow, Wm.setHead, wp_bind, wp_get, getPrev_iff, getNext_iff, setPrev_iff,
    setNext_iff, wp_ite, wp_modify, wp_pure, addToWindowList_iff, Focusable]
  grind

theorem removeFromWindowList_iff {P : Prop} :
    wp (Wm.removeFromWindowList i) (fun _ _ => P) Wm.Never w ↔
      Slot Wm.MAX_WINDOW_CNT i ∧ LinkOk (w.links.prev i) ∧ LinkOk (w.links.next i) ∧ P := by
  have hprev : ∀ w : Wm.State, wp (Wm.bypassPrev i) (fun _ _ => P) Wm.Never w ↔
      Slot Wm.MAX_WINDOW_CNT i ∧ LinkOk (w.links.next i) ∧ P := by
    intro w
    simp only [Wm.bypassPrev, wp_bind, getPrev_iff, getNext_iff, setPrev_iff, wp_ite, wp_pure,
      LinkOk]
    grind
  have hnext : ∀ w : Wm.State, wp (do Wm.bypassNext i; Wm.bypassPrev i) (fun _ _ => P) Wm.Never w ↔
      Slot Wm.MAX_WINDOW_CNT i ∧ LinkOk (w.links.prev i) ∧ LinkOk (w.links.next i) ∧ P := by
    intro w
    simp only [Wm.bypassNext, wp_bind, getPrev_iff, getNext_iff, setNext_iff, wp_ite, wp_pure,
      hprev, LinkOk, Function.update_apply]
    grind
  rw [Wm.removeFromWindowList, wp_bind]
  simp only [hnext, Wm.leaveTail, Wm.setTail, wp_bind, wp_get, getPrev_iff, wp_ite, wp_pure,
    wp_modify]
  grind

theorem closeWindow_iff : wp (Wm.closeWindow i) (fun _ _ => True) Wm.Never w ↔
    Slot Wm.MAX_WINDOW_CNT i ∧ LinkOk (w.links.prev i) ∧ LinkOk (w.links.next i) := by
  rw [Wm.closeWindow, wp_bind]
  simp only [wp_bind, wp_get, setPrev_iff, setNext_iff, setEntry_iff, wp_ite, wp_pure, getPrev_iff,
    focusWindow_iff, Function.update_self, Focusable]
  constructor
  · intro h
    obtain ⟨hslot, hprev, hnext, -⟩ := removeFromWindowList_iff.1 (wp_imp h fun _ _ _ => trivial)
    exact ⟨hslot, hprev, hnext⟩
  · rintro ⟨hslot, hprev, hnext⟩
    -- The entry is linked to itself now: if it is still the tail `focusWindow` does nothing.
    refine wp_imp (removeFromWindowList_iff.2 ⟨hslot, hprev, hnext, hslot⟩) fun _ s' _ => ?_
    exact ⟨hslot, hslot, hslot, fun htail => ⟨hslot, .inr (.inl htail)⟩, fun _ => trivial⟩

theorem minimizeWindow_iff : wp (Wm.minimizeWindow i) (fun _ _ => True) Wm.Never w ↔
    Slot Wm.MAX_WINDOW_CNT i ∧ (i = w.links.tail → Focusable w.links (w.links.prev i)) := by
  simp only [Wm.minimizeWindow, wp_bind, wp_get, setEntry_iff, wp_ite, wp_pure, getPrev_iff,
    focusWindow_iff]
  grind

theorem maximizeWindow_iff : wp (Wm.maximizeWindow i) (fun _ _ => True) Wm.Never w ↔
    Slot Wm.MAX_WINDOW_CNT i ∧ Focusable w.links i := by
  simp only [Wm.maximizeWindow, wp_bind, setEntry_iff, focusWindow_iff]

theorem createWindow_iff {win : Wm.UserWindow} {title : List UInt8} {slot : Nat}
    (hfree : Wm.findNextAvailableWindowId w ≠ -1) :
    wp (Wm.createWindow win title slot) (fun _ _ => True) Wm.Never w ↔
      Slot Wm.MAX_WINDOW_CNT (Wm.findNextAvailableWindowId w) ∧ LinkOk w.links.tail := by
  rw [Wm.createWindow, wp_bind, wp_get, if_neg hfree]
  generalize Wm.findNextAvailableWindowId w = winId
  simp only [Wm.startList, Wm.setHead, Wm.setDesktop, wp_bind, wp_get, wp_ite, wp_modify, wp_pure,
    setEntry_iff, and_true, Classical.imp_and_neg_imp_iff, addToWindowList_iff]
  tauto

/-- Entry `i` is changed by `f`, and no other is used. -/
def SetsEntry (i : Int) (f : Wm.Entry → Wm.Entry) (w w' : Wm.State) : Prop :=
  w'.windowlist = Function.update w.windowlist i (f (w.windowlist i)) ∧
    ∀ j, .window j ∈ w'.touched ↔ j = i ∨ .window j ∈ w.touched

/-- Links, entry `i`, and links again. -/
theorem wp_setsEntry {m : Wm.M Unit} {f : Wm.Entry → Wm.Entry} (hm : Preserves Wm.LinksOnly m) :
    wp (do Wm.setEntry i f; m) (fun _ w' => SetsEntry i f w w') (fun _ _ => True) w := by
  unfold Wm.setEntry Wm.touch
  rw [wp_bind, wp_bind, wp_ite]
  refine ⟨fun _ => ?_, fun _ => (wp_stop _).2 trivial⟩
  rw [wp_modify, wp_modify]
  refine wp_mono (hm.wp _) (fun _ w' hlinks => ⟨hlinks.windowlist, fun j => ?_⟩) fun _ _ _ =>
    trivial
  simp [hlinks.touched]

theorem SetsEntry.links {f : Wm.Entry → Wm.Entry} {w₁ w' : Wm.State} (h : SetsEntry i f w₁ w')
    (hlinks : Wm.LinksOnly w w₁) : SetsEntry i f w w' := by
  obtain ⟨hlist, htouched⟩ := h
  rw [hlinks.windowlist] at hlist
  exact ⟨hlist, fun j => (htouched j).trans (or_congr_right (hlinks.touched j))⟩

theorem closeWindow_sets : wp (Wm.closeWindow i) (fun _ w' => SetsEntry i
    (fun w => { w with
      wnd.msgBuf := Wm.initMessageQueue w.wnd.msgBuf
      wnd.title := List.replicate Wm.MAX_TITLE_LEN 0 }) w w') (fun _ _ => True) w := by
  have hlast : Preserves Wm.LinksOnly (do
      if i = (← get).links.tail then Wm.focusWindow (← Wm.getPrev i)) :=
    .bind .get fun _ => .ite
      (.bind (Wm.getPrev_linksOnly i) fun _ => Wm.focusWindow_linksOnly _) (.pure ())
  unfold Wm.closeWindow
  rw [wp_bind]
  refine wp_mono ((Wm.removeFromWindowList_linksOnly i).wp w) ?_ fun _ _ _ => trivial
  intro _ w₁ h₁
  rw [wp_bind]
  refine wp_mono ((Wm.setPrev_linksOnly i i).wp w₁) ?_ fun _ _ _ => trivial
  intro _ w₂ h₂
  rw [wp_bind]
  refine wp_mono ((Wm.setNext_linksOnly i i).wp w₂) ?_ fun _ _ _ => trivial
  intro _ w₃ h₃
  have hlinks := trans_of Wm.LinksOnly (trans_of Wm.LinksOnly h₁ h₂) h₃
  exact wp_imp (wp_setsEntry hlast) fun _ w' h => h.links hlinks

theorem minimizeWindow_sets : wp (Wm.minimizeWindow i)
    (fun _ w' => SetsEntry i (fun w => { w with wnd.minimized := 1 }) w w') (fun _ _ => True) w :=
  wp_setsEntry (.bind .get fun _ => .ite
    (.bind (Wm.getPrev_linksOnly i) fun _ => Wm.focusWindow_linksOnly _) (.pure ()))

theorem maximizeWindow_sets : wp (Wm.maximizeWindow i)
    (fun _ w' => SetsEntry i (fun w => { w with wnd.minimized := 0 }) w w') (fun _ _ => True) w :=
  wp_setsEntry (Wm.focusWindow_linksOnly i)

end List

/-! ## The calls -/

section Calls

variable {c} {s : State}

theorem pointer_eq {n size junk : Nat} (hsize : 0 < size) (hlt : size < 2147483648) :
    pointer c n size junk = if (c.tf n).toNat + size ≤ c.proc.sz then (c.tf n).toNat else junk := by
  have hfits := c.proc.fits
  have hword := UInt64.toNat_lt (c.tf n)
  simp only [PHYSTOP] at hfits
  unfold pointer argptr uintp
  dsimp only
  by_cases h : (c.tf n).toNat + size ≤ c.proc.sz
  · rw [if_pos h, if_neg (by omega), Option.getD_some]
  · rw [if_neg h, if_pos (by omega), Option.getD_none]

/-- A call that changes one entry, and not whose it is, is confined if the entry is the caller's. -/
theorem confined_sets_iff {f : Wm.Entry → Wm.Entry} (hf : ∀ e, (f e).proc = e.proc) {h : Int}
    {w' : Wm.State} (hsets : SetsEntry h f { s.wm with touched := [] } w') {m : Mem}
    (hm : ∀ a, c.proc.sz ≤ a → m a = s.mem a) :
    Confined c s ⟨w', m⟩ 0 ↔ (s.wm.windowlist h).proc = some c.slot := by
  obtain ⟨hlist, htouched⟩ := hsets
  dsimp only at hlist htouched
  have hproc : (w'.windowlist h).proc = (s.wm.windowlist h).proc := by
    rw [hlist, Function.update_self, hf]
  constructor
  · intro hconf
    rcases hconf.windows h ((htouched h).2 (.inl rfl)) with hmine | ⟨-, hmine⟩
    · exact hmine
    · exact hproc.symm.trans hmine
  · intro hmine
    refine ⟨fun j hj => ?_, fun j hj => ?_, hm, fun hr => absurd rfl hr⟩
    · rcases (htouched j).1 hj with rfl | hj
      · exact .inl hmine
      · cases hj
    · have hne : j ≠ h := by
        rintro rfl
        exact hj (.inl hmine)
      dsimp only
      rw [hlist, Function.update_of_ne hne]

/-- The calls that get a handler: `op` uses its entry, and `k` ends the call. -/
theorem handlerCall_iff {op : Int → Wm.M Unit} {k : Nat → M Int} {f : Wm.Entry → Wm.Entry}
    {C : Links Int → Int → Prop} {g : Nat → Mem → Mem}
    (hsafe : ∀ i w, wp (op i) (fun _ _ => True) Wm.Never w ↔
      Slot Wm.MAX_WINDOW_CNT i ∧ C w.links i)
    (hsets : ∀ i w, wp (op i) (fun _ w' => SetsEntry i f w w') (fun _ _ => True) w)
    (hf : ∀ e, (f e).proc = e.proc)
    (hk : ∀ p t Q, p + sizeofWindow ≤ c.proc.sz →
      (wp (k p) Q Never t ↔ Q 0 { t with mem := g p t.mem }))
    (hg : ∀ p m a, p + sizeofWindow ≤ c.proc.sz → c.proc.sz ≤ a → g p m a = m a) :
    (∀ junk : Nat → Nat, wp (do
        let winId ← loadHandler c (pointer c 0 sizeofWindow (junk 0))
        liftWm (op winId)
        k (pointer c 0 sizeofWindow (junk 0)))
      (fun r s' => Confined c s s' r) Never { s with wm.touched := [] }) ↔
      (c.tf 0).toNat + sizeofWindow ≤ c.proc.sz ∧
        Mine c s.wm (intAt s.mem ((c.tf 0).toNat + 48)) ∧
        C s.wm.links (intAt s.mem ((c.tf 0).toNat + 48)) := by
  by_cases hwin : (c.tf 0).toNat + sizeofWindow ≤ c.proc.sz
  · have hp : ∀ junk, pointer c 0 sizeofWindow junk = (c.tf 0).toNat := fun junk => by
      rw [pointer_eq (by decide) (by decide), if_pos hwin]
    have h48 : (c.tf 0).toNat + 48 + 4 ≤ c.proc.sz := by
      simp only [sizeofWindow] at hwin
      omega
    simp only [hp, wp_bind, loadHandler, wp_loadInt, wp_liftWm, hk _ _ _ hwin, hwin, h48, true_and,
      forall_const]
    generalize intAt s.mem ((c.tf 0).toNat + 48) = h
    have hconf : ∀ w', SetsEntry h f { s.wm with touched := [] } w' →
        (Confined c s ⟨w', g (c.tf 0).toNat s.mem⟩ 0 ↔ (s.wm.windowlist h).proc = some c.slot) :=
      fun w' hw' => confined_sets_iff hf hw' fun a => hg _ _ a hwin
    constructor
    · intro hcall
      obtain ⟨hslot, hC⟩ := (hsafe h _).1 (wp_imp hcall fun _ _ _ => trivial)
      obtain ⟨_, w', hrun, hw'⟩ := returns_of_wp hcall
      have hset := ok_of_wp (hsets h { s.wm with touched := [] }) hrun
      exact ⟨⟨hslot, (hconf w' hset).1 hw'⟩, hC⟩
    · rintro ⟨⟨hslot, hmine⟩, hC⟩
      have hrun := (hsafe h { s.wm with touched := [] }).2 ⟨hslot, hC⟩
      exact wp_mono (wp_and (hsets h _) hrun) (fun _ w' hw' => (hconf w' hw'.1).2 hmine)
        fun _ _ hE => hE.2
  · have hp : ∀ junk, pointer c 0 sizeofWindow junk = junk := fun junk => by
      rw [pointer_eq (by decide) (by decide), if_neg hwin]
    constructor
    · intro hall
      -- The pointer may hold an address that is not in the process.
      have hbad := hall fun _ => c.proc.sz
      simp only [hp, wp_bind, loadHandler, wp_loadInt] at hbad
      omega
    · rintro ⟨hin, -⟩
      exact absurd hin hwin

theorem closeCall_iff : Harmless c s .closeWindow ↔ Call.closeWindow.Fits c s := by
  refine handlerCall_iff (k := fun p => do
    storeHandler c p (-1)
    return 0) (g := fun p m => stored m (p + 48) (intBytes (-1)))
    (C := fun k i => LinkOk (k.prev i) ∧ LinkOk (k.next i)) (fun _ _ => closeWindow_iff)
    (fun _ _ => closeWindow_sets) (fun _ => rfl) ?_ ?_
  · intro p t Q hp
    have h48 : p + 48 + 4 ≤ c.proc.sz := by
      simp only [sizeofWindow] at hp
      omega
    simp only [storeHandler, wp_bind, wp_storeBytes, wp_pure]
    exact and_iff_right fun _ => h48
  · intro p m a hp ha
    refine stored_above ?_
    simp only [sizeofWindow, intBytes, List.length_cons, List.length_nil] at hp ⊢
    omega

theorem minimizeCall_iff : Harmless c s .minimizeWindow ↔ Call.minimizeWindow.Fits c s :=
  handlerCall_iff (k := fun _ => return 0) (g := fun _ m => m)
    (C := fun k i => i = k.tail → Focusable k (k.prev i)) (fun _ _ => minimizeWindow_iff)
    (fun _ _ => minimizeWindow_sets) (fun _ => rfl) (fun _ _ _ _ => wp_pure _)
    fun _ _ _ _ _ => rfl

theorem maximizeCall_iff : Harmless c s .maximizeWindow ↔ Call.maximizeWindow.Fits c s :=
  handlerCall_iff (k := fun _ => return 0) (g := fun _ m => m) (C := Focusable)
    (fun _ _ => maximizeWindow_iff) (fun _ _ => maximizeWindow_sets) (fun _ => rfl)
    (fun _ _ _ _ => wp_pure _) fun _ _ _ _ _ => rfl

/-- A call that returns an error without having used a window. -/
theorem confined_error {r : Int} {m : Mem} (hm : ∀ a, c.proc.sz ≤ a → m a = s.mem a) :
    Confined c s ⟨{ s.wm with touched := [] }, m⟩ r := by
  refine ⟨fun i hi => ?_, fun _ _ => rfl, hm, fun _ => rfl⟩
  cases hi

theorem wp_ownerOf {h : Int} {Q : Option Nat → State → Prop} : wp (ownerOf h) Q Never s ↔
    Slot Wm.MAX_WINDOW_CNT h ∧ Q (s.wm.windowlist h).proc s := by
  by_cases hh : Slot Wm.MAX_WINDOW_CNT h
  · simp [ownerOf, hh]
  · simp [ownerOf, hh]

theorem wp_getWnd {h : Int} {Q : Wm.KernelWindow → Wm.State → Prop} {w : Wm.State} :
    wp (Wm.getWnd h) Q Wm.Never w ↔ Slot Wm.MAX_WINDOW_CNT h ∧
      Q (w.windowlist h).wnd { w with touched := .window h :: w.touched } := by
  simp only [Wm.getWnd, wp_bind, touch_iff, wp_get, wp_pure, Wm.Access.index]

/-- The bytes of a message. -/
def messageBytes (msg : Wm.Message) : List UInt8 :=
  intBytes msg.msgType ++ (List.ofFn msg.params).flatMap intBytes

theorem length_messageBytes (msg : Wm.Message) : (messageBytes msg).length = sizeofMessage := by
  simp [messageBytes, intBytes, List.flatMap]

theorem wp_storeMessage {p : Nat} {msg : Wm.Message} {Q : Unit → State → Prop} :
    wp (storeMessage c p msg) Q Never s ↔ p + sizeofMessage ≤ c.proc.sz ∧
      Q () { s with mem := stored s.mem p (messageBytes msg) } := by
  have hne : messageBytes msg ≠ [] := by
    intro hnil
    have := length_messageBytes msg
    rw [hnil] at this
    cases this
  change wp (storeBytes c p (messageBytes msg)) Q Never s ↔ _
  rw [wp_storeBytes, length_messageBytes]
  simp only [ne_eq, hne, not_false_eq_true, forall_const]

/-- `getMessage`, when there is no message and when there is one. -/
theorem wp_getMessage {h : Int} {p : Nat} {Q : Int → State → Prop} :
    wp (getMessage c h p) Q Never s ↔ Slot Wm.MAX_WINDOW_CNT h ∧
      ((s.wm.windowlist h).wnd.msgBuf.cnt = 0 →
        Q 1 { s with wm.touched := .window h :: s.wm.touched }) ∧
      ((s.wm.windowlist h).wnd.msgBuf.cnt ≠ 0 → p + sizeofMessage ≤ c.proc.sz ∧
        Q 0 ⟨{ s.wm with
          windowlist := Function.update s.wm.windowlist h { s.wm.windowlist h with
            wnd.msgBuf := takeMessage (s.wm.windowlist h).wnd.msgBuf }
          touched := .window h :: .window h :: s.wm.touched },
          stored s.mem p (messageBytes ((s.wm.windowlist h).wnd.msgBuf.data
            (s.wm.windowlist h).wnd.msgBuf.front))⟩) := by
  simp only [getMessage, wp_bind, wp_liftWm, wp_getWnd, wp_ite, wp_pure, wp_storeMessage,
    setEntry_iff]
  tauto

/-- What `getMessage` does to the caller's own entry. -/
theorem confined_getMessage {h : Int} {p : Nat} (hslot : Slot Wm.MAX_WINDOW_CNT h)
    (hmine : (s.wm.windowlist h).proc = some c.slot) :
    wp (getMessage c h p) (fun r s' => Confined c s s' r) Never { s with wm.touched := [] } ↔
      ((s.wm.windowlist h).wnd.msgBuf.cnt ≠ 0 → p + sizeofMessage ≤ c.proc.sz) := by
  have hnone : Confined c s { s with wm.touched := [.window h] } 1 := by
    refine ⟨fun j hj => ?_, fun _ _ => rfl, fun _ _ => rfl, fun _ => rfl⟩
    cases List.mem_singleton.1 hj
    exact .inl hmine
  rw [wp_getMessage]
  constructor
  · rintro ⟨-, -, hsome⟩ hcnt
    exact (hsome hcnt).1
  · intro hres
    refine ⟨hslot, fun _ => hnone, fun hcnt => ⟨hres hcnt, ?_⟩⟩
    refine (confined_sets_iff (h := h)
      (f := fun w => { w with wnd.msgBuf := takeMessage w.wnd.msgBuf }) (fun _ => rfl) ⟨rfl, ?_⟩
      fun a ha => stored_above ?_).2 hmine
    · intro j
      simp
    · rw [length_messageBytes]
      exact Nat.le_trans (hres hcnt) ha

theorem getMessageCall_iff : Harmless c s .getMessage ↔ Call.getMessage.Fits c s := by
  simp only [Harmless, Call.Fits, Call.sys, wp_bind, wp_ownerOf, wp_ite, wp_pure]
  generalize argint c.tf 0 = h
  have hp : ∀ junk, pointer c 1 sizeofMessage junk =
      if (c.tf 1).toNat + sizeofMessage ≤ c.proc.sz then (c.tf 1).toNat else junk :=
    fun junk => pointer_eq (by decide) (by decide)
  constructor
  · intro hall
    obtain ⟨hslot, -, hget⟩ := hall fun _ => c.proc.sz
    refine ⟨hslot, fun hmine hcnt => ?_⟩
    have hres := (confined_getMessage hslot hmine).1 (hget (not_not.2 hmine)) hcnt
    rw [hp] at hres
    by_contra hout
    rw [if_neg hout] at hres
    simp only [sizeofMessage] at hres
    omega
  · rintro ⟨hslot, hget⟩ junk
    refine ⟨hslot, fun _ => confined_error fun _ _ => rfl, fun hmine => ?_⟩
    refine (confined_getMessage hslot (not_not.1 hmine)).2 fun hcnt => ?_
    have hres := hget (not_not.1 hmine) hcnt
    rw [hp, if_pos hres]
    exact hres

/-- What `loadWindow` reads. -/
def windowAt (m : Mem) (win : Nat) : Wm.UserWindow :=
  ⟨⟨intAt m win, intAt m (win + 4), intAt m (win + 8), intAt m (win + 12)⟩, intAt m (win + 16),
    bytesAt m (win + 24) 8, intAt m (win + 32), intAt m (win + 36), intAt m (win + 48)⟩

theorem wp_loadWindow {win : Nat} (hwin : win + sizeofWindow ≤ c.proc.sz)
    {Q : Wm.UserWindow → State → Prop} :
    wp (loadWindow c win) Q Never s ↔ Q (windowAt s.mem win) s := by
  have hfield : ∀ {a n : Nat}, a ≤ win + 48 → n ≤ 8 → a + n ≤ c.proc.sz := by
    intro a n ha hn
    simp only [sizeofWindow] at hwin
    omega
  simp only [loadWindow, loadHandler, loadWindowBuf, wp_bind, wp_loadInt, wp_loadBytes, wp_pure,
    windowAt]
  constructor
  · rintro ⟨-, -, -, -, -, -, -, -, -, hQ⟩
    exact hQ
  · intro hQ
    refine ⟨hfield ?_ ?_, hfield ?_ ?_, hfield ?_ ?_, hfield ?_ ?_, hfield ?_ ?_,
      fun _ => hfield ?_ ?_, hfield ?_ ?_, hfield ?_ ?_, hfield ?_ ?_, hQ⟩
    all_goals omega

theorem findNextAvailableWindowId_free {w : Wm.State} (h : Wm.findNextAvailableWindowId w ≠ -1) :
    Slot Wm.MAX_WINDOW_CNT (Wm.findNextAvailableWindowId w) ∧
      Wm.Free w (Wm.findNextAvailableWindowId w) := by
  unfold Wm.findNextAvailableWindowId Links.findSelf at h ⊢
  cases hfind : (slots Wm.MAX_WINDOW_CNT).find?
      fun i => w.links.prev i = i ∧ w.links.next i = i with
  | none =>
      rw [hfind] at h
      exact absurd rfl h
  | some i =>
      have hself := List.find?_some hfind
      rw [decide_eq_true_eq] at hself
      exact ⟨mem_slots.1 (List.mem_of_find?_eq_some hfind), hself⟩

/-- What `create_window` does to the window manager. -/
theorem confined_createWindow {win : Wm.UserWindow} {title : List UInt8} {m : Mem}
    (hfree : Wm.findNextAvailableWindowId s.wm ≠ -1)
    (hm : ∀ a, c.proc.sz ≤ a → m a = s.mem a) :
    wp (Wm.createWindow win title c.slot) (fun _ w' => Confined c s ⟨w', m⟩ 0) Wm.Never
      { s.wm with touched := [] } ↔ LinkOk s.wm.links.tail := by
  obtain ⟨hslot, hself⟩ := findNextAvailableWindowId_free hfree
  have hsafe : wp (Wm.createWindow win title c.slot) (fun _ _ => True) Wm.Never
      { s.wm with touched := [] } ↔ _ := createWindow_iff hfree
  constructor
  · intro h
    exact (hsafe.1 (wp_imp h fun _ _ _ => trivial)).2
  · intro htail
    have hentry := Wm.createWindow_entry win title c.slot { s.wm with touched := [] }
    refine wp_mono (wp_and hentry (hsafe.2 ⟨hslot, htail⟩)) ?_ fun _ _ hE => hE.2
    rintro r w' ⟨⟨hfull, -⟩ | ⟨-, rfl, hlist, -, htouched⟩, -⟩
    · exact absurd hfull hfree
    · dsimp only at hlist htouched
      change w'.windowlist = Function.update s.wm.windowlist (Wm.findNextAvailableWindowId s.wm) _
        at hlist
      change ∀ i, Wm.Access.window i ∈ w'.touched ↔
        i = Wm.findNextAvailableWindowId s.wm ∨ Wm.Access.window i ∈ [] at htouched
      have hmine : MayUse c s.wm w' (Wm.findNextAvailableWindowId s.wm) := by
        refine .inr ⟨hself, ?_⟩
        rw [hlist, Function.update_self]
        rfl
      refine ⟨fun j hj => ?_, fun j hj => ?_, hm, fun hr => absurd rfl hr⟩
      · rcases (htouched j).1 hj with rfl | hj
        · exact hmine
        · cases hj
      · have hne : j ≠ Wm.findNextAvailableWindowId s.wm := by
          rintro rfl
          exact hj hmine
        dsimp only
        rw [hlist, Function.update_of_ne hne]

/-- `create_window` once the window is coloured, from the memory `m` that is left. -/
theorem wp_afterClear {win title : Nat} {m : Mem} (hwin : win + sizeofWindow ≤ c.proc.sz)
    (hm : ∀ a, c.proc.sz ≤ a → m a = s.mem a) :
    wp (do
        let winId := Wm.findNextAvailableWindowId (← get).wm
        if winId = -1 then return 1
        let win' ← loadWindow c win
        storeHandler c win winId
        let title ← loadString c (c.proc.sz + 1) title
        let _ ← liftWm (Wm.createWindow win' title c.slot)
        return 0) (fun r s' => Confined c s s' r) Never ⟨{ s.wm with touched := [] }, m⟩ ↔
      (Wm.findNextAvailableWindowId s.wm ≠ -1 → LinkOk s.wm.links.tail ∧
        Terminated c (stored m (win + 48) (intBytes (Wm.findNextAvailableWindowId s.wm)))
          title) := by
  have h48 : ∀ v, win + 48 + (intBytes v).length ≤ c.proc.sz := by
    intro v
    simp only [intBytes, List.length_cons, List.length_nil, sizeofWindow] at hwin ⊢
    omega
  have hid : Wm.findNextAvailableWindowId { s.wm with touched := [] } =
    Wm.findNextAvailableWindowId s.wm := rfl
  simp only [wp_bind, wp_get, hid]
  by_cases hfull : Wm.findNextAvailableWindowId s.wm = -1
  · simp only [hfull, if_pos, wp_pure, ne_eq, not_true_eq_false, false_implies, iff_true]
    exact confined_error hm
  · simp only [hfull, if_false, wp_bind, wp_loadWindow hwin, storeHandler, wp_storeBytes, h48,
      wp_liftWm, wp_pure, ne_eq, not_false_eq_true, forall_const, implies_true, true_and]
    generalize hm' : stored m (win + 48) (intBytes (Wm.findNextAvailableWindowId s.wm)) = m'
    have habove : ∀ a, c.proc.sz ≤ a → m' a = s.mem a := by
      intro a ha
      rw [← hm', stored_above (Nat.le_trans (h48 _) ha), hm a ha]
    constructor
    · intro h
      obtain ⟨hterm, t, ht⟩ := terminated_of_wp h
      exact ⟨(confined_createWindow hfull habove).1 ht, hterm⟩
    · rintro ⟨htail, hterm⟩
      exact wp_loadString hterm (by omega) fun t => (confined_createWindow hfull habove).2 htail

theorem PixelCount.hasPixel {m : Mem} {win n i : Nat} (h : PixelCount m win n) (hi : i < n) :
    HasPixel m win i := fun j hj => h.1 j (by omega)

theorem wp_createWindow {win title : Nat} (hwin : win + sizeofWindow ≤ c.proc.sz) :
    wp (createWindow c win title) (fun r s' => Confined c s s' r) Never
        { s with wm.touched := [] } ↔
      (∀ i, HasPixel s.mem win i → pixel (canvas s.mem win i) win i + 3 ≤ c.proc.sz) ∧
        ∀ n, PixelCount s.mem win n → Wm.findNextAvailableWindowId s.wm ≠ -1 →
          LinkOk s.wm.links.tail ∧ Terminated c (stored (canvas s.mem win n) (win + 48)
            (intBytes (Wm.findNextAvailableWindowId s.wm))) title := by
  unfold createWindow
  rw [wp_bind, wp_clearWindow hwin]
  refine and_congr_right fun hpixels => forall_congr' fun n => forall_congr' fun hn => ?_
  refine wp_afterClear hwin fun a ha => canvas_above (fun i hi => ?_) ha
  exact hpixels i (hn.hasPixel hi)

/-- A string that ends in the process starts there, so `argstr` has stored its address. -/
theorem terminated_stringPointer_iff {m : Mem} {n : Nat} :
    (∀ junk, Terminated c m (stringPointer c n junk)) ↔ Terminated c m (c.tf n).toNat := by
  unfold stringPointer
  by_cases hout : c.proc.sz ≤ (c.tf n).toNat
  · simp only [if_pos hout]
    constructor
    · intro hall
      obtain ⟨b, hle, hlt, -⟩ := hall c.proc.sz
      omega
    · rintro ⟨b, hle, hlt, -⟩
      omega
  · simp only [if_neg hout, forall_const]

theorem createCall_iff : Harmless c s .createWindow ↔ Call.createWindow.Fits c s := by
  by_cases hwin : (c.tf 0).toNat + sizeofWindow ≤ c.proc.sz
  · have hp : ∀ junk, pointer c 0 sizeofWindow junk = (c.tf 0).toNat := fun junk => by
      rw [pointer_eq (by decide) (by decide), if_pos hwin]
    simp only [Harmless, Call.sys, Call.Fits, hp, wp_createWindow hwin, hwin, true_and]
    constructor
    · intro hall
      refine ⟨(hall fun _ => 0).1, fun hfree => ?_⟩
      obtain ⟨n, hn⟩ := exists_pixelCount s.mem (c.tf 0).toNat
      refine ⟨((hall fun _ => 0).2 n hn hfree).1, fun n hn => ?_⟩
      refine terminated_stringPointer_iff.1 fun junk => ?_
      exact ((hall fun _ => junk).2 n hn hfree).2
    · rintro ⟨hpixels, hrest⟩ junk
      refine ⟨hpixels, fun n hn hfree => ⟨(hrest hfree).1, ?_⟩⟩
      exact terminated_stringPointer_iff.2 ((hrest hfree).2 n hn) (junk 1)
  · have hp : ∀ junk, pointer c 0 sizeofWindow junk = junk := fun junk => by
      rw [pointer_eq (by decide) (by decide), if_neg hwin]
    constructor
    · intro hall
      have hbad := hall fun _ => c.proc.sz
      simp only [Call.sys, hp] at hbad
      unfold createWindow at hbad
      rw [wp_bind] at hbad
      exact absurd hbad (not_wp_clearWindow (Nat.le_refl _))
    · rintro ⟨hin, -⟩
      exact absurd hin hwin

end Calls

/-- A call does no harm exactly if it meets its condition. -/
theorem confined_iff (c : Caller) (s : State) (call : Call) :
    Harmless c s call ↔ call.Fits c s := by
  cases call with
  | createWindow => exact createCall_iff
  | closeWindow => exact closeCall_iff
  | minimizeWindow => exact minimizeCall_iff
  | maximizeWindow => exact maximizeCall_iff
  | getMessage => exact getMessageCall_iff

/-- Process 1 has made a window; process 2 has a `struct window` of zeros at address 0. -/
def twoProcesses : Caller × State :=
  ⟨⟨2, ⟨4096, by decide⟩, fun _ => 0⟩,
    match (Wm.createWindow (Wm.centred 300 200) [] 1).run (Wm.wmInit Wm.cleared) with
    | .ok _ wm => ⟨wm, fun _ => 0⟩
    | .fail _ wm => ⟨wm, fun _ => 0⟩⟩

/-- Process 2 minimizes the window of process 1. -/
theorem minimize_other_window :
    ¬Harmless twoProcesses.1 twoProcesses.2 .minimizeWindow := by
  intro h
  obtain ⟨-, ⟨-, hmine⟩, -⟩ := minimizeCall_iff.1 h
  revert hmine
  decide +kernel

end Xv6.Kernel.Gui
