import Xv6.Verified.Exec
import Xv6.Verified.Int32
import Xv6.Verified.LinkedSlots

/-!
# The window manager

`kernel/window_manager.c`: the array `windowlist` of `MAX_WINDOW_CNT` entries, the list that
runs through the windows from the bottom of the screen to the top, and what the calls of
programs and the messages from keyboard and mouse do to them.  Everything here happens under
`wmlock`.

* An index outside the array stops the model (`outside`): what such an access reads or
  writes is not part of the window manager.
* A walk along the list that has not ended after as many rounds as there are entries never
  ends (`endless`).
* `touched` records the entries that were read or written, by their links or by the rest.
* Local variables that are not initialised hold `junk`.

Drawing is left out; colours, the style of the desktop and the shape of the mouse are used by
nothing else.
-/

namespace Xv6.Kernel.Wm

open Xv6.Verified
open Exec

/-! ## Constants -/

/-- `MAX_WINDOW_CNT`. -/
abbrev MAX_WINDOW_CNT : Nat := 50

/-- `MSG_BUF_SIZE`. -/
abbrev MSG_BUF_SIZE : Nat := 50

instance : NeZero MSG_BUF_SIZE := ⟨by decide⟩

instance neZero_params : NeZero 10 := ⟨by decide⟩

/-- `MAX_TITLE_LEN`. -/
abbrev MAX_TITLE_LEN : Nat := 50

/-- Sizes on the screen. -/
abbrev TITLE_HEIGHT : Int := 28
@[inherit_doc TITLE_HEIGHT] abbrev DOCK_HEIGHT : Int := 36
@[inherit_doc TITLE_HEIGHT] abbrev DOCK_PROGRAM_NORMAL_WIDTH : Int := 160
@[inherit_doc TITLE_HEIGHT] abbrev START_ICON_WIDTH : Int := 72
@[inherit_doc TITLE_HEIGHT] abbrev SHOW_DESKTOP_ICON_WIDTH : Int := 10

/-- Types of messages. -/
abbrev M_KEY_UP : Int := 1
@[inherit_doc M_KEY_UP] abbrev M_KEY_DOWN : Int := 2
@[inherit_doc M_KEY_UP] abbrev M_MOUSE_MOVE : Int := 3
@[inherit_doc M_KEY_UP] abbrev M_MOUSE_DOWN : Int := 4
@[inherit_doc M_KEY_UP] abbrev M_MOUSE_UP : Int := 5
@[inherit_doc M_KEY_UP] abbrev M_MOUSE_LEFT_CLICK : Int := 6
@[inherit_doc M_KEY_UP] abbrev M_MOUSE_RIGHT_CLICK : Int := 7
@[inherit_doc M_KEY_UP] abbrev M_MOUSE_DBCLICK : Int := 8
@[inherit_doc M_KEY_UP] abbrev WM_WINDOW_CLOSE : Int := 100
@[inherit_doc M_KEY_UP] abbrev WM_WINDOW_MINIMIZE : Int := 101
@[inherit_doc M_KEY_UP] abbrev WM_WINDOW_MAXIMIZE : Int := 102

/-! ## Data -/

/-- `struct win_rect`. -/
structure Rect where
  xmin : Int
  xmax : Int
  ymin : Int
  ymax : Int
  deriving DecidableEq

/-- `struct message`. -/
structure Message where
  msgType : Int
  params : Fin 10 → Int

/-- `struct msg_buf`: the indices stay in the array because they are set back at its end. -/
structure MsgBuf where
  data : Fin MSG_BUF_SIZE → Message
  front : Fin MSG_BUF_SIZE
  rear : Fin MSG_BUF_SIZE
  cnt : Nat

/-- `struct kernel_window`. -/
structure KernelWindow where
  position : Rect
  windowBuf : Nat
  msgBuf : MsgBuf
  title : List UInt8
  minimized : Int
  hasTitleBar : Int

/-- An entry of `windowlist`, without its links.  `proc` is the slot of the owner. -/
structure Entry where
  proc : Option Nat
  wnd : KernelWindow

/-- `popupwindow`. -/
structure Popup where
  proc : Option Nat
  wnd : KernelWindow
  caller : Int

/-- A position of the mouse. -/
structure Point where
  x : Int
  y : Int

/-- `struct window`, as far as the kernel reads and writes it. -/
structure UserWindow where
  initialPosition : Rect
  hasTitleBar : Int
  windowBuf : Nat
  width : Int
  height : Int
  handler : Int

/-- An access to an entry of `windowlist`: to `next` or `prev`, or to the rest. -/
inductive Access where
  | link (i : Int)
  | window (i : Int)
  deriving DecidableEq

/-- The entry that is accessed. -/
def Access.index : Access → Int
  | .link i => i
  | .window i => i

/-- The variables of the window manager. -/
structure State where
  windowlist : Int → Entry
  /-- `next` and `prev` of the entries, `windowlisthead` and `windowlisttail`. -/
  links : Links Int
  desktopId : Int
  popupwindow : Popup
  clickedOnTitle : Bool
  clickedOnContent : Bool
  clickedOnPopup : Bool
  mousePos : Point
  lastMousePos : Point
  screenWidth : Int
  screenHeight : Int
  touched : List Access

/-- Why the model stops. -/
inductive Stop where
  | outside (i : Int)
  | endless
  deriving DecidableEq

/-- Code of the window manager. -/
abbrev M := Exec Stop State

/-! ## Access to the entries -/

/-- Access entry `a.index`. -/
def touch (a : Access) : M Unit := do
  if Slot MAX_WINDOW_CNT a.index then modify fun s => { s with touched := a :: s.touched }
  else stop (.outside a.index)

/-- `windowlist[i].next`. -/
def getNext (i : Int) : M Int := do
  touch (.link i)
  return (← get).links.next i

/-- `windowlist[i].prev`. -/
def getPrev (i : Int) : M Int := do
  touch (.link i)
  return (← get).links.prev i

/-- `windowlist[i].next = v`. -/
def setNext (i v : Int) : M Unit := do
  touch (.link i)
  modify fun s => { s with links.next := Function.update s.links.next i v }

/-- `windowlist[i].prev = v`. -/
def setPrev (i v : Int) : M Unit := do
  touch (.link i)
  modify fun s => { s with links.prev := Function.update s.links.prev i v }

/-- `windowlisthead = v`. -/
def setHead (v : Int) : M Unit := modify fun s => { s with links.head := v }

/-- `windowlisttail = v`. -/
def setTail (v : Int) : M Unit := modify fun s => { s with links.tail := v }

/-- `windowlist[i].wnd`. -/
def getWnd (i : Int) : M KernelWindow := do
  touch (.window i)
  return ((← get).windowlist i).wnd

/-- Assign to fields of `windowlist[i]`. -/
def setEntry (i : Int) (f : Entry → Entry) : M Unit := do
  touch (.window i)
  modify fun s => { s with windowlist := Function.update s.windowlist i (f (s.windowlist i)) }

/-! ## Rectangles and message queues -/

/-- `isInRect`. -/
def isInRect (xmin ymin xmax ymax x y : Int) : Bool := x ≥ xmin ∧ x ≤ xmax ∧ y ≥ ymin ∧ y ≤ ymax

/-- `moveRect`. -/
def moveRect (r : Rect) (dx dy : Int) : Rect :=
  ⟨CInt.int (r.xmin + dx), CInt.int (r.xmax + dx), CInt.int (r.ymin + dy), CInt.int (r.ymax + dy)⟩

/-- `initMessageQueue`. -/
def initMessageQueue (b : MsgBuf) : MsgBuf := { b with front := 0, rear := 0, cnt := 0 }

/-- `dispatchMessage`. -/
def dispatchMessage (b : MsgBuf) (msg : Message) : MsgBuf :=
  if b.cnt ≥ MSG_BUF_SIZE then b
  else { b with cnt := b.cnt + 1, data := Function.update b.data b.rear msg, rear := b.rear + 1 }

/-- `dispatchMessage(&windowlist[i].wnd.msg_buf, msg)`. -/
def dispatchTo (i : Int) (msg : Message) : M Unit :=
  setEntry i fun w => { w with wnd.msgBuf := dispatchMessage w.wnd.msgBuf msg }

/-- `dispatchMessage(&popupwindow.wnd.msg_buf, msg)`. -/
def dispatchPopup (msg : Message) : M Unit := modify fun s =>
  { s with popupwindow.wnd.msgBuf := dispatchMessage s.popupwindow.wnd.msgBuf msg }

/-- A local message with its type set. -/
def Message.ofType (junk : Message) (t : Int) : Message := { junk with msgType := t }

/-- A local message with its type and the first two parameters set. -/
def Message.at (junk : Message) (t x y : Int) : Message :=
  { msgType := t, params := Function.update (Function.update junk.params 0 x) 1 y }

/-! ## The list -/

/-- `findNextAvailableWindowId`. -/
def findNextAvailableWindowId (s : State) : Int := s.links.findSelf MAX_WINDOW_CNT

/-- `addToWindowList`. -/
def addToWindowList (idx : Int) : M Unit := do
  setPrev idx (← get).links.tail
  setNext idx (-1)
  let tail := (← get).links.tail
  if tail ≠ -1 then setNext tail idx
  setTail idx

/-- `if (windowlisttail == idx) windowlisttail = windowlist[windowlisttail].prev`. -/
def leaveTail (idx : Int) : M Unit := do
  let tail := (← get).links.tail
  if tail = idx then setTail (← getPrev tail)

/-- `if (windowlist[idx].prev != -1) windowlist[windowlist[idx].prev].next =
windowlist[idx].next`. -/
def bypassNext (idx : Int) : M Unit := do
  let prev ← getPrev idx
  if prev ≠ -1 then setNext prev (← getNext idx)

/-- `if (windowlist[idx].next != -1) windowlist[windowlist[idx].next].prev =
windowlist[idx].prev`. -/
def bypassPrev (idx : Int) : M Unit := do
  let next ← getNext idx
  if next ≠ -1 then setPrev next (← getPrev idx)

/-- `removeFromWindowList`.  `windowlisthead` is not among the variables it sets. -/
def removeFromWindowList (idx : Int) : M Unit := do
  leaveTail idx
  bypassNext idx
  bypassPrev idx

/-- `focusWindow`. -/
def focusWindow (winId : Int) : M Unit := do
  let s ← get
  if winId = -1 ∨ winId = s.links.tail then return ()
  if winId = s.links.head then
    let newhead ← getNext winId
    setPrev newhead (-1)
    setHead newhead
  else
    let prevWin ← getPrev winId
    let nextWin ← getNext winId
    setNext prevWin nextWin
    setPrev nextWin prevWin
  addToWindowList winId

/-- `for (p = first; p != -1; p = step(p)) if (test(p)) break`, and the value of `p` after
it. -/
def search (step : Int → M Int) (test : Int → M Bool) : Nat → Int → M Int
  | 0, _ => stop .endless
  | n + 1, p => do
      if p = -1 then return -1
      if ← test p then return p
      let q ← step p
      search step test n q

/-- `for (p = first; p != -1; p = step(p)) body(p)`. -/
def traverse (step : Int → M Int) (body : Int → M Unit) : Nat → Int → M Unit
  | 0, _ => stop .endless
  | n + 1, p => do
      if p = -1 then return ()
      body p
      let q ← step p
      traverse step body n q

/-! ## Messages -/

/-- `moveFocusWindow`. -/
def moveFocusWindow (dx dy : Int) : M Unit := do
  let tail := (← get).links.tail
  let wnd ← getWnd tail
  if wnd.hasTitleBar ≠ 0 then
    setEntry tail fun w => { w with wnd.position := moveRect w.wnd.position dx dy }

/-- `getWindowCount`. -/
def getWindowCount : Nat → Int → Int → M Int
  | 0, _, _ => stop .endless
  | n + 1, p, windowCount => do
      if p = -1 then return windowCount
      let desktopId := (← get).desktopId
      let q ← getNext p
      getWindowCount n q (if p ≠ desktopId then windowCount + 1 else windowCount)

/-- The first loop of `handleDesktopDockClick`: the bar of a window is clicked. -/
def clickBar (junk : Message) (mouseX barWidth : Int) : Nat → Int → Int → M Unit
  | 0, _, _ => stop .endless
  | n + 1, p, xStart => do
      if p = -1 then return ()
      if p ≠ (← get).desktopId then
        if mouseX > xStart + 1 ∧ mouseX ≤ xStart + barWidth - 1 then
          let wnd ← getWnd p
          if wnd.minimized ≠ 0 then dispatchTo p (junk.ofType WM_WINDOW_MAXIMIZE)
          else focusWindow p
        else
          let q ← getNext p
          clickBar junk mouseX barWidth n q (xStart + barWidth)
      else
        let q ← getNext p
        clickBar junk mouseX barWidth n q xStart

/-- The body of the second loop of `handleDesktopDockClick`. -/
def minimizeOther (junk : Message) (p : Int) : M Unit := do
  if p ≠ (← get).desktopId then
    let wnd ← getWnd p
    if wnd.minimized = 0 then dispatchTo p (junk.ofType WM_WINDOW_MINIMIZE)

/-- `handleDesktopDockClick`, on the bars of the windows. -/
def clickBars (junk : Message) (mouseX : Int) : M Unit := do
  let s ← get
  let windowCount ← getWindowCount (MAX_WINDOW_CNT + 1) s.links.head 0
  if windowCount > 0 then
    let xStart := START_ICON_WIDTH + 5
    let barWidth := min ((s.screenWidth - START_ICON_WIDTH - SHOW_DESKTOP_ICON_WIDTH).tdiv
      (windowCount + 1)) DOCK_PROGRAM_NORMAL_WIDTH
    clickBar junk mouseX barWidth (MAX_WINDOW_CNT + 1) s.links.head xStart

/-- `handleDesktopDockClick`, on the icon that shows the desktop. -/
def clickShowDesktop (junk : Message) (mouseX : Int) : M Unit := do
  let s ← get
  if mouseX ≥ s.screenWidth - SHOW_DESKTOP_ICON_WIDTH then
    traverse getNext (minimizeOther junk) (MAX_WINDOW_CNT + 1) s.links.head

/-- `handleDesktopDockClick`, on the start icon. -/
def clickStart (junk : Message) (mouseX : Int) (msg : Message) : M Unit := do
  let s ← get
  if mouseX ≤ START_ICON_WIDTH ∧ msg.msgType = M_MOUSE_LEFT_CLICK ∧
      s.popupwindow.caller ≠ s.desktopId then
    dispatchTo s.desktopId (junk.at msg.msgType s.mousePos.x s.mousePos.y)

/-- `handleDesktopDockClick`. -/
def handleDesktopDockClick (junk : Message) (mouseX : Int) (msg : Message) : M Unit := do
  clickBars junk mouseX
  clickShowDesktop junk mouseX
  clickStart junk mouseX msg

/-- The mouse after a movement, kept on the screen. -/
def moveMouse (s : State) (msg : Message) : Point :=
  let x := msg.params 0
  let y := msg.params 1
  -- The second test compares the horizontal movement with the height of the screen.
  let p := if x > -s.screenWidth ∧ x < s.screenWidth ∧ y > -s.screenHeight ∧ x < s.screenHeight
    then Point.mk (s.mousePos.x + x * 1) (s.mousePos.y + y * -1) else s.mousePos
  let p := if p.x > s.screenWidth then { p with x := s.screenWidth } else p
  let p := if p.y > s.screenHeight then { p with y := s.screenHeight } else p
  let p := if p.x < 0 then { p with x := 0 } else p
  if p.y < 0 then { p with y := 0 } else p

/-- Dispatch `msg` to the top window, with the mouse relative to its corner. -/
def dispatchTop (junk : Message) (t : Int) : M Unit := do
  let tail := (← get).links.tail
  let wnd ← getWnd tail
  let m := (← get).mousePos
  dispatchTo tail (junk.at t (m.x - wnd.position.xmin) (m.y - wnd.position.ymin))

/-- `M_MOUSE_MOVE`. -/
def mouseMove (junk msg : Message) : M Unit := do
  modify fun s => { s with lastMousePos := s.mousePos, mousePos := moveMouse s msg }
  let s ← get
  if s.clickedOnTitle then
    moveFocusWindow (s.mousePos.x - s.lastMousePos.x) (s.mousePos.y - s.lastMousePos.y)
  else if s.clickedOnContent then dispatchTop junk msg.msgType

/-- Is the mouse on the popup? -/
def onPopup (s : State) : Bool :=
  let r := s.popupwindow.wnd.position
  s.popupwindow.caller ≠ -1 ∧ isInRect r.xmin r.ymin r.xmax r.ymax s.mousePos.x s.mousePos.y

/-- Is the mouse on a window, its title bar included, that is not the desktop and not
minimized? -/
def underMouse (s : State) (p : Int) : Bool :=
  let win := (s.windowlist p).wnd
  p ≠ s.desktopId ∧ win.minimized ≠ 1 ∧ isInRect win.position.xmin
    (win.position.ymin - TITLE_HEIGHT) win.position.xmax win.position.ymax s.mousePos.x s.mousePos.y

/-- The test for a window under the mouse. -/
def isUnderMouse (p : Int) : M Bool := do
  if p ≠ (← get).desktopId then
    touch (.window p)
    return underMouse (← get) p
  else return false

/-- `M_MOUSE_DOWN`, not on the popup: find the window to focus. -/
def focusUnderMouse : M Unit := do
  let s ← get
  let p ← search getPrev isUnderMouse (MAX_WINDOW_CNT + 1) s.links.tail
  if p = -1 then focusWindow s.desktopId else focusWindow p

/-- `M_MOUSE_DOWN`, not on the popup: the title bar of the top window. -/
def clickTitle (junk : Message) : M Unit := do
  let tail := (← get).links.tail
  let win ← getWnd tail
  let m := (← get).mousePos
  if isInRect win.position.xmin (win.position.ymin - TITLE_HEIGHT) win.position.xmax
      win.position.ymin m.x m.y then
    if m.x + 30 > win.position.xmax then dispatchTo tail (junk.ofType WM_WINDOW_CLOSE)
    else if m.x + 60 > win.position.xmax ∧ m.x + 30 ≤ win.position.xmax then
      dispatchTo tail (junk.ofType WM_WINDOW_MINIMIZE)
    else modify fun s => { s with clickedOnTitle := true }

/-- `M_MOUSE_DOWN`, not on the popup: the content of the top window. -/
def clickContent (junk : Message) (t : Int) : M Unit := do
  let tail := (← get).links.tail
  let win ← getWnd tail
  let m := (← get).mousePos
  if isInRect win.position.xmin win.position.ymin win.position.xmax win.position.ymax m.x m.y then
    modify fun s => { s with clickedOnContent := true }
    -- Relative to the popup, not to the window.
    let r := (← get).popupwindow.wnd.position
    dispatchTo tail (junk.at t (m.x - r.xmin) (m.y - r.ymin))

/-- `M_MOUSE_DOWN`. -/
def mouseDown (junk msg : Message) : M Unit := do
  if onPopup (← get) then modify fun s => { s with clickedOnPopup := true }
  else
    dispatchPopup (junk.ofType WM_WINDOW_CLOSE)
    focusUnderMouse
    clickTitle junk
    clickContent junk msg.msgType

/-- The content of the top window is let go. -/
def releaseContent (junk : Message) (t : Int) : M Unit := do
  if (← get).clickedOnContent then
    modify fun s => { s with clickedOnContent := false }
    dispatchTop junk t

/-- `M_MOUSE_UP`. -/
def mouseUp (junk msg : Message) : M Unit := do
  modify fun s => { s with clickedOnPopup := false }
  releaseContent junk msg.msgType
  modify fun s => { s with clickedOnTitle := false }

/-- `M_MOUSE_LEFT_CLICK`, `M_MOUSE_RIGHT_CLICK` and `M_MOUSE_DBCLICK`, before they fall
through to `M_MOUSE_UP`. -/
def mouseClick (junk msg : Message) : M Unit := do
  let s ← get
  if s.clickedOnPopup then
    modify fun s => { s with clickedOnPopup := false }
    let r := s.popupwindow.wnd.position
    dispatchPopup (junk.at msg.msgType (s.mousePos.x - r.xmin) (s.mousePos.y - r.ymin))
  else if s.clickedOnContent then
    modify fun s => { s with clickedOnContent := false }
    if s.links.tail = s.desktopId ∧ s.mousePos.y ≥ s.screenHeight - DOCK_HEIGHT ∧
        s.mousePos.y ≤ s.screenHeight then
      handleDesktopDockClick junk s.mousePos.x msg
    else dispatchTop junk msg.msgType

/-- `wmHandleMessage`. -/
def wmHandleMessage (junk msg : Message) : M Unit := do
  if msg.msgType = M_MOUSE_MOVE then mouseMove junk msg
  else if msg.msgType = M_MOUSE_DOWN then mouseDown junk msg
  else if msg.msgType = M_MOUSE_LEFT_CLICK ∨ msg.msgType = M_MOUSE_RIGHT_CLICK ∨
      msg.msgType = M_MOUSE_DBCLICK then
    mouseClick junk msg
    mouseUp junk msg
  else if msg.msgType = M_MOUSE_UP then mouseUp junk msg
  else if msg.msgType = M_KEY_DOWN ∨ msg.msgType = M_KEY_UP then
    dispatchTo (← get).links.tail msg

/-! ## Calls -/

/-- The position of a new window: the one it asks for if it fits, else the middle of the
screen. -/
def place (s : State) (win : UserWindow) : Rect :=
  let r := win.initialPosition
  if r.xmin ≥ 0 ∧ r.xmax ≤ s.screenWidth ∧ r.ymin ≥ 0 ∧ r.ymax ≤ s.screenHeight ∧
      CInt.int (r.xmax - r.xmin) = win.width ∧ CInt.int (r.ymax - r.ymin) = win.height then r
  else
    ⟨CInt.int (s.screenWidth.tdiv 2 - win.width.tdiv 2),
      CInt.int (s.screenWidth.tdiv 2 + win.width.tdiv 2),
      CInt.int (s.screenHeight.tdiv 2 - win.height.tdiv 2),
      CInt.int (s.screenHeight.tdiv 2 + win.height.tdiv 2)⟩

/-- `memmove (wnd.title, title, len)`, where `len` is at most `MAX_TITLE_LEN`. -/
def copyTitle (old title : List UInt8) : List UInt8 :=
  title.take MAX_TITLE_LEN ++ old.drop (min title.length MAX_TITLE_LEN)

/-- `if (windowlisthead == -1) windowlisthead = winId`. -/
def startList (winId : Int) : M Unit := do
  if (← get).links.head = -1 then setHead winId

/-- The first window is always the desktop. -/
def setDesktop (winId : Int) : M Unit := do
  if (← get).desktopId = -1 then modify fun s => { s with desktopId := winId }

/-- `create_window`, after `clear_window`: the value returned, and `window->handler`
afterwards. -/
def createWindow (win : UserWindow) (title : List UInt8) (proc : Nat) : M (Int × Int) := do
  let winId := findNextAvailableWindowId (← get)
  if winId = -1 then return (1, win.handler)
  startList winId
  addToWindowList winId
  setDesktop winId
  let position := place (← get) win
  setEntry winId fun w =>
    { proc := some proc
      wnd :=
        { position
          windowBuf := win.windowBuf
          msgBuf := initMessageQueue w.wnd.msgBuf
          title := copyTitle w.wnd.title title
          minimized := 0
          hasTitleBar := win.hasTitleBar } }
  return (0, winId)

/-- `close_window`, for `window->handler`. -/
def closeWindow (winId : Int) : M Unit := do
  removeFromWindowList winId
  setPrev winId winId
  setNext winId winId
  setEntry winId fun w => { w with
    wnd.msgBuf := initMessageQueue w.wnd.msgBuf
    wnd.title := List.replicate MAX_TITLE_LEN 0 }
  if winId = (← get).links.tail then focusWindow (← getPrev winId)

/-- The position of a new popup window: the one it asks for if it fits, else that of the popup
window before it. -/
def placePopup (s : State) (win : UserWindow) : Rect :=
  let r := win.initialPosition
  if r.xmin ≥ 0 ∧ r.xmax ≤ s.screenWidth ∧ r.ymin ≥ 0 ∧ r.ymax ≤ s.screenHeight ∧
      r.xmax - r.xmin = win.width ∧ r.ymax - r.ymin = win.height then r
  else s.popupwindow.wnd.position

/-- `createPopupWindow`, after `clear_window`: the value returned, and `window->handler`
afterwards. -/
def createPopupWindow (win : UserWindow) (caller : Int) (proc : Nat) : M (Int × Int) := do
  let s ← get
  if s.popupwindow.caller ≠ -1 then return (1, win.handler)
  modify fun s => { s with
    popupwindow :=
      { proc := some proc
        caller
        wnd := { s.popupwindow.wnd with
          position := placePopup s win
          windowBuf := win.windowBuf
          msgBuf := initMessageQueue s.popupwindow.wnd.msgBuf
          minimized := 0
          hasTitleBar := win.hasTitleBar } } }
  return (0, caller)

/-- `closePopupWindow`. -/
def closePopupWindow : M Unit := modify fun s => { s with
  popupwindow := { s.popupwindow with
    caller := -1
    wnd.msgBuf := initMessageQueue s.popupwindow.wnd.msgBuf
    wnd.title := List.replicate MAX_TITLE_LEN 0 } }

/-- `minimizeWindow`, for `window->handler`. -/
def minimizeWindow (winId : Int) : M Unit := do
  setEntry winId fun w => { w with wnd.minimized := 1 }
  if winId = (← get).links.tail then focusWindow (← getPrev winId)

/-- `maximizeWindow`, for `window->handler`. -/
def maximizeWindow (winId : Int) : M Unit := do
  setEntry winId fun w => { w with wnd.minimized := 0 }
  focusWindow winId

/-- `wmInit`. -/
def wmInit (s : State) : State :=
  { s with
    mousePos := ⟨s.screenWidth.tdiv 2, s.screenHeight.tdiv 2⟩
    lastMousePos := ⟨s.screenWidth.tdiv 2, s.screenHeight.tdiv 2⟩
    links :=
      { next := fun i => if Slot MAX_WINDOW_CNT i then i else s.links.next i
        prev := fun i => if Slot MAX_WINDOW_CNT i then i else s.links.prev i
        head := -1
        tail := -1 }
    popupwindow.caller := -1
    clickedOnTitle := false
    clickedOnContent := false
    clickedOnPopup := false }

end Xv6.Kernel.Wm
