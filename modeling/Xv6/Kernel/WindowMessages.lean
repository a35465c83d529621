import Xv6.Kernel.WindowList

/-!
# Messages from keyboard and mouse

`kbdgetc` of `kernel/kbd.c` and `genMouseMessage` of `kernel/mouse.c` turn scancodes and mouse
packets into messages for `wmHandleMessage`.  They arrive at any time, also before there is a
window and after the last one was closed; a mouse packet without buttons that comes late after
the last one even delivers a message that was never initialised.

* `messages_of_run`: in every state of a run that meets the conditions of `windowList_of_run`,
  a message that finds the state it needs touches existing windows only, whatever it is.
* `key_before_windows`: a key is pressed before there is a window.
-/

namespace Xv6.Kernel.Wm

open Xv6.Verified
open Exec

/-! ## The keyboard -/

/-- The tables of `kbd.h`. -/
structure Keymap where
  shiftcode : UInt8 → UInt32
  togglecode : UInt8 → UInt32
  normalmap : UInt8 → UInt32
  shiftmap : UInt8 → UInt32
  ctlmap : UInt8 → UInt32

/-- Bits of `shift`. -/
abbrev SHIFT : UInt32 := 1
@[inherit_doc SHIFT] abbrev CTL : UInt32 := 2
@[inherit_doc SHIFT] abbrev CAPSLOCK : UInt32 := 8
@[inherit_doc SHIFT] abbrev E0ESC : UInt32 := 64

/-- A value as an `int`. -/
def toInt (x : UInt32) : Int := if x < 0x80000000 then x.toNat else x.toNat - 4294967296

/-- `charcode[shift & (CTL | SHIFT)][data]`. -/
def charcode (t : Keymap) (shift : UInt32) (data : UInt8) : UInt32 :=
  if shift &&& CTL ≠ 0 then t.ctlmap data
  else if shift &&& SHIFT ≠ 0 then t.shiftmap data
  else t.normalmap data

/-- Capitals and small letters exchanged. -/
def swapCase (c : UInt32) : UInt32 :=
  if 97 ≤ c ∧ c ≤ 122 then c - 32 else if 65 ≤ c ∧ c ≤ 90 then c + 32 else c

/-- `kbdgetc`, for the scancode `data`: the message for the window manager, `shift`
afterwards, and the character. -/
def kbdgetc (t : Keymap) (junk : Message) (shift : UInt32) (data : UInt8) :
    Option Message × UInt32 × UInt32 :=
  if data = 0xE0 then (none, shift ||| E0ESC, 0)
  else if data &&& 0x80 ≠ 0 then
    let data := if shift &&& E0ESC ≠ 0 then data else data &&& 0x7F
    let shift := shift &&& ~~~(t.shiftcode data ||| E0ESC)
    (some (junk.at M_KEY_UP (toInt (t.normalmap data)) (toInt shift)), shift, 0)
  else
    let escaped : Bool := shift &&& E0ESC ≠ 0
    let data := if escaped then data ||| 0x80 else data
    let shift := if escaped then shift &&& ~~~E0ESC else shift
    let shift := shift ||| t.shiftcode data
    let shift := shift ^^^ t.togglecode data
    let key := if shift = 1 then t.shiftmap data else t.normalmap data
    let c := charcode t shift data
    (some (junk.at M_KEY_DOWN (toInt key) (toInt shift)), shift,
      if shift &&& CAPSLOCK ≠ 0 then swapCase c else c)

/-! ## The mouse -/

/-- `packet`. -/
structure Packet where
  xSgn : Bool
  ySgn : Bool
  xMov : UInt32
  yMov : UInt32
  lBtn : Bool
  rBtn : Bool
  mBtn : Bool
  xOverflow : Bool
  yOverflow : Bool
  tick : UInt32

/-- `lastbtn`, `lastdowntick` and `lastclicktick`. -/
structure Buttons where
  lastbtn : Int
  lastdowntick : UInt32
  lastclicktick : UInt32

/-- A movement with its sign. -/
def movement (sgn : Bool) (mov : UInt32) : UInt32 :=
  if sgn then 0xffffff00 ||| (mov &&& 0xff) else mov &&& 0xff

/-- `packet.l_btn | (packet.r_btn << 1) | (packet.m_btn << 2)`. -/
def buttons (p : Packet) : Int :=
  (if p.lBtn then 1 else 0) + (if p.rBtn then 2 else 0) + (if p.mBtn then 4 else 0)

/-- `-1000` as an `uint`. -/
abbrev longAgo : UInt32 := 0xFFFFFC18

/-- A message with its first parameter set. -/
def Message.with0 (junk : Message) (t x : Int) : Message :=
  { msgType := t, params := Function.update junk.params 0 x }

/-- `genMouseMessage`: the messages, in order. -/
def genMouseMessage (junk : Message) (b : Buttons) (p : Packet) : List Message × Buttons :=
  if p.xOverflow ∨ p.yOverflow then ([], b)
  else
    let x := movement p.xSgn p.xMov
    let y := movement p.ySgn p.yMov
    let btns := buttons p
    let up := junk.with0 M_MOUSE_UP btns
    if x ≠ 0 ∨ y ≠ 0 then
      let move := junk.at M_MOUSE_MOVE (toInt x) (toInt y)
      let move := { move with params := Function.update move.params 2 btns }
      (if btns ≠ b.lastbtn then [up, move] else [move], ⟨btns, longAgo, longAgo⟩)
    else if btns ≠ 0 then ([junk.with0 M_MOUSE_DOWN btns], ⟨btns, p.tick, b.lastclicktick⟩)
    else if p.tick - b.lastdowntick < 30 then
      if p.tick - b.lastclicktick < 60 then
        ([junk.ofType M_MOUSE_DBCLICK], ⟨btns, b.lastdowntick, longAgo⟩)
      else
        let t := if b.lastbtn % 2 = 1 then M_MOUSE_LEFT_CLICK else M_MOUSE_RIGHT_CLICK
        ([junk.ofType t], ⟨btns, b.lastdowntick, p.tick⟩)
    -- `msg` was not set on this path.
    else ([up, junk], { b with lastbtn := btns })

/-- A message that keyboard or mouse can produce, with anything on the stack. -/
inductive Produced (t : Keymap) : Message → Prop
  | key {msg : Message} (junk : Message) (shift : UInt32) (data : UInt8)
      (h : (kbdgetc t junk shift data).1 = some msg) : Produced t msg
  | mouse {msg : Message} (junk : Message) (b : Buttons) (p : Packet)
      (h : msg ∈ (genMouseMessage junk b p).1) : Produced t msg

/-! ## Safety -/

/-- The message is handled to the end, and only entries of live windows are touched. -/
def HandledSafely (s : Session) (junk msg : Message) : Prop :=
  wp (wmHandleMessage junk msg)
    (fun _ wm => ∀ a ∈ wm.touched, Slot MAX_WINDOW_CNT a.index ∧ a.index ∈ s.live) Never
    { s.wm with touched := [] }

/-- In every state of a run that meets the conditions, every message that finds the state it
needs is handled safely. -/
theorem messages_of_run (wm : State) {s : Session} (h : Reaches act Sound (boot wm) s)
    (junk msg : Message) (hready : Ready s.wm msg) : HandledSafely s junk msg := by
  have hinv := inv_of_run h
  have hsafe : Safe s.live s.wm.desktopId [] { s.wm with touched := [] } :=
    ⟨hinv.listed, rfl, fun a ha => absurd ha List.not_mem_nil⟩
  refine wp_imp (wmHandleMessage_safe hsafe hinv.slot hready) ?_
  intro _ wm' hsafe' a ha
  have hlive := (hsafe'.touched a ha).resolve_left List.not_mem_nil
  exact ⟨hsafe'.slot hlive, hlive⟩

/-- Keys that produce no character. -/
def noKeys : Keymap := ⟨fun _ => 0, fun _ => 0, fun _ => 0, fun _ => 0, fun _ => 0⟩

/-- The left button goes down and the mouse has not moved. -/
def press : Packet := ⟨false, false, 0, 0, true, false, false, false, false, 10⟩

/-- Over two windows a key is pressed, one of them is closed, and the left button is pressed. -/
theorem messages_of_run_press : ∃ s, Reaches act Sound (boot cleared) s ∧ s.live = [1, 0] ∧
    Produced noKeys (noMessage.with0 M_MOUSE_DOWN 1) ∧
    HandledSafely s noMessage (noMessage.with0 M_MOUSE_DOWN 1) := by
  have hrun : (runActs act Sound [.create (centred 1024 768) [] 1, .create (centred 300 200) [] 2,
      .create (centred 100 100) [] 3, .message noMessage (noMessage.at M_KEY_DOWN 0 0), .close 2]
      (boot cleared)).map (fun s =>
        (s.live, decide (Ready s.wm (noMessage.with0 M_MOUSE_DOWN 1)))) = some ([1, 0], true) := by
    decide +kernel
  obtain ⟨s, hs, hend⟩ := Option.map_eq_some_iff.1 hrun
  have hready : Ready s.wm (noMessage.with0 M_MOUSE_DOWN 1) :=
    of_decide_eq_true (congrArg Prod.snd hend)
  have hproduced : Produced noKeys (noMessage.with0 M_MOUSE_DOWN 1) :=
    .mouse noMessage ⟨0, longAgo, longAgo⟩ press (by
      have hmessages : (genMouseMessage noMessage ⟨0, longAgo, longAgo⟩ press).1 =
        [noMessage.with0 M_MOUSE_DOWN 1] := rfl
      rw [hmessages]
      exact List.mem_singleton_self _)
  exact ⟨s, .of_runActs _ hs, congrArg Prod.fst hend, hproduced,
    messages_of_run cleared (.of_runActs _ hs) _ _ hready⟩

/-- A key is pressed before there is a window. -/
theorem key_before_windows : ∃ s, Reaches act (fun _ _ => True) (boot cleared) s ∧
    ∃ msg, Produced noKeys msg ∧ ¬HandledSafely s noMessage msg := by
  refine ⟨_, .refl, noMessage.at M_KEY_DOWN 0 0, .key noMessage 0 0x1E rfl, fun hsafe => ?_⟩
  have hrun : ∃ t, (wmHandleMessage noMessage (noMessage.at M_KEY_DOWN 0 0)).run
      { (boot cleared).wm with touched := [] } = .fail (.outside (-1)) t := ⟨_, rfl⟩
  obtain ⟨t, ht⟩ := hrun
  exact fail_of_wp hsafe ht

end Xv6.Kernel.Wm
