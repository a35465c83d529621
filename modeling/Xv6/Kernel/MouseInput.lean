import Xv6.Kernel.WindowMessages

/-!
# Mouse packets

`mouseintr` of `kernel/mouse.c` puts packets of three bytes together and hands them to
`genMouseMessage`.  Beside it, `recovery` looks for the bytes 12, 0, 0 and drops them: as a packet,
they say that the middle button is down.

* `packets_decoded_iff`: when every packet of a stream arrives, and its message is set.
-/

namespace Xv6.Kernel.Wm

/-! ## The interrupt handler -/

/-- The variables of `mouse.c`. -/
structure Mouse where
  packet : Packet
  count : Int
  recovery : Int
  buttons : Buttons

/-- A call of `genMouseMessage`: what it finds in the variables. -/
abbrev GenCall := Buttons × Packet

/-- `recovery` after a byte. -/
def recover (recovery : Int) (data : UInt8) : Int :=
  if recovery = 0 ∧ data = 0 then 1
  else if recovery = 1 ∧ data = 0 then 2
  else if data = 12 then 0
  else -1

/-- The `switch` over `count`. -/
def Mouse.receive (m : Mouse) (tick : UInt32) (data : UInt8) : Mouse :=
  if m.count = 1 then
    if data.toNat.testBit 3 then
      { m with packet := { m.packet with
          yOverflow := data.toNat.testBit 7
          xOverflow := data.toNat.testBit 6
          ySgn := data.toNat.testBit 5
          xSgn := data.toNat.testBit 4
          mBtn := data.toNat.testBit 2
          rBtn := data.toNat.testBit 1
          lBtn := data.toNat.testBit 0 } }
    else { m with count := 0 }
  else if m.count = 2 then { m with packet.xMov := data.toUInt32 }
  else if m.count = 3 then { m with packet.yMov := data.toUInt32, packet.tick := tick }
  else { m with count := 0 }

/-- What `genMouseMessage` leaves in `packet`. -/
def Packet.moved (p : Packet) : Packet :=
  if p.xOverflow ∨ p.yOverflow then p
  else { p with xMov := movement p.xSgn p.xMov, yMov := movement p.ySgn p.yMov }

/-- One round of the loop of `mouseintr`. -/
def mouseByte (junk : Message) (m : Mouse) (tick : UInt32) (data : UInt8) :
    Mouse × List GenCall :=
  let m := { m with count := m.count + 1, recovery := recover m.recovery data }
  let m := m.receive tick data
  if m.recovery = 2 then ({ m with count := 0, recovery := -1 }, [])
  else if m.count = 3 then
    ({ m with
        count := 0
        packet := m.packet.moved
        buttons := (genMouseMessage junk m.buttons m.packet).2 }, [(m.buttons, m.packet)])
  else (m, [])

/-- The loop of `mouseintr`, for the bytes that the controller has. -/
def mouseintr (junk : Message) (tick : UInt32) : List UInt8 → Mouse → Mouse × List GenCall
  | [], m => (m, [])
  | data :: bytes, m =>
      let (m, calls) := mouseByte junk m tick data
      let (m, later) := mouseintr junk tick bytes m
      (m, calls ++ later)

/-- Interrupts, each with its tick and the bytes that it finds. -/
def interrupts (junk : Message) : List (UInt32 × List UInt8) → Mouse → Mouse × List GenCall
  | [], m => (m, [])
  | (tick, bytes) :: later, m =>
      let (m, calls) := mouseintr junk tick bytes m
      let (m, rest) := interrupts junk later m
      (m, calls ++ rest)

/-! ## Bytes -/

section Bytes

variable {junk : Message} {m : Mouse}

/-- Bytes with the ticks of their interrupts. -/
def mouseBytes (junk : Message) : List (UInt32 × UInt8) → Mouse → Mouse × List GenCall
  | [], m => (m, [])
  | (tick, data) :: bytes, m =>
      let (m, calls) := mouseByte junk m tick data
      let (m, later) := mouseBytes junk bytes m
      (m, calls ++ later)

theorem mouseBytes_append (xs ys : List (UInt32 × UInt8)) (m : Mouse) :
    mouseBytes junk (xs ++ ys) m =
      ((mouseBytes junk ys (mouseBytes junk xs m).1).1,
        (mouseBytes junk xs m).2 ++ (mouseBytes junk ys (mouseBytes junk xs m).1).2) := by
  induction xs generalizing m with
  | nil => rfl
  | cons x xs ih =>
      simp only [List.cons_append, mouseBytes, ih, List.append_assoc]

theorem mouseintr_eq (tick : UInt32) (bytes : List UInt8) (m : Mouse) :
    mouseintr junk tick bytes m = mouseBytes junk (bytes.map (Prod.mk tick)) m := by
  induction bytes generalizing m with
  | nil => rfl
  | cons data bytes ih =>
      rw [mouseintr, List.map_cons, mouseBytes]
      simp only [ih]

/-- It does not matter how many bytes an interrupt finds. -/
theorem interrupts_eq (is : List (UInt32 × List UInt8)) (m : Mouse) :
    interrupts junk is m = mouseBytes junk (is.flatMap fun i => i.2.map (Prod.mk i.1)) m := by
  induction is generalizing m with
  | nil => rfl
  | cons i is ih =>
      rw [interrupts, List.flatMap_cons, mouseBytes_append, mouseintr_eq]
      simp only [ih]

end Bytes

/-! ## Packets -/

/-- A packet in sync, with the ticks of its bytes. -/
structure InSync where
  first : UInt8
  second : UInt8
  third : UInt8
  tick1 : UInt32
  tick2 : UInt32
  tick : UInt32
  sync : first.toNat.testBit 3 = true
  noXOverflow : first.toNat.testBit 6 = false
  noYOverflow : first.toNat.testBit 7 = false

/-- A movement of 9 bits: a sign and a byte. -/
def signed (sgn : Bool) (mov : UInt8) : Int := if sgn then mov.toNat - 256 else mov.toNat

namespace InSync

variable (p : InSync)

def bytes : List (UInt32 × UInt8) := [(p.tick1, p.first), (p.tick2, p.second), (p.tick, p.third)]

/-- What `mouseintr` makes of it. -/
def packet : Packet where
  xSgn := p.first.toNat.testBit 4
  ySgn := p.first.toNat.testBit 5
  xMov := p.second.toUInt32
  yMov := p.third.toUInt32
  lBtn := p.first.toNat.testBit 0
  rBtn := p.first.toNat.testBit 1
  mBtn := p.first.toNat.testBit 2
  xOverflow := p.first.toNat.testBit 6
  yOverflow := p.first.toNat.testBit 7
  tick := p.tick

/-- The bytes that `recovery` looks for. -/
def Resyncs : Prop := p.first = 12 ∧ p.second = 0 ∧ p.third = 0

instance : Decidable p.Resyncs := by
  unfold Resyncs
  infer_instance

/-- The movements and buttons of the packet. -/
structure Decodes (c : Packet) : Prop where
  x : toInt (movement c.xSgn c.xMov) = signed (p.first.toNat.testBit 4) p.second
  y : toInt (movement c.ySgn c.yMov) = signed (p.first.toNat.testBit 5) p.third
  lBtn : c.lBtn = p.first.toNat.testBit 0
  rBtn : c.rBtn = p.first.toNat.testBit 1
  mBtn : c.mBtn = p.first.toNat.testBit 2
  valid : c.xOverflow = false ∧ c.yOverflow = false
  tick : c.tick = p.tick

end InSync

theorem movement_signed (sgn : Bool) (mov : UInt8) :
    toInt (movement sgn mov.toUInt32) = signed sgn mov := by
  have hlt := mov.toNat_lt
  have hmask : (mov.toUInt32 &&& 0xff).toNat = mov.toNat := by
    rw [UInt32.toNat_and, UInt8.toNat_toUInt32]
    exact (Nat.and_two_pow_sub_one_eq_mod mov.toNat 8).trans (Nat.mod_eq_of_lt hlt)
  unfold toInt movement signed
  cases sgn with
  | false =>
      rw [if_neg Bool.false_ne_true, if_neg Bool.false_ne_true, if_pos, hmask]
      rw [UInt32.lt_iff_toNat_lt, hmask]
      exact Nat.lt_trans hlt (by decide)
  | true =>
      have hor : ((0xffffff00 : UInt32) ||| (mov.toUInt32 &&& 0xff)).toNat =
          4294967040 + mov.toNat := by
        rw [UInt32.toNat_or, hmask]
        exact (Nat.two_pow_add_eq_or_of_lt (i := 8) hlt 16777215).symm
      rw [if_pos rfl, if_pos rfl, if_neg, hor]
      · omega
      · rw [UInt32.lt_iff_toNat_lt, hor]
        exact Nat.not_lt.2 (Nat.le_add_right_of_le (by decide))

theorem InSync.packet_decodes (p : InSync) : p.Decodes p.packet where
  x := movement_signed _ _
  y := movement_signed _ _
  lBtn := rfl
  rBtn := rfl
  mBtn := rfl
  valid := ⟨p.noXOverflow, p.noYOverflow⟩
  tick := rfl

theorem recover_eq_zero {r : Int} {data : UInt8} : recover r data = 0 ↔ data = 12 := by
  unfold recover
  split_ifs with h1 h2 h3
  · exact iff_of_false (by decide) (by rw [h1.2]; decide)
  · exact iff_of_false (by decide) (by rw [h2.2]; decide)
  · exact iff_of_true rfl h3
  · exact iff_of_false (by decide) h3

theorem recover_eq_one {r : Int} {data : UInt8} : recover r data = 1 ↔ r = 0 ∧ data = 0 := by
  unfold recover
  split_ifs with h1 h2 h3
  · exact iff_of_true rfl h1
  · exact iff_of_false (by decide) h1
  · exact iff_of_false (by decide) h1
  · exact iff_of_false (by decide) h1

theorem recover_eq_two {r : Int} {data : UInt8} : recover r data = 2 ↔ r = 1 ∧ data = 0 := by
  unfold recover
  split_ifs with h1 h2 h3
  · exact iff_of_false (by decide) (by rw [h1.1]; simp)
  · exact iff_of_true rfl h2
  · exact iff_of_false (by decide) h2
  · exact iff_of_false (by decide) h2

section Rounds

variable {junk : Message} {m : Mouse} {tick : UInt32} {data : UInt8}

/-- The fields of `packet` that the first byte sets. -/
def Packet.flags (p : Packet) (data : UInt8) : Packet :=
  { p with
    yOverflow := data.toNat.testBit 7
    xOverflow := data.toNat.testBit 6
    ySgn := data.toNat.testBit 5
    xSgn := data.toNat.testBit 4
    mBtn := data.toNat.testBit 2
    rBtn := data.toNat.testBit 1
    lBtn := data.toNat.testBit 0 }

theorem mouseByte_first (h : m.count = 0) (hrec : recover m.recovery data ≠ 2)
    (hsync : data.toNat.testBit 3 = true) : mouseByte junk m tick data =
      (⟨m.packet.flags data, 1, recover m.recovery data, m.buttons⟩, []) := by
  simp [mouseByte, Mouse.receive, h, hrec, hsync, Packet.flags]

theorem mouseByte_second (h : m.count = 1) (hrec : recover m.recovery data ≠ 2) :
    mouseByte junk m tick data =
      (⟨{ m.packet with xMov := data.toUInt32 }, 2, recover m.recovery data, m.buttons⟩, []) := by
  simp [mouseByte, Mouse.receive, h, hrec]

theorem mouseByte_third (h : m.count = 2) (hrec : recover m.recovery data ≠ 2) :
    mouseByte junk m tick data =
      let packet := { m.packet with yMov := data.toUInt32, tick := tick }
      (⟨packet.moved, 0, recover m.recovery data, (genMouseMessage junk m.buttons packet).2⟩,
        [(m.buttons, packet)]) := by
  simp [mouseByte, Mouse.receive, h, hrec]

theorem mouseByte_dropped (h : m.count = 2) (hrec : recover m.recovery data = 2) :
    mouseByte junk m tick data =
      (⟨{ m.packet with yMov := data.toUInt32, tick := tick }, 0, -1, m.buttons⟩, []) := by
  simp [mouseByte, Mouse.receive, h, hrec]

end Rounds

/-- The three bytes of a packet. -/
theorem packet_received (junk : Message) {m : Mouse} (h : m.count = 0) (p : InSync) :
    (mouseBytes junk p.bytes m).1.count = 0 ∧
      (mouseBytes junk p.bytes m).1.buttons =
        (if p.Resyncs then m.buttons else (genMouseMessage junk m.buttons p.packet).2) ∧
      (mouseBytes junk p.bytes m).2 = if p.Resyncs then [] else [(m.buttons, p.packet)] := by
  have hfirst : p.first ≠ 0 := by
    intro hzero
    have hsync := p.sync
    rw [hzero] at hsync
    exact absurd hsync (by decide)
  have hr1 : recover m.recovery p.first ≠ 2 := fun hr => hfirst (recover_eq_two.1 hr).2
  have hr1' : recover m.recovery p.first ≠ 1 := fun hr => hfirst (recover_eq_one.1 hr).2
  have hr2 : recover (recover m.recovery p.first) p.second ≠ 2 :=
    fun hr => hr1' (recover_eq_two.1 hr).1
  have hr3 : recover (recover (recover m.recovery p.first) p.second) p.third = 2 ↔ p.Resyncs := by
    rw [recover_eq_two, recover_eq_one, recover_eq_zero, and_assoc]
    rfl
  have hsecond := @mouseByte_second junk ⟨m.packet.flags p.first, 1, recover m.recovery p.first,
    m.buttons⟩ p.tick2 p.second rfl hr2
  simp only [InSync.bytes, mouseBytes, mouseByte_first h hr1 p.sync, hsecond]
  by_cases hres : p.Resyncs
  · rw [mouseByte_dropped rfl (by exact hr3.2 hres), if_pos hres, if_pos hres]
    exact ⟨rfl, rfl, rfl⟩
  · rw [mouseByte_third rfl (by exact mt hr3.1 hres), if_neg hres, if_neg hres]
    exact ⟨rfl, rfl, rfl⟩

/-! ## Messages -/

/-- What `wmHandleMessage` reads of a mouse message is the same: the type, and the movement. -/
def Message.Agrees (msg msg' : Message) : Prop :=
  msg.msgType = msg'.msgType ∧
    (msg.msgType = M_MOUSE_MOVE → msg.params 0 = msg'.params 0 ∧ msg.params 1 = msg'.params 1)

/-- The messages of a call do not depend on what was on the stack. -/
def Assigned (c : GenCall) : Prop :=
  ∀ junk junk' : Message, List.Forall₂ Message.Agrees (genMouseMessage junk c.1 c.2).1
    (genMouseMessage junk' c.1 c.2).1

/-- The buttons are up and the mouse does not move, long after the last button. -/
def Late (b : Buttons) (p : Packet) : Prop :=
  movement p.xSgn p.xMov = 0 ∧ movement p.ySgn p.yMov = 0 ∧ buttons p = 0 ∧
    ¬p.tick - b.lastdowntick < 30

instance (b : Buttons) (p : Packet) : Decidable (Late b p) := by
  unfold Late
  infer_instance

theorem agrees_of_type {msg msg' : Message} (t : Int) (h : msg.msgType = t) (h' : msg'.msgType = t)
    (hmove : t ≠ M_MOUSE_MOVE) : msg.Agrees msg' :=
  ⟨h.trans h'.symm, fun heq => absurd (h.symm.trans heq) hmove⟩

theorem assigned_iff {b : Buttons} {p : Packet} (hvalid : p.xOverflow = false ∧
    p.yOverflow = false) : Assigned (b, p) ↔ ¬Late b p := by
  have hover : ¬(p.xOverflow = true ∨ p.yOverflow = true) := by
    rw [hvalid.1, hvalid.2]
    decide
  unfold Assigned Late genMouseMessage
  simp only [if_neg hover]
  by_cases hmove : movement p.xSgn p.xMov ≠ 0 ∨ movement p.ySgn p.yMov ≠ 0
  · simp only [if_pos hmove]
    refine iff_of_true (fun junk junk' => ?_) (fun h => ?_)
    · split_ifs
      · exact .cons (agrees_of_type M_MOUSE_UP rfl rfl (by decide))
          (.cons ⟨rfl, fun _ => ⟨rfl, rfl⟩⟩ .nil)
      · exact .cons ⟨rfl, fun _ => ⟨rfl, rfl⟩⟩ .nil
    · exact hmove.elim (fun hx => hx h.1) (fun hy => hy h.2.1)
  · simp only [if_neg hmove]
    by_cases hdown : buttons p ≠ 0
    · simp only [if_pos hdown]
      exact iff_of_true (fun _ _ => .cons (agrees_of_type M_MOUSE_DOWN rfl rfl (by decide)) .nil)
        (fun h => hdown h.2.2.1)
    · simp only [if_neg hdown]
      by_cases hclick : p.tick - b.lastdowntick < 30
      · simp only [if_pos hclick]
        refine iff_of_true (fun junk junk' => ?_) (fun h => h.2.2.2 hclick)
        split_ifs
        · exact .cons (agrees_of_type M_MOUSE_DBCLICK rfl rfl (by decide)) .nil
        · exact .cons (agrees_of_type M_MOUSE_LEFT_CLICK rfl rfl (by decide)) .nil
        · exact .cons (agrees_of_type M_MOUSE_RIGHT_CLICK rfl rfl (by decide)) .nil
      · simp only [if_neg hclick]
        push Not at hmove hdown
        refine iff_of_false (fun h => ?_) (not_not_intro ⟨hmove.1, hmove.2, hdown, hclick⟩)
        have hagree := h ⟨M_KEY_UP, fun _ => 0⟩ ⟨M_KEY_DOWN, fun _ => 0⟩
        cases hagree with
        | cons _ hrest =>
            cases hrest with
            | cons hjunk _ => exact absurd hjunk.1 (by decide)

/-! ## Streams -/

/-- Every packet leads to one call, with its movements and buttons and with messages that are
set. -/
def Faithful (ps : List InSync) (calls : List GenCall) : Prop :=
  List.Forall₂ (fun p c => p.Decodes c.2) ps calls ∧ ∀ c ∈ calls, Assigned c

/-- No packet looks like the bytes 12, 0, 0, and none comes late without buttons and movement; `b`
is from before the first. -/
def Regular (junk : Message) : Buttons → List InSync → Prop
  | _, [] => True
  | b, p :: ps =>
      ¬p.Resyncs ∧ ¬Late b p.packet ∧ Regular junk (genMouseMessage junk b p.packet).2 ps

theorem calls_length_le (junk : Message) (ps : List InSync) {m : Mouse} (h : m.count = 0) :
    (mouseBytes junk (ps.flatMap InSync.bytes) m).2.length ≤ ps.length := by
  induction ps generalizing m with
  | nil => exact Nat.le_refl 0
  | cons p ps ih =>
      obtain ⟨hcount, -, hcalls⟩ := packet_received junk h p
      rw [List.flatMap_cons, mouseBytes_append, hcalls, List.length_append, List.length_cons]
      have := ih hcount
      split_ifs
      · rw [List.length_nil]
        omega
      · rw [List.length_singleton]
        omega

theorem stream_faithful_iff (junk : Message) (ps : List InSync) {m : Mouse} (h : m.count = 0) :
    Faithful ps (mouseBytes junk (ps.flatMap InSync.bytes) m).2 ↔ Regular junk m.buttons ps := by
  induction ps generalizing m with
  | nil => exact iff_of_true ⟨.nil, fun c hc => absurd hc List.not_mem_nil⟩ trivial
  | cons p ps ih =>
      obtain ⟨hcount, hbuttons, hcalls⟩ := packet_received junk h p
      have hrest := ih hcount
      have hlen := calls_length_le junk ps hcount
      rw [List.flatMap_cons, mouseBytes_append, hcalls, Regular]
      by_cases hres : p.Resyncs
      · rw [if_pos hres, List.nil_append]
        refine iff_of_false (fun hf => ?_) (fun hr => hr.1 hres)
        have := hf.1.length_eq
        rw [List.length_cons] at this
        dsimp only at this
        omega
      · rw [if_neg hres] at hbuttons
        rw [if_neg hres, List.singleton_append, ← hbuttons, ← hrest, ← assigned_iff
          p.packet_decodes.valid]
        unfold Faithful
        rw [List.forall₂_cons, List.forall_mem_cons]
        constructor
        · rintro ⟨⟨-, hps⟩, hassigned, hall⟩
          exact ⟨hres, hassigned, hps, hall⟩
        · rintro ⟨-, hassigned, hps, hall⟩
          exact ⟨⟨p.packet_decodes, hps⟩, hassigned, hall⟩

/-- When a stream of packets is decoded faithfully, however its bytes come in. -/
theorem packets_decoded_iff (junk : Message) (ps : List InSync) (is : List (UInt32 × List UInt8))
    {m : Mouse} (h : m.count = 0)
    (hbytes : (is.flatMap fun i => i.2.map (Prod.mk i.1)) = ps.flatMap InSync.bytes) :
    Faithful ps (interrupts junk is m).2 ↔ Regular junk m.buttons ps := by
  rw [interrupts_eq, hbytes]
  exact stream_faithful_iff junk ps h

/-- A mouse that was not touched yet. -/
def resting : Mouse where
  packet := ⟨false, false, 0, 0, false, false, false, false, false, 0⟩
  count := 0
  recovery := 0
  buttons := ⟨0, longAgo, longAgo⟩

/-- A packet of three bytes that come with one interrupt, if it is in sync. -/
def packetAt (first second third : UInt8) (tick : UInt32)
    (h : first.toNat.testBit 3 = true ∧ first.toNat.testBit 6 = false ∧
      first.toNat.testBit 7 = false) : InSync :=
  ⟨first, second, third, tick, tick, tick, h.1, h.2.1, h.2.2⟩

/-- The mouse moves. -/
theorem packets_decoded_iff_move :
    Faithful [packetAt 8 5 0 1 (by decide)] (interrupts noMessage [(1, [8, 5, 0])] resting).2 :=
  (packets_decoded_iff noMessage _ [(1, [8, 5, 0])] rfl rfl).2 ⟨by decide, by decide, trivial⟩

/-- The left button goes down, and up again 100 ticks later. -/
theorem late_release_unset :
    ¬Faithful [packetAt 9 0 0 1 (by decide), packetAt 8 0 0 101 (by decide)]
      (interrupts noMessage [(1, [9, 0, 0]), (101, [8, 0, 0])] resting).2 := by
  have hcalls : (interrupts noMessage [(1, [9, 0, 0]), (101, [8, 0, 0])] resting).2 =
      [(resting.buttons, (packetAt 9 0 0 1 (by decide)).packet),
        (⟨1, 1, longAgo⟩, (packetAt 8 0 0 101 (by decide)).packet)] := rfl
  rw [hcalls]
  intro h
  have hassigned := h.2 _ (List.mem_cons_of_mem _ List.mem_cons_self)
  exact (assigned_iff ⟨rfl, rfl⟩).1 hassigned (by decide)

end Xv6.Kernel.Wm
