import Xv6.Kernel.WindowManager
import Xv6.Verified.RingBuffer

/-!
# Message queues

The queue of messages of a window, in `kernel/window_manager.c`: a ring of `MSG_BUF_SIZE` messages
with `front`, `rear` and the number of messages.

* `queue_fifo`: whatever is called in whatever order, the messages come out as they went in, and
  only a full queue refuses one.
-/

namespace Xv6.Kernel.MessageQueue

open Verified Wm

/-- `getMessage`, if there is a message: otherwise it returns 1 and does nothing. -/
def getMessage (buf : MsgBuf) : Option (MsgBuf × Message) :=
  if buf.cnt = 0 then none
  else some ({ buf with cnt := buf.cnt - 1, front := buf.front + 1 }, buf.data buf.front)

/-- What `dispatchMessage` returns. -/
def dispatchResult (buf : MsgBuf) : Int := if buf.cnt ≥ MSG_BUF_SIZE then 1 else 0

/-- A call. -/
inductive Call where
  | initMessageQueue
  | dispatchMessage (msg : Message)
  | getMessage

/-- A queue, with the messages that it accepted and returned since `initMessageQueue`. -/
structure Queue where
  buf : MsgBuf
  accepted : List Message
  returned : List Message

/-- One call on the queue. -/
def Queue.call (q : Queue) : Call → Queue
  | .initMessageQueue => ⟨Wm.initMessageQueue q.buf, [], []⟩
  | .dispatchMessage msg => { q with
      buf := Wm.dispatchMessage q.buf msg
      accepted := if dispatchResult q.buf = 0 then q.accepted ++ [msg] else q.accepted }
  | .getMessage =>
      match MessageQueue.getMessage q.buf with
      | none => q
      | some (buf, msg) => { q with buf := buf, returned := q.returned ++ [msg] }

/-- Calls one after the other, on a queue that starts with `initMessageQueue`. -/
def run (buf : MsgBuf) (calls : List Call) : Queue :=
  calls.foldl Queue.call ⟨Wm.initMessageQueue buf, [], []⟩

/-! ## The invariant -/

/-- The cells of the ring. -/
def cell (buf : MsgBuf) (i : Nat) : Message := buf.data (Fin.ofNat MSG_BUF_SIZE i)

/-- The ring holds what was accepted and not returned yet. -/
structure Queue.Fifo (q : Queue) : Prop where
  buffers : Buffers MSG_BUF_SIZE MSG_BUF_SIZE (cell q.buf) q.buf.front q.buf.rear q.accepted
    q.returned.length
  count : q.returned.length + q.buf.cnt = q.accepted.length
  returned_take : q.returned = q.accepted.take q.returned.length

theorem fifo_init (buf : MsgBuf) : Queue.Fifo ⟨Wm.initMessageQueue buf, [], []⟩ :=
  ⟨.nil _ _ _, rfl, rfl⟩

theorem dispatchResult_eq_zero {buf : MsgBuf} :
    dispatchResult buf = 0 ↔ buf.cnt < MSG_BUF_SIZE := by
  unfold dispatchResult
  split_ifs with h
  · exact iff_of_false (by decide) (Nat.not_lt.2 h)
  · exact iff_of_true rfl (Nat.not_le.1 h)

theorem fin_val_add_one (i : Fin MSG_BUF_SIZE) : (i + 1 : Fin MSG_BUF_SIZE).val =
    (i.val + 1) % MSG_BUF_SIZE := by
  rw [Fin.val_add]
  rfl

theorem cell_update {buf : MsgBuf} {msg : Message} {i : Nat} (hi : i < MSG_BUF_SIZE) :
    Function.update buf.data buf.rear msg (Fin.ofNat MSG_BUF_SIZE i) =
      Function.update (cell buf) (buf.rear.val % MSG_BUF_SIZE) msg i := by
  have hrear := Nat.mod_eq_of_lt buf.rear.isLt
  by_cases heq : Fin.ofNat MSG_BUF_SIZE i = buf.rear
  · have : i = buf.rear.val % MSG_BUF_SIZE := by
      rw [hrear, ← heq, Fin.val_ofNat, Nat.mod_eq_of_lt hi]
    rw [heq, Function.update_self, this, Function.update_self]
  · have : i ≠ buf.rear.val % MSG_BUF_SIZE := by
      rintro rfl
      exact heq (Fin.ext (by rw [Fin.val_ofNat, Nat.mod_mod, hrear]))
    rw [Function.update_of_ne heq, Function.update_of_ne this]
    rfl

/-- A message that is accepted. -/
theorem Queue.Fifo.dispatch {q : Queue} (h : q.Fifo) (msg : Message) :
    (q.call (.dispatchMessage msg)).Fifo := by
  have hcount := h.count
  rw [Queue.call]
  by_cases hroom : q.buf.cnt < MSG_BUF_SIZE
  · rw [if_pos (dispatchResult_eq_zero.2 hroom), Wm.dispatchMessage, if_neg (Nat.not_le.2 hroom)]
    refine ⟨?_, ?_, ?_⟩
    · have hput := h.buffers.put (Nat.dvd_refl _) (by omega) msg
      rw [← fin_val_add_one] at hput
      exact hput.congr fun i hi => cell_update hi
    · rw [List.length_append, List.length_singleton]
      dsimp only
      omega
    · rw [List.take_append_of_le_length (by dsimp only; omega)]
      exact h.returned_take
  · rw [if_neg (mt dispatchResult_eq_zero.1 hroom), Wm.dispatchMessage,
      if_pos (Nat.not_lt.1 hroom)]
    exact h

/-- The next message. -/
theorem Queue.Fifo.get {q : Queue} (h : q.Fifo) : (q.call .getMessage).Fifo := by
  have hcount := h.count
  rw [Queue.call, MessageQueue.getMessage]
  by_cases hempty : q.buf.cnt = 0
  · rw [if_pos hempty]
    exact h
  · rw [if_neg hempty]
    obtain ⟨hnext, htake⟩ := h.buffers.take (Nat.dvd_refl _) (by omega)
    have hcell : cell q.buf (q.buf.front.val % MSG_BUF_SIZE) = q.buf.data q.buf.front :=
      congrArg q.buf.data (Fin.ext (by
        rw [Fin.val_ofNat, Nat.mod_mod, Nat.mod_eq_of_lt q.buf.front.isLt]))
    refine ⟨?_, ?_, ?_⟩
    · rw [List.length_append, List.length_singleton]
      rw [← fin_val_add_one] at htake
      exact htake
    · rw [List.length_append, List.length_singleton]
      dsimp only
      omega
    · rw [List.length_append, List.length_singleton, List.take_add_one, hnext, hcell,
        ← h.returned_take]
      rfl

theorem Queue.Fifo.call {q : Queue} (h : q.Fifo) : ∀ c, (q.call c).Fifo
  | .initMessageQueue => fifo_init q.buf
  | .dispatchMessage msg => h.dispatch msg
  | .getMessage => h.get

theorem run_fifo (buf : MsgBuf) (calls : List Call) : (run buf calls).Fifo := by
  unfold run
  generalize hq : (⟨Wm.initMessageQueue buf, [], []⟩ : Queue) = q
  have h : q.Fifo := hq ▸ fifo_init buf
  clear hq
  induction calls generalizing q with
  | nil => exact h
  | cons c calls ih => exact ih _ (h.call c)

/-! ## What the callers see -/

/-- After any calls: the messages returned are the first of those accepted and `cnt` are left, the
queue refuses a message exactly if `MSG_BUF_SIZE` of them are, and the indices and the count
agree. -/
theorem queue_fifo (buf : MsgBuf) (calls : List Call) :
    let q := run buf calls
    q.returned <+: q.accepted ∧ q.returned.length + q.buf.cnt = q.accepted.length ∧
      (dispatchResult q.buf ≠ 0 ↔ q.accepted.length = q.returned.length + MSG_BUF_SIZE) ∧
      q.buf.rear.val = (q.buf.front.val + q.buf.cnt) % MSG_BUF_SIZE ∧
      q.buf.cnt ≤ MSG_BUF_SIZE := by
  have h := run_fifo buf calls
  have hcount := h.count
  have hroom := h.buffers.room
  refine ⟨?_, hcount, ?_, ?_, by omega⟩
  · rw [h.returned_take]
    exact List.take_prefix _ _
  · rw [Ne, dispatchResult_eq_zero]
    omega
  · rw [h.buffers.reader, h.buffers.writer, Nat.mod_add_mod, hcount]

/-- A message of type `t` without parameters. -/
def message (t : Int) : Message := ⟨t, fun _ => 0⟩

/-- Two messages go in and the first comes out. -/
theorem queue_fifo_two : ∃ buf,
    let q := run buf [.dispatchMessage (message 1), .dispatchMessage (message 2), .getMessage]
    q.returned = [message 1] ∧ q.accepted = [message 1, message 2] ∧ q.buf.cnt = 1 ∧
      q.returned.length + q.buf.cnt = q.accepted.length :=
  ⟨⟨fun _ => message 0, 0, 0, 0⟩, rfl, rfl, rfl, (queue_fifo _ _).2.1⟩

end Xv6.Kernel.MessageQueue
