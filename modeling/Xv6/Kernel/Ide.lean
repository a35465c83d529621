import Xv6.Kernel.Layout
import Xv6.Verified.Exec

/-!
# The disk driver

`kernel/ide.c`: the queue of requests, its interrupt handler, and processes that
wait in `iderw`.  The controller works on one command at a time; what it holds is
`active` until it raises an interrupt.  The device itself is `disk`, which a
write command changes when it completes.

The lists `asked`, `begun` and `done` record the requests in the order in which
they were made, started and completed, and `fault` whether the device ever
answered a read with an error.  No kernel variable holds these.

## Main results

* `Steps.inv`: the queue, the controller and the waiting processes agree, in
  every interleaving of calls, interrupts and returns.
* `requests_served`: requests are served in order, a process returns after its
  own, and what it read is what the device holds, unless the device answered a
  read with an error.
-/

namespace Xv6.Kernel.Ide

open Xv6.Verified
open Exec

/-! ## State -/

/-- `struct buf`, as far as the driver uses it. -/
structure Buf where
  dev : Nat
  sector : Nat
  busy : Bool
  valid : Bool
  dirty : Bool
  data : Block

/-- A place on the device: the drive and the first of the two disk sectors that
hold a block.  The controller takes 28 bits of the sector number. -/
abbrev Place := Nat × Nat

/-- Where `idestart` sends the request for `b`. -/
def Buf.place (b : Buf) : Place := (b.dev % 2, b.sector * (BSIZE / 512) % 2 ^ 28)

/-- `(b->flags & (B_VALID|B_DIRTY)) == B_VALID`. -/
def Buf.Clean (b : Buf) : Prop := b.valid = true ∧ b.dirty = false

instance (b : Buf) : Decidable b.Clean := by
  unfold Buf.Clean
  infer_instance

/-- A command of the controller.  The data of a write are sent with it. -/
inductive Cmd where
  | read (a : Place)
  | write (a : Place) (data : Block)

/-- A request: the process that made it and its buffer. -/
structure Req where
  proc : Nat
  buf : Nat

/-- A process inside `iderw`: its buffer, and which request, counted from 0, it
made. -/
structure Call where
  buf : Nat
  req : Nat

/-- The driver, its callers and the device. -/
structure State where
  buf : Nat → Buf
  idequeue : List Nat
  havedisk1 : Bool
  caller : Nat → Option Call
  active : Option Cmd
  disk : Place → Block
  asked : List Req
  begun : List Nat
  done : List Nat
  fault : Bool

/-- The panics of `iderw`. -/
inductive Panic where
  | notBusy
  | nothingToDo
  | noDisk1
  deriving DecidableEq, Repr

/-- Driver code. -/
abbrev M := Exec Panic State

/-- Replace buffer `b`. -/
def State.setBuf (s : State) (b : Nat) (x : Buf) : State :=
  { s with buf := Function.update s.buf b x }

/-! ## The code -/

/-- `idewait`, once the status `r` says that the drive is ready. -/
def idewait (checkerr : Bool) (r : UInt8) : Int :=
  if checkerr = true ∧ r &&& 0x21 ≠ 0 then -1 else 0

/-- The status that ends the loop of `idewait`: `IDE_DRDY` without `IDE_BSY`. -/
def Ready (r : UInt8) : Prop := r &&& 0xc0 = 0x40

instance (r : UInt8) : Decidable (Ready r) := by
  unfold Ready
  infer_instance

/-- The command for a buffer. -/
def Buf.cmd (b : Buf) : Cmd := if b.dirty then .write b.place b.data else .read b.place

/-- `idestart`. -/
def idestart (b : Nat) : M Unit :=
  modify fun s => { s with active := some (s.buf b).cmd, begun := s.begun ++ [b] }

/-- The device once it has carried out the controller's command. -/
def completed (disk : Place → Block) : Option Cmd → Place → Block
  | some (.write a data) => Function.update disk a data
  | _ => disk

/-- What `insl` takes from the controller after a read command, into a buffer that
held `old`. -/
def insl (disk : Place → Block) (old : Block) : Option Cmd → Block
  | some (.read a) => disk a
  | _ => old

/-- The start of `ideintr` after an interrupt for the request of `b`: the device has
carried it out, and the queue moves on to `rest`. -/
def dequeue (b : Nat) (rest : List Nat) (r : UInt8) : M Unit :=
  modify fun s =>
    { s with
      idequeue := rest
      disk := completed s.disk s.active
      done := s.done ++ [b]
      fault := s.fault || (!(s.buf b).dirty && decide (idewait true r < 0)) }

/-- `if (!(b->flags & B_DIRTY) && idewait (1) >= 0) insl(...)`. -/
def readData (b : Nat) (r : UInt8) : M Unit := do
  let s ← get
  if (s.buf b).dirty = false ∧ 0 ≤ idewait true r then
    modify fun s => s.setBuf b { s.buf b with data := insl s.disk (s.buf b).data s.active }
  else pure ()

/-- `b->flags |= B_VALID; b->flags &= ~B_DIRTY`. -/
def markDone (b : Nat) : M Unit :=
  modify fun s =>
    { s.setBuf b { s.buf b with valid := true, dirty := false } with active := none }

/-- `if (idequeue != 0) idestart (idequeue)`. -/
def startNext : List Nat → M Unit
  | [] => pure ()
  | b :: _ => idestart b

/-- `ideintr`, on an interrupt for which the status register reads `r`. -/
def ideintr (r : UInt8) : M Unit := do
  let s ← get
  match s.idequeue with
  | [] => return ()
  | b :: rest => do
      dequeue b rest r
      readData b r
      markDone b
      startNext rest

/-- `iderw` of process `p`, up to its wait. -/
def iderw (p b : Nat) : M Unit := do
  let s ← get
  if (s.buf b).busy = false then stop .notBusy
  else if (s.buf b).Clean then stop .nothingToDo
  else if (s.buf b).dev ≠ 0 ∧ s.havedisk1 = false then stop .noDisk1
  else do
    modify fun s =>
      { s with
        idequeue := s.idequeue ++ [b]
        caller := Function.update s.caller p (some ⟨b, s.asked.length⟩)
        asked := s.asked ++ [⟨p, b⟩] }
    if s.idequeue = [] then idestart b else pure ()

/-- The state after process `p` has appended `b` to the queue. -/
def State.enqueue (s : State) (p b : Nat) : State :=
  { s with
    idequeue := s.idequeue ++ [b]
    caller := Function.update s.caller p (some ⟨b, s.asked.length⟩)
    asked := s.asked ++ [⟨p, b⟩] }

/-- The state after `idestart`. -/
def State.start (s : State) (b : Nat) : State :=
  { s with active := some (s.buf b).cmd, begun := s.begun ++ [b] }

theorem iderw_ok {s s' : State} {p b : Nat} (h : (iderw p b).run s = .ok () s') :
    ¬(s.buf b).Clean ∧
      s' = if s.idequeue = [] then (s.enqueue p b).start b else s.enqueue p b := by
  simp only [iderw, run_get_bind, run_ite, run_stop] at h
  split at h
  · cases h
  split at h
  · cases h
  rename_i hclean
  split at h
  · cases h
  refine ⟨hclean, ?_⟩
  rw [run_modify_bind] at h
  split at h
  · rename_i hempty
    rw [if_pos hempty]
    cases h
    rfl
  · rename_i hempty
    rw [if_neg hempty]
    cases h
    rfl

/-- The state after the request at the head of the queue is done. -/
def State.finish (s : State) (b : Nat) (rest : List Nat) (r : UInt8) : State :=
  let disk := completed s.disk s.active
  let data := if (s.buf b).dirty = false ∧ 0 ≤ idewait true r then
    insl disk (s.buf b).data s.active else (s.buf b).data
  { s.setBuf b { s.buf b with data := data, valid := true, dirty := false } with
    idequeue := rest
    disk := disk
    active := none
    done := s.done ++ [b]
    fault := s.fault || (!(s.buf b).dirty && decide (idewait true r < 0)) }

theorem run_ideintr {s : State} {b : Nat} {rest : List Nat} (hq : s.idequeue = b :: rest)
    (r : UInt8) : (ideintr r).run s = (startNext rest).run (s.finish b rest r) := by
  rw [ideintr, run_get_bind, hq]
  simp only [dequeue, readData, markDone, run_bind, run_get, run_ite]
  unfold State.finish
  by_cases hread : (s.buf b).dirty = false ∧ 0 ≤ idewait true r
  · simp [State.setBuf, hread]
  · simp [State.setBuf, hread]

theorem ideintr_ok {s s' : State} {r : UInt8} (h : (ideintr r).run s = .ok () s') :
    (s.idequeue = [] ∧ s' = s) ∨ ∃ b rest, s.idequeue = b :: rest ∧
      (startNext rest).run (s.finish b rest r) = .ok () s' := by
  cases hq : s.idequeue with
  | nil =>
      rw [ideintr, run_get_bind, hq] at h
      cases h
      exact .inl ⟨rfl, rfl⟩
  | cons b rest =>
      rw [run_ideintr hq] at h
      exact .inr ⟨b, rest, rfl, h⟩

/-! ## Interleavings -/

/-- Buffer `b` is some process's in `iderw`. -/
def State.Waits (s : State) (b : Nat) : Prop := ∃ p c, s.caller p = some c ∧ c.buf = b

/-- The states that calls, interrupts and returns lead to, in any order. -/
inductive Steps (s : State) : State → Prop
  | refl : Steps s s
  /-- The process that holds a buffer changes it, outside of `iderw`. -/
  | touch {s₁ : State} (b : Nat) (x : Buf) (h : Steps s s₁) (hb : ¬s₁.Waits b) :
      Steps s (s₁.setBuf b x)
  /-- A process calls `iderw`.  The buffer cache gives a block one buffer, and
  that buffer to one process. -/
  | call {s₁ s₂ : State} (p b : Nat) (h : Steps s s₁) (hp : s₁.caller p = none)
      (hb : ∀ p' c, s₁.caller p' = some c →
        c.buf ≠ b ∧ (s₁.buf c.buf).place ≠ (s₁.buf b).place)
      (hrun : (iderw p b).run s₁ = .ok () s₂) : Steps s s₂
  /-- An interrupt. -/
  | intr {s₁ s₂ : State} (r : UInt8) (h : Steps s s₁) (hready : Ready r)
      (hrun : (ideintr r).run s₁ = .ok () s₂) : Steps s s₂
  /-- The test of the loop in `iderw` ends it, and the call returns. -/
  | ret {s₁ : State} (p : Nat) (c : Call) (h : Steps s s₁) (hp : s₁.caller p = some c)
      (hclean : (s₁.buf c.buf).Clean) :
      Steps s { s₁ with caller := Function.update s₁.caller p none }

/-- Nothing is under way. -/
structure Idle (s : State) : Prop where
  idequeue : s.idequeue = []
  caller : ∀ p, s.caller p = none
  active : s.active = none
  asked : s.asked = []
  begun : s.begun = []
  done : s.done = []
  fault : s.fault = false

/-! ## The invariant -/

/-- The queue and the processes inside `iderw` agree. -/
structure Queued (s : State) : Prop where
  fifo : s.asked.map Req.buf = s.done ++ s.idequeue
  nodup : s.idequeue.Nodup
  pending : ∀ b, b ∈ s.idequeue → ¬(s.buf b).Clean ∧ s.Waits b
  own : ∀ p c, s.caller p = some c → s.asked[c.req]? = some ⟨p, c.buf⟩
  served : ∀ p c, s.caller p = some c → c.buf ∈ s.idequeue ∨ (c.req < s.done.length ∧
    (s.fault = false → (s.buf c.buf).data = s.disk (s.buf c.buf).place))
  apart : ∀ p p' c c', s.caller p = some c → s.caller p' = some c' → p ≠ p' →
    c.buf ≠ c'.buf ∧ (s.buf c.buf).place ≠ (s.buf c'.buf).place

/-- And the controller works on the head of the queue. -/
structure Inv (s : State) : Prop extends Queued s where
  begun : s.begun = s.done ++ s.idequeue.take 1
  active : s.active = s.idequeue.head?.map fun b => (s.buf b).cmd

theorem Idle.inv {s : State} (h : Idle s) : Inv s where
  fifo := by rw [h.asked, h.done, h.idequeue]; rfl
  begun := by rw [h.begun, h.done, h.idequeue]; rfl
  active := by rw [h.active, h.idequeue]; rfl
  nodup := by rw [h.idequeue]; exact List.nodup_nil
  pending b hb := by simp [h.idequeue] at hb
  own p c hp := by simp [h.caller p] at hp
  served p c hp := by simp [h.caller p] at hp
  apart p p' c c' hp := by simp [h.caller p] at hp

/-- Starting a request changes nothing but the controller. -/
theorem Queued.start {s : State} (h : Queued s) (b : Nat) : Queued (s.start b) :=
  ⟨h.fifo, h.nodup, h.pending, h.own, h.served, h.apart⟩

section Steps

variable {s : State}

theorem Inv.touch (h : Inv s) {b : Nat} (hb : ¬s.Waits b) (x : Buf) : Inv (s.setBuf b x) := by
  have hbuf : ∀ b', s.Waits b' → (s.setBuf b x).buf b' = s.buf b' := by
    intro b' hw
    apply Function.update_of_ne
    rintro rfl
    exact hb hw
  have hcall : ∀ p c, s.caller p = some c → (s.setBuf b x).buf c.buf = s.buf c.buf :=
    fun p c hp => hbuf _ ⟨p, c, hp, rfl⟩
  refine ⟨⟨h.fifo, h.nodup, ?_, h.own, ?_, ?_⟩, h.begun, ?_⟩
  · intro b' hmem
    rw [hbuf b' (h.pending b' hmem).2]
    exact h.pending b' hmem
  · intro p c hp
    rw [hcall p c hp]
    exact h.served p c hp
  · intro p p' c c' hp hp' hne
    rw [hcall p c hp, hcall p' c' hp']
    exact h.apart p p' c c' hp hp' hne
  · rw [show (s.setBuf b x).active = s.active from rfl, h.active]
    apply Option.map_congr
    intro b' hhead
    rw [hbuf b' (h.pending b' (List.mem_of_mem_head? hhead)).2]

/-- What a caller is after one call more. -/
theorem enqueue_caller {p b p' : Nat} {c : Call} (h : (s.enqueue p b).caller p' = some c) :
    (p' = p ∧ c = ⟨b, s.asked.length⟩) ∨ (p' ≠ p ∧ s.caller p' = some c) := by
  change Function.update s.caller p (some ⟨b, s.asked.length⟩) p' = some c at h
  by_cases hp : p' = p
  · rw [hp, Function.update_self] at h
    cases h
    exact .inl ⟨hp, rfl⟩
  · rw [Function.update_of_ne hp] at h
    exact .inr ⟨hp, h⟩

theorem Queued.enqueue (h : Queued s) {p b : Nat} (hp : s.caller p = none)
    (hb : ∀ p' c, s.caller p' = some c →
      c.buf ≠ b ∧ (s.buf c.buf).place ≠ (s.buf b).place)
    (hclean : ¬(s.buf b).Clean) : Queued (s.enqueue p b) := by
  have hnew : b ∉ s.idequeue := by
    intro hmem
    obtain ⟨p', c, hc, heq⟩ := (h.pending b hmem).2
    exact (hb p' c hc).1 heq
  have hwaits : ∀ b', s.Waits b' → (s.enqueue p b).Waits b' := by
    rintro b' ⟨p', c, hc, heq⟩
    refine ⟨p', c, ?_, heq⟩
    show Function.update s.caller p _ p' = some c
    rw [Function.update_of_ne]
    · exact hc
    · rintro rfl
      simp [hp] at hc
  constructor
  · show (s.asked ++ [_]).map Req.buf = s.done ++ (s.idequeue ++ [b])
    rw [List.map_append, h.fifo, List.append_assoc]
    rfl
  · exact List.nodup_append.2 ⟨h.nodup, by simp, by
      intro a ha b' hb' hab
      rw [List.mem_singleton] at hb'
      exact hnew (by rwa [← hb', ← hab])⟩
  · intro b' hmem
    rcases List.mem_append.1 hmem with hmem | hmem
    · exact ⟨(h.pending b' hmem).1, hwaits b' (h.pending b' hmem).2⟩
    · rw [List.mem_singleton.1 hmem]
      exact ⟨hclean, p, ⟨b, s.asked.length⟩, Function.update_self _ _ _, rfl⟩
  · intro p' c hc
    show (s.asked ++ [_])[c.req]? = _
    rcases enqueue_caller hc with ⟨rfl, rfl⟩ | ⟨-, hc⟩
    · simp
    · have hown := h.own p' c hc
      have hlt : c.req < s.asked.length := by
        by_contra hge
        rw [List.getElem?_eq_none (by omega)] at hown
        cases hown
      rw [List.getElem?_append_left hlt, hown]
  · intro p' c hc
    rcases enqueue_caller hc with ⟨-, rfl⟩ | ⟨-, hc⟩
    · exact .inl (by simp [State.enqueue])
    · rcases h.served p' c hc with hmem | hdone
      · exact .inl (List.mem_append_left _ hmem)
      · exact .inr hdone
  · intro p₁ p₂ c₁ c₂ h₁ h₂ hne
    rcases enqueue_caller h₁ with ⟨hp₁, rfl⟩ | ⟨-, hold₁⟩
    · rcases enqueue_caller h₂ with ⟨hp₂, -⟩ | ⟨-, hold₂⟩
      · exact absurd (hp₁.trans hp₂.symm) hne
      · exact ⟨(hb p₂ c₂ hold₂).1.symm, (hb p₂ c₂ hold₂).2.symm⟩
    · rcases enqueue_caller h₂ with ⟨-, rfl⟩ | ⟨-, hold₂⟩
      · exact hb p₁ c₁ hold₁
      · exact h.apart p₁ p₂ c₁ c₂ hold₁ hold₂ hne

theorem Inv.call (h : Inv s) {s' : State} {p b : Nat} (hp : s.caller p = none)
    (hb : ∀ p' c, s.caller p' = some c →
      c.buf ≠ b ∧ (s.buf c.buf).place ≠ (s.buf b).place)
    (hrun : (iderw p b).run s = .ok () s') : Inv s' := by
  obtain ⟨hclean, rfl⟩ := iderw_ok hrun
  have hq := h.enqueue hp hb hclean
  have hbegun := h.begun
  have hactive := h.active
  cases hqueue : s.idequeue with
  | nil =>
      rw [hqueue] at hbegun
      refine ⟨hq.start b, ?_, ?_⟩
      · simp [State.start, State.enqueue, hqueue, hbegun]
      · simp [State.start, State.enqueue, hqueue]
  | cons b' rest =>
      rw [hqueue] at hbegun hactive
      refine ⟨hq, ?_, ?_⟩
      · simp [State.enqueue, hqueue, hbegun]
      · simp [State.enqueue, hqueue, hactive]

theorem Inv.ret (h : Inv s) {p : Nat} {c : Call} (hp : s.caller p = some c)
    (hclean : (s.buf c.buf).Clean) :
    Inv { s with caller := Function.update s.caller p none } := by
  have hold : ∀ p' c', Function.update s.caller p none p' = some c' → s.caller p' = some c' := by
    intro p' c' hc
    by_cases hpp : p' = p
    · rw [hpp, Function.update_self] at hc
      cases hc
    · rwa [Function.update_of_ne hpp] at hc
  refine ⟨⟨h.fifo, h.nodup, ?_, fun p' c' hc => h.own p' c' (hold p' c' hc),
    fun p' c' hc => h.served p' c' (hold p' c' hc),
    fun p₁ p₂ c₁ c₂ h₁ h₂ => h.apart p₁ p₂ c₁ c₂ (hold _ _ h₁) (hold _ _ h₂)⟩, h.begun, h.active⟩
  intro b hmem
  obtain ⟨hdirty, p', c', hc', heq⟩ := h.pending b hmem
  refine ⟨hdirty, p', c', ?_, heq⟩
  show Function.update s.caller p none p' = some c'
  rw [Function.update_of_ne, hc']
  -- a process that can return has no request in the queue
  rintro rfl
  rw [hp] at hc'
  cases hc'
  exact hdirty (heq ▸ hclean)

theorem insl_read (disk : Place → Block) {b : Buf} (hread : b.dirty = false) :
    insl (completed disk (some b.cmd)) b.data (some b.cmd) = disk b.place := by
  simp [Buf.cmd, hread, completed, insl]

theorem completed_write (disk : Place → Block) {b : Buf} (hwrite : b.dirty = true) :
    completed disk (some b.cmd) = Function.update disk b.place b.data := by
  simp [Buf.cmd, hwrite, completed]

/-- Only the place of the request can change on the device. -/
theorem completed_of_ne (disk : Place → Block) {b : Buf} {a : Place} (ha : a ≠ b.place) :
    completed disk (some b.cmd) a = disk a := by
  unfold Buf.cmd
  split
  · exact Function.update_of_ne ha _ _
  · rfl

theorem finish_buf (s : State) {b b' : Nat} (rest : List Nat) (r : UInt8) (h : b' ≠ b) :
    (s.finish b rest r).buf b' = s.buf b' := Function.update_of_ne h _ _

theorem finish_self (s : State) (b : Nat) (rest : List Nat) (r : UInt8) :
    ((s.finish b rest r).buf b).place = (s.buf b).place := by
  simp [State.finish, State.setBuf, Buf.place]

/-- The request at the head of the queue leaves its buffer and the device in
agreement, unless the device answered with an error. -/
theorem Inv.finish_data (h : Inv s) {b : Nat} {rest : List Nat} (hq : s.idequeue = b :: rest)
    {r : UInt8} (hfault : (s.finish b rest r).fault = false) :
    ((s.finish b rest r).buf b).data = (s.finish b rest r).disk (s.buf b).place := by
  have hactive : s.active = some (s.buf b).cmd := by rw [h.active, hq]; rfl
  simp only [State.finish, State.setBuf, Function.update_self, hactive, Bool.or_eq_false_iff,
    Bool.and_eq_false_iff, Bool.not_eq_false', decide_eq_false_iff_not] at hfault ⊢
  cases hdirty : (s.buf b).dirty with
  | true =>
      rw [if_neg (by simp), completed_write _ hdirty, Function.update_self]
  | false =>
      have hok : 0 ≤ idewait true r := by
        rcases hfault.2 with hd | hok
        · rw [hdirty] at hd
          cases hd
        · omega
      rw [if_pos ⟨rfl, hok⟩, insl_read _ hdirty]
      simp [Buf.cmd, hdirty, completed]

theorem Inv.finish (h : Inv s) {b : Nat} {rest : List Nat} (hq : s.idequeue = b :: rest)
    (r : UInt8) : Queued (s.finish b rest r) := by
  have hnodup := h.nodup
  rw [hq, List.nodup_cons] at hnodup
  have hfifo := h.fifo
  rw [hq] at hfifo
  have hactive : s.active = some (s.buf b).cmd := by rw [h.active, hq]; rfl
  have hplace : ∀ b', ((s.finish b rest r).buf b').place = (s.buf b').place := by
    intro b'
    by_cases hb : b' = b
    · rw [hb]
      exact finish_self s b rest r
    · rw [finish_buf s rest r hb]
  constructor
  · show s.asked.map Req.buf = s.done ++ [b] ++ rest
    rw [hfifo, List.append_assoc]
    rfl
  · exact hnodup.2
  · intro b' hmem
    have hne : b' ≠ b := fun heq => hnodup.1 (heq ▸ hmem)
    rw [finish_buf s rest r hne]
    exact h.pending b' (by rw [hq]; exact List.mem_cons_of_mem _ hmem)
  · exact h.own
  · intro p c hp
    change s.caller p = some c at hp
    by_cases hcb : c.buf = b
    · -- its own request: the number is not past the requests done
      refine .inr ⟨?_, fun hfault => ?_⟩
      · show c.req < (s.done ++ [b]).length
        by_contra hge
        have hown := h.own p c hp
        have hat : (s.asked.map Req.buf)[c.req]? = some b := by
          rw [List.getElem?_map, hown, ← hcb]
          rfl
        rw [List.length_append, List.length_singleton] at hge
        rw [hfifo, List.getElem?_append_right (by omega),
          show c.req - s.done.length = (c.req - s.done.length - 1) + 1 by omega,
          List.getElem?_cons_succ] at hat
        exact hnodup.1 (List.mem_of_getElem? hat)
      · rw [hcb, hplace]
        exact h.finish_data hq hfault
    · rw [hplace, finish_buf s rest r hcb]
      rcases h.served p c hp with hmem | ⟨hlt, hdata⟩
      · rw [hq, List.mem_cons] at hmem
        exact .inl (hmem.resolve_left hcb)
      · refine .inr ⟨?_, fun hfault => ?_⟩
        · show c.req < (s.done ++ [b]).length
          rw [List.length_append]
          omega
        · have hold : s.fault = false := (Bool.or_eq_false_iff.1 hfault).1
          obtain ⟨-, p', c', hc', heq⟩ := h.pending b (by rw [hq]; exact List.mem_cons_self)
          have hne : p ≠ p' := by
            rintro rfl
            rw [hp] at hc'
            cases hc'
            exact hcb heq
          have hapart := (h.apart p p' c c' hp hc' hne).2
          rw [heq] at hapart
          show _ = completed s.disk s.active _
          rw [hactive, completed_of_ne _ hapart]
          exact hdata hold
  · intro p₁ p₂ c₁ c₂ h₁ h₂ hne
    rw [hplace, hplace]
    exact h.apart p₁ p₂ c₁ c₂ h₁ h₂ hne

theorem Inv.intr (h : Inv s) {s' : State} {r : UInt8} (hrun : (ideintr r).run s = .ok () s') :
    Inv s' := by
  rcases ideintr_ok hrun with ⟨-, rfl⟩ | ⟨b, rest, hq, hnext⟩
  · exact h
  · have hqueued := h.finish hq r
    have hbegun : s.begun = s.done ++ [b] := by rw [h.begun, hq]; rfl
    cases rest with
    | nil =>
        cases hnext
        exact ⟨hqueued, by simp [State.finish, State.setBuf, hbegun], rfl⟩
    | cons next rest =>
        cases hnext
        exact ⟨hqueued.start next, by simp [State.finish, State.setBuf, hbegun], rfl⟩

end Steps

/-- The invariant holds in every interleaving. -/
theorem Steps.inv {s₀ s : State} (h : Steps s₀ s) (h₀ : Inv s₀) : Inv s := by
  induction h with
  | refl => exact h₀
  | touch b x _ hb ih => exact ih.touch hb x
  | call p b _ hp hb hrun ih => exact ih.call hp hb hrun
  | intr r _ _ hrun ih => exact ih.intr hrun
  | ret p c _ hp hclean ih => exact ih.ret hp hclean

/-! ## Service -/

/-- Requests are begun and completed in the order in which they were made, none of
them twice, and one at a time. -/
structure InOrder (s : State) : Prop where
  begun : s.begun <+: s.asked.map Req.buf
  done : s.done <+: s.begun
  one : s.begun.length ≤ s.done.length + 1

theorem Inv.inOrder {s : State} (h : Inv s) : InOrder s where
  begun := by
    rw [h.fifo, h.begun]
    exact List.prefix_append_right_inj _ |>.2 (List.take_prefix _ _)
  done := by
    rw [h.begun]
    exact List.prefix_append _ _
  one := by
    rw [h.begun, List.length_append, List.length_take]
    omega

/-- **Disk requests.**  Whatever the order of calls and interrupts, requests are
served first come, first served; a process whose wait in `iderw` is over has had
its own request completed; and if the device has answered no read with an error,
its buffer holds what the device holds. -/
theorem requests_served {s₀ s : State} (h₀ : Idle s₀) (h : Steps s₀ s) :
    InOrder s ∧ ∀ p c, s.caller p = some c → (s.buf c.buf).Clean →
      (s.asked[c.req]? = some ⟨p, c.buf⟩ ∧ c.req < s.done.length) ∧
      (s.fault = false → (s.buf c.buf).data = s.disk (s.buf c.buf).place) := by
  have hinv := h.inv h₀.inv
  refine ⟨hinv.inOrder, fun p c hp hclean => ?_⟩
  rcases hinv.served p c hp with hmem | ⟨hlt, hdata⟩
  · exact absurd hclean (hinv.pending _ hmem).1
  · exact ⟨⟨hinv.own p c hp, hlt⟩, hdata⟩

/-- Nothing under way, empty buffers, and a device full of ones. -/
def fresh : State where
  buf _ := ⟨0, 0, true, false, false, Block.zero⟩
  idequeue := []
  havedisk1 := false
  caller _ := none
  active := none
  disk _ := fun _ => 1
  asked := []
  begun := []
  done := []
  fault := false

theorem fresh_idle : Idle fresh := ⟨rfl, fun _ => rfl, rfl, rfl, rfl, rfl, rfl⟩

/-- Process 0 asks for the block of buffer 0, and the device answers with status
`r`. -/
theorem fresh_read {r : UInt8} (hr : Ready r) :
    Steps fresh (((fresh.enqueue 0 0).start 0).finish 0 [] r) := by
  have hcall : Steps fresh ((fresh.enqueue 0 0).start 0) :=
    .call 0 0 .refl rfl (fun p c hp => by cases hp) rfl
  have hqueue : ((fresh.enqueue 0 0).start 0).idequeue = [0] := rfl
  exact hcall.intr r hr (run_ideintr hqueue r)

/-- The buffers are of different blocks. -/
def freshPair : State := { fresh with buf b := { fresh.buf b with sector := b } }

theorem freshPair_idle : Idle freshPair := ⟨rfl, fun _ => rfl, rfl, rfl, rfl, rfl, rfl⟩

/-- Process 1 asks for the block of buffer 1 while the device reads that of buffer 0 for
process 0. -/
theorem requests_served_two_reads :
    ∃ s, Idle freshPair ∧ Steps freshPair s ∧ s.fault = false ∧ s.asked = [⟨0, 0⟩, ⟨1, 1⟩] ∧
      s.done = [0, 1] ∧ (s.buf 0).data = s.disk (s.buf 0).place ∧
      (s.buf 1).data = s.disk (s.buf 1).place := by
  have h₁ : Steps freshPair ((freshPair.enqueue 0 0).start 0) :=
    .call 0 0 .refl rfl (fun p c hp => by cases hp) rfl
  have h₂ : Steps freshPair (((freshPair.enqueue 0 0).start 0).enqueue 1 1) := by
    refine .call 1 1 h₁ rfl (fun p c hp => ?_) rfl
    by_cases hzero : p = 0
    · subst hzero
      cases hp
      exact ⟨by decide, by decide⟩
    · rw [show ((freshPair.enqueue 0 0).start 0).caller p = none from
        Function.update_of_ne hzero _ _] at hp
      cases hp
  have hqueue : (((freshPair.enqueue 0 0).start 0).enqueue 1 1).idequeue = [0, 1] := rfl
  have h₃ := h₂.intr 0x40 (by decide) ((run_ideintr hqueue 0x40).trans rfl)
  have hlast : (((((freshPair.enqueue 0 0).start 0).enqueue 1 1).finish 0 [1] 0x40).start
    1).idequeue = [1] := rfl
  have h₄ := h₃.intr 0x40 (by decide) ((run_ideintr hlast 0x40).trans rfl)
  have hserved := (requests_served freshPair_idle h₄).2
  exact ⟨_, freshPair_idle, h₄, by decide, rfl, rfl,
    (hserved 0 ⟨0, 0⟩ rfl ⟨rfl, rfl⟩).2 (by decide),
    (hserved 1 ⟨1, 1⟩ rfl ⟨rfl, rfl⟩).2 (by decide)⟩

/-- A read that the device answers with `IDE_ERR` ends with a valid buffer that does
not hold the block. -/
theorem failed_read_is_valid :
    Idle fresh ∧ ∃ s c, Steps fresh s ∧ s.caller 0 = some c ∧ (s.buf c.buf).Clean ∧
      (s.buf c.buf).data ≠ s.disk (s.buf c.buf).place := by
  refine ⟨fresh_idle, _, ⟨0, 0⟩, fresh_read (r := 0x41) (by decide), rfl, ⟨rfl, rfl⟩, fun heq => ?_⟩
  exact absurd (congrFun heq 0) (by decide)

end Xv6.Kernel.Ide
