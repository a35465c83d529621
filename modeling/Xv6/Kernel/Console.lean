import Mathlib.Tactic.SplitIfs
import Xv6.Kernel.Layout
import Xv6.Verified.RingBuffer
import Xv6.Verified.Transitions

/-!
# Console input

`consoleintr` and `consoleread` of `kernel/console.c`: a ring of `INPUT_BUF` bytes and the
counters `r`, `w` and `e`, of 32 bits each.  The interrupt handler edits between `w` and `e`;
readers take what lies between `r` and `w`.  Both work under `input.lock`, which a reader gives
up only to sleep, so a step is one call of the handler, or a reader from where it starts or
wakes up to where it returns or sleeps.

`Editor` is what all this is for: the stream of bytes that were committed, how many of them
were taken, and the line that is being edited.

^Z, ^P and ^D are handled without a look at the ring.  What `procdump`, `show_disk_free` and
`lidt` do is not modelled here.

## Main results

* `key_rep`, `readLoop_rep`: the ring does what the editor does.
* `console_of_run`: the order of the counters, the bytes that readers get, and the ends of
  lines, in every state of every run.
-/

namespace Xv6.Kernel.Console

open Xv6.Verified

/-- `INPUT_BUF`. -/
abbrev INPUT_BUF : Nat := 128

/-- Control characters. -/
abbrev ctrlD : UInt8 := 4
@[inherit_doc ctrlD] abbrev ctrlH : UInt8 := 8
@[inherit_doc ctrlD] abbrev ctrlP : UInt8 := 16
@[inherit_doc ctrlD] abbrev ctrlU : UInt8 := 21
@[inherit_doc ctrlD] abbrev ctrlZ : UInt8 := 26
@[inherit_doc ctrlD] abbrev newline : UInt8 := 10
@[inherit_doc ctrlD] abbrev carriageReturn : UInt8 := 13
@[inherit_doc ctrlD] abbrev delete : UInt8 := 127

/-- `input`, without its lock. -/
structure Input where
  buf : Nat → UInt8
  r : Nat
  w : Nat
  e : Nat

/-- `x - y` for two counters. -/
def minus (x y : Nat) : Nat := (x + UINT - y) % UINT

/-! ## The interrupt handler -/

/-- `while (input.e != input.w && input.buf[(input.e-1) % INPUT_BUF] != '\n') input.e--`.
There are `minus e w` rounds at most. -/
def killLine : Nat → Input → Input
  | 0, g => g
  | fuel + 1, g =>
      if g.e ≠ g.w ∧ g.buf (minus g.e 1 % INPUT_BUF) ≠ newline then
        killLine fuel { g with e := minus g.e 1 }
      else g

/-- `input.buf[input.e++ % INPUT_BUF] = c`, and the commit if `c` ends the line or the ring is
full. -/
def store (g : Input) (c : UInt8) : Input :=
  let g := { g with
    buf := Function.update g.buf (g.e % INPUT_BUF) c
    e := (g.e + 1) % UINT }
  if c = newline ∨ c = ctrlD ∨ g.e = (g.r + INPUT_BUF) % UINT then { g with w := g.e } else g

/-- One round of the loop in `consoleintr`, for character `c`. -/
def consoleKey (g : Input) (c : UInt8) : Input :=
  if c = ctrlZ then g
  else if c = ctrlP then g
  else if c = ctrlU then killLine (minus g.e g.w) g
  else if c = ctrlH ∨ c = delete then
    if g.e ≠ g.w then { g with e := minus g.e 1 } else g
  else if c = ctrlD then g
  else if c ≠ 0 ∧ minus g.e g.r < INPUT_BUF then
    store g (if c = carriageReturn then newline else c)
  else g

/-- `consoleintr`, when `getc` answers with the characters `cs`. -/
def consoleintr (g : Input) (cs : List UInt8) : Input := cs.foldl consoleKey g

/-! ## Readers -/

/-- How the loop of `consoleread` ends: the call returns, it fails because the process was
killed, or the process sleeps with `n` bytes to go. -/
inductive Status where
  | returned
  | failed
  | asleep (n : Nat)
  deriving DecidableEq

/-- The ring and the bytes stored at `dst` when the loop ends. -/
structure Outcome where
  input : Input
  got : List UInt8
  status : Status

/-- The loop of `consoleread` with `n` bytes to go; `got` are those stored so far. -/
def readLoop (killed : Bool) (target : Nat) : Nat → Input → List UInt8 → Outcome
  | 0, g, got => ⟨g, got, .returned⟩
  | n + 1, g, got =>
      if g.r = g.w then
        if killed then ⟨g, got, .failed⟩ else ⟨g, got, .asleep (n + 1)⟩
      else
        let c := g.buf (g.r % INPUT_BUF)
        let g := { g with r := (g.r + 1) % UINT }
        if c = ctrlD then
          ⟨if n + 1 < target then { g with r := minus g.r 1 } else g, got, .returned⟩
        else if c = newline then ⟨g, got ++ [c], .returned⟩
        else readLoop killed target n g (got ++ [c])

/-! ## The reference editor -/

/-- A line editor: the bytes committed so far, the number of them that were taken, and the
line that is being edited. -/
structure Editor where
  stream : List UInt8
  taken : Nat
  line : List UInt8

namespace Editor

/-- The number of characters that were typed and neither deleted nor taken. -/
def outstanding (a : Editor) : Nat := a.stream.length + a.line.length - a.taken

/-- The line is committed. -/
def commit (a : Editor) : Editor := { a with stream := a.stream ++ a.line, line := [] }

/-- A character is added to the line, which is committed if it is full or the character ends
it. -/
def add (a : Editor) (c : UInt8) : Editor :=
  let a := { a with line := a.line ++ [c] }
  if c = newline ∨ a.outstanding = INPUT_BUF then a.commit else a

/-- A character is typed. -/
def key (a : Editor) (c : UInt8) : Editor :=
  if c = ctrlZ ∨ c = ctrlP ∨ c = ctrlD then a
  else if c = ctrlU then { a with line := [] }
  else if c = ctrlH ∨ c = delete then { a with line := a.line.dropLast }
  else if c ≠ 0 ∧ a.outstanding < INPUT_BUF then
    a.add (if c = carriageReturn then newline else c)
  else a

/-- `k` bytes are taken. -/
def take (a : Editor) (k : Nat) : Editor := { a with taken := a.taken + k }

end Editor

variable {g : Input} {a : Editor} {c : UInt8}

/-- The ring holds what the editor has committed and not given away, and the line. -/
structure Rep (g : Input) (a : Editor) : Prop where
  ring : Buffers INPUT_BUF UINT g.buf g.r g.e (a.stream ++ a.line) a.taken
  committed : g.w = a.stream.length % UINT
  taken : a.taken ≤ a.stream.length
  plain : ∀ c ∈ a.stream ++ a.line, c ≠ ctrlD
  line : newline ∉ a.line

theorem Rep.count (h : Rep g a) : minus g.e g.r = a.outstanding := by
  rw [minus, h.ring.count (by decide), Editor.outstanding, List.length_append]

/-- The line alone, as a ring of its own between `w` and `e`. -/
theorem Rep.pending (h : Rep g a) :
    Buffers INPUT_BUF UINT g.buf g.w g.e (a.stream ++ a.line) a.stream.length where
  reader := h.committed
  writer := h.ring.writer
  taken := by simp
  room := Nat.le_trans h.ring.room (Nat.add_le_add_right h.taken _)
  cells j hj hj' := h.ring.cells j (Nat.le_trans h.taken hj) hj'

/-- `input.e == input.w`. -/
theorem Rep.line_empty (h : Rep g a) : g.e = g.w ↔ a.line = [] := by
  rw [eq_comm, h.pending.empty_iff (by decide), List.length_append, ← List.length_eq_zero_iff]
  omega

theorem Rep.line_length (h : Rep g a) : minus g.e g.w = a.line.length := by
  rw [minus, h.pending.count (by decide), List.length_append, Nat.add_sub_cancel_left]

/-- The last character of the line is deleted. -/
theorem Rep.delete {l : List UInt8} {x : UInt8} (h : Rep g a) (hline : a.line = l ++ [x]) :
    g.buf (minus g.e 1 % INPUT_BUF) = x ∧
      Rep { g with e := minus g.e 1 } { a with line := l } := by
  have hring := h.ring
  rw [hline, ← List.append_assoc] at hring
  obtain ⟨hlast, hring'⟩ := hring.unput (by decide) (by decide)
    (by rw [List.length_append]; exact Nat.le_add_right_of_le h.taken)
  refine ⟨hlast, hring', h.committed, h.taken, fun c hc => h.plain c ?_, fun hmem => h.line ?_⟩
  · rw [hline, ← List.append_assoc]
    exact List.mem_append_left _ hc
  · rw [hline]
    exact List.mem_append_left _ hmem

/-- Kill-line takes back the whole line: there is no newline in it. -/
theorem killLine_rep (h : Rep g a) : Rep (killLine a.line.length g) { a with line := [] } := by
  induction hn : a.line.length generalizing g a with
  | zero =>
      have hnil := List.eq_nil_of_length_eq_zero hn
      rw [killLine, ← hnil]
      exact h
  | succ n ih =>
      rcases a.line.eq_nil_or_concat with hnil | ⟨l, x, hline⟩
      · rw [hnil] at hn
        cases hn
      · rw [List.concat_eq_append] at hline
        obtain ⟨hlast, hrep⟩ := h.delete hline
        have hne : g.e ≠ g.w := by
          rw [ne_eq, h.line_empty, hline]
          simp
        have hx : x ≠ newline := by
          rintro rfl
          exact h.line (by rw [hline]; simp)
        rw [killLine, if_pos ⟨hne, by rw [hlast]; exact hx⟩]
        refine ih (a := { a with line := l }) hrep ?_
        rw [hline, List.length_append] at hn
        simpa using hn

/-- A character is put at the end of the line. -/
theorem Rep.add (h : Rep g a) (hc : c ≠ ctrlD) (hfree : a.outstanding < INPUT_BUF) :
    Rep (store g c) (a.add c) := by
  have hlen : (a.stream ++ a.line).length ≠ a.taken + INPUT_BUF := by
    rw [Editor.outstanding] at hfree
    rw [List.length_append]
    omega
  have hput := h.ring.put (by decide) hlen c
  rw [List.append_assoc] at hput
  have hplain : ∀ b ∈ a.stream ++ (a.line ++ [c]), b ≠ ctrlD := by
    intro b hb
    rw [← List.append_assoc, List.mem_append] at hb
    rcases hb with hb | hb
    · exact h.plain b hb
    · rw [List.mem_singleton.1 hb]
      exact hc
  have hfull := hput.full_iff (by decide)
  have hout : (a.stream ++ (a.line ++ [c])).length = a.taken + INPUT_BUF ↔
      a.stream.length + (a.line ++ [c]).length - a.taken = INPUT_BUF := by
    have := h.taken
    rw [List.length_append]
    omega
  rw [hout] at hfull
  have hadd : a.add c =
      if c = newline ∨ a.stream.length + (a.line ++ [c]).length - a.taken = INPUT_BUF
      then ⟨a.stream ++ (a.line ++ [c]), a.taken, []⟩ else ⟨a.stream, a.taken, a.line ++ [c]⟩ := rfl
  simp only [store, hadd, hc, false_or, hfull]
  by_cases hcommit :
      c = newline ∨ a.stream.length + (a.line ++ [c]).length - a.taken = INPUT_BUF
  · rw [if_pos hcommit, if_pos hcommit]
    refine ⟨by rwa [List.append_nil], hput.writer, ?_, by rwa [List.append_nil], List.not_mem_nil⟩
    rw [List.length_append]
    exact Nat.le_add_right_of_le h.taken
  · rw [if_neg hcommit, if_neg hcommit]
    refine ⟨hput, h.committed, h.taken, hplain, ?_⟩
    rw [List.mem_append, List.mem_singleton, not_or]
    rw [not_or] at hcommit
    exact ⟨h.line, fun heq => hcommit.1 heq.symm⟩

/-- The ring follows the editor, key by key. -/
theorem key_rep (h : Rep g a) (c : UInt8) : Rep (consoleKey g c) (a.key c) := by
  by_cases hZ : c = ctrlZ
  · simpa [consoleKey, Editor.key, hZ] using h
  by_cases hP : c = ctrlP
  · simpa [consoleKey, Editor.key, hP] using h
  by_cases hU : c = ctrlU
  · subst hU
    simpa +decide [consoleKey, Editor.key, h.line_length] using killLine_rep h
  by_cases hH : c = ctrlH ∨ c = Console.delete
  · have hD : c ≠ ctrlD := by rcases hH with rfl | rfl <;> decide
    simp only [consoleKey, Editor.key, hZ, hP, hU, hH, hD, if_false, if_true, or_self]
    rcases a.line.eq_nil_or_concat with hnil | ⟨l, x, hline⟩
    · rw [if_neg (not_not.2 (h.line_empty.2 hnil)), hnil, List.dropLast_nil, ← hnil]
      exact h
    · rw [List.concat_eq_append] at hline
      have hne : g.e ≠ g.w := by
        rw [ne_eq, h.line_empty, hline]
        simp
      rw [if_pos hne, hline, List.dropLast_concat]
      exact (h.delete hline).2
  by_cases hD : c = ctrlD
  · subst hD
    simpa +decide [consoleKey, Editor.key] using h
  simp only [consoleKey, Editor.key, hZ, hP, hU, hH, hD, if_false, or_self, h.count]
  by_cases hfree : c ≠ 0 ∧ a.outstanding < INPUT_BUF
  · rw [if_pos hfree, if_pos hfree]
    refine h.add ?_ hfree.2
    split_ifs
    · decide
    · exact hD
  · rw [if_neg hfree, if_neg hfree]
    exact h

theorem intr_rep (h : Rep g a) (cs : List UInt8) :
    Rep (consoleintr g cs) (cs.foldl Editor.key a) := by
  induction cs generalizing g a with
  | nil => exact h
  | cons c cs ih => exact ih (key_rep h c)

/-! ## Readers follow the editor -/

/-- `input.r == input.w`. -/
theorem Rep.none_left (h : Rep g a) : g.r = g.w ↔ a.taken = a.stream.length := by
  have hroom := h.ring.room
  rw [List.length_append] at hroom
  rw [h.ring.reader, h.committed]
  constructor
  · intro heq
    exact mod_inj_of_le (n := INPUT_BUF) (m := UINT) (by decide) h.taken (by omega) heq
  · intro heq
    rw [heq]

/-- `input.buf[input.r++ % INPUT_BUF]`. -/
theorem Rep.next (h : Rep g a) (hsome : g.r ≠ g.w) :
    a.taken < a.stream.length ∧ a.stream[a.taken]? = some (g.buf (g.r % INPUT_BUF)) ∧
      Rep { g with r := (g.r + 1) % UINT } (a.take 1) := by
  have hlt : a.taken < a.stream.length :=
    Nat.lt_of_le_of_ne h.taken fun heq => hsome (h.none_left.2 heq)
  obtain ⟨hbyte, hring⟩ := h.ring.take (by decide) (by rw [List.length_append]; omega)
  rw [List.getElem?_append_left hlt] at hbyte
  exact ⟨hlt, hbyte, hring, h.committed, hlt, h.plain, h.line⟩

/-- What a reader takes until it returns or sleeps is the next part of the stream. -/
structure Takes (a : Editor) (got : List UInt8) (o : Outcome) (k : Nat) : Prop where
  rep : Rep o.input (a.take k)
  left : a.taken + k ≤ a.stream.length
  bytes : o.got = got ++ (a.stream.drop a.taken).take k
  lines : newline ∉ got → newline ∉ o.got.dropLast
  asleep : newline ∉ got → ∀ n, o.status = .asleep n → newline ∉ o.got

/-- Nothing is taken. -/
theorem Takes.zero {got : List UInt8} {status : Status} (h : Rep g a) :
    Takes a got ⟨g, got, status⟩ 0 where
  rep := h
  left := h.taken
  bytes := by simp
  lines hnot hmem := hnot ((List.dropLast_sublist got).subset hmem)
  asleep hnot _ _ := hnot

theorem readLoop_rep (h : Rep g a) (killed : Bool) (target n : Nat) (got : List UInt8) :
    ∃ k, Takes a got (readLoop killed target n g got) k := by
  induction n generalizing g a got with
  | zero => exact ⟨0, .zero h⟩
  | succ n ih =>
      rw [readLoop]
      by_cases hnone : g.r = g.w
      · rw [if_pos hnone]
        split
        · exact ⟨0, .zero h⟩
        · exact ⟨0, .zero h⟩
      · obtain ⟨hlt, hbyte, hrep⟩ := h.next hnone
        have hmem : g.buf (g.r % INPUT_BUF) ∈ a.stream := List.mem_of_getElem? hbyte
        have hdrop : a.stream.drop a.taken =
            g.buf (g.r % INPUT_BUF) :: a.stream.drop (a.taken + 1) := by
          rw [List.drop_eq_getElem_cons hlt]
          rw [List.getElem?_eq_getElem hlt, Option.some.injEq] at hbyte
          rw [hbyte]
        have hD : g.buf (g.r % INPUT_BUF) ≠ ctrlD :=
          h.plain _ (List.mem_append_left _ hmem)
        simp only [if_neg hnone, if_neg hD]
        by_cases hnl : g.buf (g.r % INPUT_BUF) = newline
        · rw [if_pos hnl]
          refine ⟨1, hrep, hlt, ?_, fun hnot => ?_, fun _ n heq => ?_⟩
          · rw [hdrop]
            rfl
          · rw [List.dropLast_concat]
            exact hnot
          · cases heq
        · rw [if_neg hnl]
          obtain ⟨k, hk⟩ := ih hrep (got ++ [g.buf (g.r % INPUT_BUF)])
          have hnot' : newline ∉ got → newline ∉ got ++ [g.buf (g.r % INPUT_BUF)] := by
            intro hnot
            rw [List.mem_append, List.mem_singleton, not_or]
            exact ⟨hnot, fun heq => hnl heq.symm⟩
          refine ⟨1 + k, ?_, ?_, ?_, fun hnot => hk.lines (hnot' hnot),
            fun hnot => hk.asleep (hnot' hnot)⟩
          · have := hk.rep
            rwa [Editor.take, Editor.take, Nat.add_assoc] at this
          · have := hk.left
            rwa [Editor.take, Nat.add_assoc] at this
          · rw [hk.bytes, hdrop, Nat.add_comm 1 k, List.take_succ_cons, List.append_assoc]
            rfl

/-! ## Any interleaving -/

/-- A call of `consoleread` that sleeps: the length asked for, what is left of it, and what
was stored. -/
structure Reading where
  target : Nat
  n : Nat
  got : List UInt8

/-- The ring, the readers that sleep, and a record of what happened: the bytes stored by
readers, those of each call that is over, and what the editor makes of it. -/
structure State where
  input : Input
  reading : Nat → Option Reading
  delivered : List UInt8
  finished : List (List UInt8)
  editor : Editor

/-- A call of the handler; a call of `consoleread` by process `i`; or process `i` wakes up.
`killed` is the flag of the process when it looks. -/
inductive Act where
  | intr (cs : List UInt8)
  | read (i : Nat) (n : Int) (killed : Bool)
  | resume (i : Nat) (killed : Bool)

/-- Process `i` goes through the loop. -/
def readStep (s : State) (i : Nat) (killed : Bool) (c : Reading) : State :=
  let o := readLoop killed c.target c.n s.input c.got
  let bytes := o.got.drop c.got.length
  { input := o.input
    delivered := s.delivered ++ bytes
    editor := s.editor.take bytes.length
    reading := Function.update s.reading i (match o.status with
      | .asleep n => some ⟨c.target, n, o.got⟩
      | _ => none)
    finished := match o.status with
      | .asleep _ => s.finished
      | _ => o.got :: s.finished }

/-- One step.  A process that sleeps in `consoleread` does not call it again. -/
def step (s : State) : Act → Option State
  | .intr cs => some { s with
      input := consoleintr s.input cs
      editor := cs.foldl Editor.key s.editor }
  | .read i n killed =>
      if s.reading i = none then some (readStep s i killed ⟨n.toNat, n.toNat, []⟩) else none
  | .resume i killed => (s.reading i).map (readStep s i killed)

/-- Nothing typed and nobody reading. -/
def start (buf : Nat → UInt8) : State :=
  ⟨⟨buf, 0, 0, 0⟩, fun _ => none, [], [], ⟨[], 0, []⟩⟩

/-- The committed bytes that are in the ring. -/
def committed (g : Input) : List UInt8 :=
  (List.range (minus g.w g.r)).map fun i => g.buf ((g.r + i) % INPUT_BUF)

/-- The committed part of the ring, without the line. -/
theorem Rep.unread (h : Rep g a) :
    Buffers INPUT_BUF UINT g.buf g.r g.w a.stream a.taken where
  reader := h.ring.reader
  writer := h.committed
  taken := h.taken
  room := by
    have := h.ring.room
    rw [List.length_append] at this
    omega
  cells j hj hj' := by
    rw [← h.ring.cells j hj (by rw [List.length_append]; omega), List.getElem?_append_left hj']

theorem Rep.committed_eq (h : Rep g a) : Console.committed g = a.stream.drop a.taken := by
  have hcount : minus g.w g.r = a.stream.length - a.taken := h.unread.count (by decide)
  refine List.ext_getElem? fun i => ?_
  rw [Console.committed, hcount, List.getElem?_map, List.getElem?_drop]
  by_cases hi : i < a.stream.length - a.taken
  · have hr : (g.r + i) % INPUT_BUF = (a.taken + i) % INPUT_BUF := by
      rw [h.ring.reader]
      simp only [INPUT_BUF, UINT]
      omega
    rw [h.unread.cells (a.taken + i) (by omega) (by omega), List.getElem?_range hi]
    simp only [Option.map_some, hr]
  · rw [List.getElem?_eq_none (by rw [List.length_range]; omega),
      List.getElem?_eq_none (by omega)]
    rfl

namespace Editor

theorem add_stream (a : Editor) (c : UInt8) :
    a.stream <+: (a.add c).stream ∧ (a.add c).taken = a.taken := by
  simp only [add, commit]
  split
  · exact ⟨List.prefix_append _ _, rfl⟩
  · exact ⟨List.prefix_refl _, rfl⟩

/-- What was committed stays as it is. -/
theorem key_stream (a : Editor) (c : UInt8) :
    a.stream <+: (a.key c).stream ∧ (a.key c).taken = a.taken := by
  rw [key]
  split_ifs
  · exact ⟨List.prefix_refl _, rfl⟩
  · exact ⟨List.prefix_refl _, rfl⟩
  · exact ⟨List.prefix_refl _, rfl⟩
  · exact a.add_stream _
  · exact a.add_stream _
  · exact ⟨List.prefix_refl _, rfl⟩

theorem keys_stream (a : Editor) (cs : List UInt8) :
    a.stream <+: (cs.foldl key a).stream ∧ (cs.foldl key a).taken = a.taken := by
  induction cs generalizing a with
  | nil => exact ⟨List.prefix_refl _, rfl⟩
  | cons c cs ih =>
      obtain ⟨hstream, htaken⟩ := a.key_stream c
      obtain ⟨hstream', htaken'⟩ := ih (a.key c)
      exact ⟨hstream.trans hstream', htaken'.trans htaken⟩

end Editor

/-- What every step keeps. -/
structure Inv (s : State) : Prop where
  rep : Rep s.input s.editor
  delivered : s.delivered = s.editor.stream.take s.editor.taken
  reading : ∀ i c, s.reading i = some c → newline ∉ c.got
  finished : ∀ got ∈ s.finished, newline ∉ got.dropLast

theorem start_inv (buf : Nat → UInt8) : Inv (start buf) where
  rep := ⟨.nil _ _ _, rfl, Nat.le_refl 0, fun _ hc => absurd hc List.not_mem_nil, List.not_mem_nil⟩
  delivered := rfl
  reading _ _ h := nomatch h
  finished _ hgot := absurd hgot List.not_mem_nil

variable {s t : State}

theorem readStep_inv (h : Inv s) (i : Nat) (killed : Bool) {c : Reading} (hc : newline ∉ c.got) :
    Inv (readStep s i killed c) := by
  obtain ⟨k, hk⟩ := readLoop_rep h.rep killed c.target c.n c.got
  rw [readStep]
  generalize readLoop killed c.target c.n s.input c.got = o at hk ⊢
  have hbytes : o.got.drop c.got.length = (s.editor.stream.drop s.editor.taken).take k := by
    rw [hk.bytes, List.drop_left]
  have hlen : (o.got.drop c.got.length).length = k := by
    rw [hbytes, List.length_take, List.length_drop]
    have := hk.left
    omega
  refine ⟨?_, ?_, ?_, ?_⟩
  · simp only [hlen]
    exact hk.rep
  · simp only [hlen, Editor.take]
    rw [hbytes, h.delivered, List.take_add]
  · intro j c' hj
    simp only [Function.update_apply] at hj
    split_ifs at hj with hji
    · cases hstatus : o.status with
      | asleep n =>
          rw [hstatus] at hj
          cases hj
          exact hk.asleep hc n hstatus
      | returned => rw [hstatus] at hj; cases hj
      | failed => rw [hstatus] at hj; cases hj
    · exact h.reading j c' hj
  · intro got hgot
    cases hstatus : o.status with
    | asleep n =>
        rw [hstatus] at hgot
        exact h.finished got hgot
    | returned =>
        rw [hstatus] at hgot
        rcases List.mem_cons.1 hgot with rfl | hgot
        · exact hk.lines hc
        · exact h.finished got hgot
    | failed =>
        rw [hstatus] at hgot
        rcases List.mem_cons.1 hgot with rfl | hgot
        · exact hk.lines hc
        · exact h.finished got hgot

theorem step_inv (h : Inv s) {a : Act} (hstep : step s a = some t) : Inv t := by
  cases a with
  | intr cs =>
      cases hstep
      obtain ⟨hstream, htaken⟩ := s.editor.keys_stream cs
      refine ⟨intr_rep h.rep cs, ?_, h.reading, h.finished⟩
      obtain ⟨more, hmore⟩ := hstream
      simp only [htaken, ← hmore]
      rw [List.take_append_of_le_length h.rep.taken, h.delivered]
  | read i n killed =>
      simp only [step, Option.ite_none_right_eq_some, Option.some.injEq] at hstep
      obtain ⟨-, rfl⟩ := hstep
      exact readStep_inv h i killed List.not_mem_nil
  | resume i killed =>
      obtain ⟨c, hc, rfl⟩ := Option.map_eq_some_iff.1 hstep
      exact readStep_inv h i killed (h.reading i c hc)

/-- What is true of the console at any time: the order of the counters; the bytes that readers
stored are those the editor committed first; further typing does not touch what was committed;
and no call stores anything behind a newline. -/
structure Sound (s : State) : Prop where
  order : minus s.input.w s.input.r ≤ minus s.input.e s.input.r ∧
    minus s.input.e s.input.r ≤ INPUT_BUF
  stream : s.delivered <+: s.editor.stream
  edits : ∀ cs, committed s.input <+: committed (consoleintr s.input cs)
  reading : ∀ i c, s.reading i = some c → newline ∉ c.got
  finished : ∀ got ∈ s.finished, newline ∉ got.dropLast

theorem Inv.sound (h : Inv s) : Sound s := by
  have hroom := h.rep.ring.room
  rw [List.length_append] at hroom
  refine ⟨?_, ?_, fun cs => ?_, h.reading, h.finished⟩
  · have hw : minus s.input.w s.input.r = s.editor.stream.length - s.editor.taken :=
      h.rep.unread.count (by decide)
    rw [hw, h.rep.count, Editor.outstanding]
    omega
  · rw [h.delivered]
    exact List.take_prefix _ _
  · obtain ⟨⟨more, hmore⟩, htaken⟩ := s.editor.keys_stream cs
    rw [h.rep.committed_eq, (intr_rep h.rep cs).committed_eq, htaken, ← hmore,
      List.drop_append_of_le_length h.rep.taken]
    exact List.prefix_append _ _

/-- In every state of every run. -/
theorem console_of_run (buf : Nat → UInt8)
    (h : Reaches step (fun _ _ => True) (start buf) s) : Sound s := by
  apply Inv.sound
  exact h.inv (fun s a t hs _ hstep => step_inv hs hstep) (start_inv buf)

/-- One process waits for five bytes; "ab", a correction, "c" and a return are typed; it is
woken and gets the line. -/
theorem console_run : ∃ s, Reaches step (fun _ _ => True) (start fun _ => 0) s ∧
    s.finished = [[97, 99, 10]] ∧ Sound s := by
  have hrun : (runActs step (fun _ _ => True)
      [.read 1 5 false, .intr [97, 98, 8], .intr [99, 13, 100], .resume 1 false]
      (start fun _ => 0)).map State.finished = some [[97, 99, 10]] := by decide +kernel
  obtain ⟨s, hs, hfin⟩ := Option.map_eq_some_iff.1 hrun
  exact ⟨s, .of_runActs _ hs, hfin, console_of_run _ (.of_runActs _ hs)⟩

end Xv6.Kernel.Console
