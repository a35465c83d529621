import Xv6.Verified.Exec
import Xv6.Verified.Ring

/-!
# The buffer cache

`kernel/bio.c`: `NBUF` buffers in a ring through `bcache.head`, most recently used
first.  What a process does under `bcache.lock` is one step; a process that finds
its block busy sleeps and searches again later, and `iderw` ends when the driver
has filled or written the buffer.

`holds p b` records that process `p` has been given `b` and has not released it.

## Main results

* `Steps.inv`: the ring is whole, no block has two buffers, a buffer is busy exactly
  while one process holds it.
* `cache_consistent`: this in every interleaving, with what it means for the next
  step and for breads that overlap.
-/

namespace Xv6.Kernel.Bio

open Xv6.Verified
open Exec

/-- `NBUF`, buffers in the cache. -/
abbrev NBUF : Nat := 10

/-- The `dev` of a buffer that has none yet, -1 as a `uint`. -/
abbrev NODEV : Nat := 4294967295

/-- `bcache.head`, after the buffers `0` to `NBUF - 1`. -/
abbrev head : Nat := NBUF

/-- A block: `dev` and `sector`. -/
abbrev Key := Nat × Nat

/-- `struct buf`, its place in the ring and its data apart. -/
structure Buf where
  key : Key
  busy : Bool
  valid : Bool
  dirty : Bool

/-- The cache and its users: `waiting p` is what `p` is searching for in `bget`. -/
structure State where
  buf : Nat → Buf
  next : Nat → Nat
  prev : Nat → Nat
  holds : Nat → Nat → Bool
  waiting : Nat → Option Key

/-- The panics of the cache. -/
inductive Panic where
  | noBuffers
  | bwrite
  | brelse
  deriving DecidableEq, Repr

/-- Code of the cache. -/
abbrev M := Exec Panic State

/-! ## The code -/

/-- Put `b` behind the head: `b->next = head.next; b->prev = &head;
head.next->prev = b; head.next = b`. -/
def State.linkFront (s : State) (b : Nat) : State :=
  { s with
    next := Function.update (Function.update s.next b (s.next head)) head b
    prev := Function.update (Function.update s.prev b head) (s.next head) b }

/-- `b->next->prev = b->prev; b->prev->next = b->next`. -/
def State.unlink (s : State) (b : Nat) : State :=
  { s with
    next := Function.update s.next (s.prev b) (s.next b)
    prev := Function.update s.prev (s.next b) (s.prev b) }

/-- Replace buffer `b`. -/
def State.setBuf (s : State) (b : Nat) (x : Buf) : State :=
  { s with buf := Function.update s.buf b x }

/-- The cache before the loop of `binit`. -/
def empty : State where
  buf _ := ⟨(NODEV, 0), false, false, false⟩
  next _ := head
  prev _ := head
  holds _ _ := false
  waiting _ := none

/-- The cache after `n` rounds of the loop of `binit`. -/
def linked : Nat → State
  | 0 => empty
  | n + 1 => (linked n).linkFront n

/-- `binit`. -/
def binit : State := linked NBUF

/-- Process `p` gets buffer `b`. -/
def State.give (s : State) (p b : Nat) : State :=
  { s with
    holds := Function.update s.holds p (Function.update (s.holds p) b true)
    waiting := Function.update s.waiting p none }

/-- `bget` of process `p`, from `loop` to the next `sleep` or to the end.  The answer
is the buffer, or none if `p` sleeps. -/
def bget (p : Nat) (key : Key) : M (Option Nat) := do
  let s ← get
  match scan s.next head (fun b => decide ((s.buf b).key = key)) (NBUF + 1) (s.next head) with
  | some b =>
      if (s.buf b).busy = false then do
        modify fun s => (s.setBuf b { s.buf b with busy := true }).give p b
        return some b
      else do
        modify fun s => { s with waiting := Function.update s.waiting p (some key) }
        return none
  | none =>
      match scan s.prev head (fun b => !(s.buf b).busy && !(s.buf b).dirty) (NBUF + 1)
          (s.prev head) with
      | some b => do
          modify fun s => (s.setBuf b ⟨key, true, false, false⟩).give p b
          return some b
      | none => stop .noBuffers

/-- The end of `iderw`: the buffer has been read or written. -/
def iderwEnd (b : Nat) : M Unit :=
  modify fun s => s.setBuf b { s.buf b with valid := true, dirty := false }

/-- `b->flags |= B_DIRTY`, in `bwrite` before `iderw` and at the end of
`log_write`. -/
def setDirty (b : Nat) : M Unit := do
  let s ← get
  if (s.buf b).busy = false then stop .bwrite
  else modify fun s => s.setBuf b { s.buf b with dirty := true }

/-- `brelse`. -/
def brelse (p b : Nat) : M Unit := do
  let s ← get
  if (s.buf b).busy = false then stop .brelse
  else do
    modify fun s => (s.unlink b).linkFront b
    modify fun s => s.setBuf b { s.buf b with busy := false }
    modify fun s =>
      { s with holds := Function.update s.holds p (Function.update (s.holds p) b false) }

/-! ## Interleavings -/

/-- What a process can do next: search in `bget`, afresh or again, and use and
release the buffers it has been given. -/
inductive Act where
  | bget (p : Nat) (key : Key)
  | iderwEnd (p b : Nat)
  | setDirty (p b : Nat)
  | brelse (p b : Nat)

/-- Its code. -/
def Act.code : Act → M Unit
  | bget p key => do
      let _ ← Bio.bget p key
  | iderwEnd _ b => Bio.iderwEnd b
  | setDirty _ b => Bio.setDirty b
  | brelse p b => Bio.brelse p b

/-- A process that sleeps in `bget` goes on searching for its block; buffers are used
by the process that holds them. -/
def Act.Allowed (s : State) : Act → Prop
  | bget p key => s.waiting p = none ∨ s.waiting p = some key
  | iderwEnd p b | setDirty p b | brelse p b => s.holds p b = true

/-- The states that the processes' steps lead to, in any order. -/
inductive Steps (s : State) : State → Prop
  | refl : Steps s s
  | step {s₁ s₂ : State} (a : Act) (h : Steps s s₁) (hallowed : a.Allowed s₁)
      (hrun : a.code.run s₁ = .ok () s₂) : Steps s s₂

/-! ## The invariant -/

/-- The ring holds every buffer once, a block has one buffer, and a buffer is busy
exactly while one process holds it. -/
structure Inv (s : State) : Prop where
  ring : ∃ l, l.Perm (List.range NBUF) ∧ Ring s.next s.prev head l
  unique : ∀ b b', b < NBUF → b' < NBUF → (s.buf b).key = (s.buf b').key →
    (s.buf b).key.1 ≠ NODEV → b = b'
  held : ∀ b, b < NBUF → ((s.buf b).busy = true ↔ ∃ p, s.holds p b = true)
  single : ∀ p q b, s.holds p b = true → s.holds q b = true → p = q
  inside : ∀ p b, s.holds p b = true → b < NBUF

theorem linked_ring (n : Nat) (hn : n ≤ NBUF) :
    Ring (linked n).next (linked n).prev head (List.range n).reverse := by
  induction n with
  | zero => exact ⟨⟨rfl, rfl⟩, by simp⟩
  | succ n ih =>
      rw [List.range_succ, List.reverse_append]
      refine (ih (by omega)).insert ?_
      simp only [List.mem_cons, List.mem_reverse, List.mem_range, head, NBUF] at *
      omega

theorem linked_rest (n : Nat) :
    (linked n).buf = empty.buf ∧ (linked n).holds = empty.holds := by
  induction n with
  | zero => exact ⟨rfl, rfl⟩
  | succ n ih => exact ih

theorem binit_inv : Inv binit := by
  obtain ⟨hbuf, hholds⟩ := linked_rest NBUF
  constructor
  · exact ⟨_, List.reverse_perm _, linked_ring NBUF (Nat.le_refl _)⟩
  · intro b b' _ _ _ hdev
    rw [binit, hbuf] at hdev
    exact absurd rfl hdev
  · intro b _
    rw [binit, hbuf, hholds]
    simp [empty]
  · intro p q b hp
    rw [binit, hholds] at hp
    cases hp
  · intro p b hp
    rw [binit, hholds] at hp
    cases hp

section Search

variable {s : State}

theorem Inv.scan_next (h : Inv s) (P : Nat → Bool) {b : Nat}
    (hscan : scan s.next head P (NBUF + 1) (s.next head) = some b) : b < NBUF ∧ P b = true := by
  obtain ⟨l, hperm, hring⟩ := h.ring
  have hlen := hperm.length_eq
  rw [List.length_range] at hlen
  rw [hring.path.scan_next (List.nodup_cons.1 hring.nodup).1 P (by omega)] at hscan
  refine ⟨?_, List.find?_some hscan⟩
  exact List.mem_range.1 (hperm.mem_iff.1 (List.mem_of_find?_eq_some hscan))

theorem Inv.scan_next_none (h : Inv s) (P : Nat → Bool)
    (hscan : scan s.next head P (NBUF + 1) (s.next head) = none) :
    ∀ b, b < NBUF → P b = false := by
  obtain ⟨l, hperm, hring⟩ := h.ring
  have hlen := hperm.length_eq
  rw [List.length_range] at hlen
  rw [hring.path.scan_next (List.nodup_cons.1 hring.nodup).1 P (by omega),
    List.find?_eq_none] at hscan
  intro b hb
  simpa using hscan b (hperm.mem_iff.2 (List.mem_range.2 hb))

theorem Inv.scan_prev (h : Inv s) (P : Nat → Bool) {b : Nat}
    (hscan : scan s.prev head P (NBUF + 1) (s.prev head) = some b) : b < NBUF ∧ P b = true := by
  obtain ⟨l, hperm, hring⟩ := h.ring
  have hlen := hperm.length_eq
  rw [List.length_range] at hlen
  have hhead : head ∉ l.reverse := by
    rw [List.mem_reverse]
    exact (List.nodup_cons.1 hring.nodup).1
  rw [hring.path.reverse.scan_next hhead P (by rw [List.length_reverse]; omega)] at hscan
  refine ⟨?_, List.find?_some hscan⟩
  exact List.mem_range.1 (hperm.mem_iff.1 (List.mem_reverse.1 (List.mem_of_find?_eq_some hscan)))

theorem Inv.scan_prev_none (h : Inv s) (P : Nat → Bool)
    (hscan : scan s.prev head P (NBUF + 1) (s.prev head) = none) :
    ∀ b, b < NBUF → P b = false := by
  obtain ⟨l, hperm, hring⟩ := h.ring
  have hlen := hperm.length_eq
  rw [List.length_range] at hlen
  have hhead : head ∉ l.reverse := by
    rw [List.mem_reverse]
    exact (List.nodup_cons.1 hring.nodup).1
  rw [hring.path.reverse.scan_next hhead P (by rw [List.length_reverse]; omega),
    List.find?_eq_none] at hscan
  intro b hb
  simpa using hscan b (List.mem_reverse.2 (hperm.mem_iff.2 (List.mem_range.2 hb)))

/-- The three ways `bget` can go on. -/
inductive Got (s : State) (p : Nat) (key : Key) : Option Nat → State → Prop
  | cached {b : Nat} (hb : b < NBUF) (hkey : (s.buf b).key = key)
      (hfree : (s.buf b).busy = false) :
      Got s p key (some b) ((s.setBuf b { s.buf b with busy := true }).give p b)
  | sleeps {b : Nat} (hb : b < NBUF) (hkey : (s.buf b).key = key)
      (hbusy : (s.buf b).busy = true) :
      Got s p key none { s with waiting := Function.update s.waiting p (some key) }
  | recycled {b : Nat} (hb : b < NBUF) (hnone : ∀ b', b' < NBUF → (s.buf b').key ≠ key)
      (hfree : (s.buf b).busy = false) (hclean : (s.buf b).dirty = false) :
      Got s p key (some b) ((s.setBuf b ⟨key, true, false, false⟩).give p b)

theorem Inv.got (h : Inv s) {p : Nat} {key : Key} {r : Option Nat} {s' : State}
    (hrun : (bget p key).run s = .ok r s') : Got s p key r s' := by
  rw [Bio.bget, run_get_bind] at hrun
  cases hnext : scan s.next head (fun b => decide ((s.buf b).key = key)) (NBUF + 1)
      (s.next head) with
  | some b =>
      obtain ⟨hb, hkey⟩ := h.scan_next _ hnext
      rw [decide_eq_true_eq] at hkey
      simp only [hnext, run_ite, run_modify_bind, run_pure] at hrun
      split at hrun
      · rename_i hfree
        cases hrun
        exact .cached hb hkey hfree
      · rename_i hbusy
        cases hrun
        exact .sleeps hb hkey (by simpa using hbusy)
  | none =>
      have hnone := h.scan_next_none _ hnext
      cases hprev : scan s.prev head (fun b => !(s.buf b).busy && !(s.buf b).dirty) (NBUF + 1)
          (s.prev head) with
      | some b =>
          obtain ⟨hb, hfree⟩ := h.scan_prev _ hprev
          rw [Bool.and_eq_true, Bool.not_eq_true', Bool.not_eq_true'] at hfree
          simp only [hnext, hprev, run_modify_bind, run_pure] at hrun
          cases hrun
          exact .recycled hb (fun b' hb' => by simpa using hnone b' hb') hfree.1 hfree.2
      | none =>
          simp only [hnext, hprev, run_stop] at hrun
          cases hrun

/-- When `bget` panics, no buffer is the block's and every one is busy or dirty. -/
theorem Inv.full (h : Inv s) {p : Nat} {key : Key} {e : Panic} {s' : State}
    (hrun : (bget p key).run s = .fail e s') :
    (∀ b, b < NBUF → (s.buf b).key ≠ key) ∧
      ∀ b, b < NBUF → (s.buf b).busy = true ∨ (s.buf b).dirty = true := by
  rw [Bio.bget, run_get_bind] at hrun
  split at hrun
  · rw [run_ite] at hrun
    split at hrun <;> cases hrun
  · rename_i hnext
    split at hrun
    · cases hrun
    · rename_i hprev
      refine ⟨fun b hb => by simpa using h.scan_next_none _ hnext b hb, fun b hb => ?_⟩
      have hpinned := h.scan_prev_none _ hprev b hb
      rw [Bool.and_eq_false_iff] at hpinned
      simpa using hpinned

end Search

/-! ## Each step keeps it -/

section Step

variable {s : State}

theorem setBuf_self (s : State) (b : Nat) (x : Buf) : (s.setBuf b x).buf b = x :=
  Function.update_self _ _ _

theorem setBuf_of_ne (s : State) {b b' : Nat} (x : Buf) (h : b' ≠ b) :
    (s.setBuf b x).buf b' = s.buf b' := Function.update_of_ne h _ _

/-- Keys stay unique if one buffer gets a key that no other has. -/
theorem Inv.unique_set (h : Inv s) {b : Nat} {x : Buf}
    (hkey : x.key = (s.buf b).key ∨ ∀ b', b' < NBUF → (s.buf b').key ≠ x.key) (hb : b < NBUF) :
    ∀ b₁ b₂, b₁ < NBUF → b₂ < NBUF → ((s.setBuf b x).buf b₁).key = ((s.setBuf b x).buf b₂).key →
      ((s.setBuf b x).buf b₁).key.1 ≠ NODEV → b₁ = b₂ := by
  have hother : ∀ b', b' < NBUF → b' ≠ b → x.key = (s.buf b').key → x.key.1 ≠ NODEV → False := by
    intro b' hb' hne heq hdev
    rcases hkey with hsame | hnew
    · exact hne (h.unique b b' hb hb' (hsame ▸ heq) (hsame ▸ hdev)).symm
    · exact hnew b' hb' heq.symm
  intro b₁ b₂ h₁ h₂ heq hdev
  by_cases hb₁ : b₁ = b
  · by_cases hb₂ : b₂ = b
    · rw [hb₁, hb₂]
    · rw [hb₁, setBuf_self] at heq hdev
      rw [setBuf_of_ne s x hb₂] at heq
      exact (hother b₂ h₂ hb₂ heq hdev).elim
  · rw [setBuf_of_ne s x hb₁] at heq hdev
    by_cases hb₂ : b₂ = b
    · rw [hb₂, setBuf_self] at heq
      exact (hother b₁ h₁ hb₁ heq.symm (heq ▸ hdev)).elim
    · rw [setBuf_of_ne s x hb₂] at heq
      exact h.unique b₁ b₂ h₁ h₂ heq hdev

theorem give_holds {p b q c : Nat} (hq : (s.give p b).holds q c = true) :
    (q = p ∧ c = b) ∨ s.holds q c = true := by
  change Function.update s.holds p (Function.update (s.holds p) b true) q c = true at hq
  by_cases hqp : q = p
  · subst hqp
    rw [Function.update_self] at hq
    by_cases hcb : c = b
    · exact .inl ⟨rfl, hcb⟩
    · rw [Function.update_of_ne hcb] at hq
      exact .inr hq
  · rw [Function.update_of_ne hqp] at hq
    exact .inr hq

theorem give_holds_of (s : State) (p b : Nat) {q c : Nat} (hq : s.holds q c = true) :
    (s.give p b).holds q c = true := by
  show Function.update s.holds p (Function.update (s.holds p) b true) q c = true
  by_cases hqp : q = p
  · subst hqp
    rw [Function.update_self]
    by_cases hcb : c = b
    · rw [hcb, Function.update_self]
    · rwa [Function.update_of_ne hcb]
  · rwa [Function.update_of_ne hqp]

theorem give_holds_self (s : State) (p b : Nat) : (s.give p b).holds p b = true := by
  simp [State.give]

/-- A free buffer is given to a process. -/
theorem Inv.give (h : Inv s) {p b : Nat} {x : Buf} (hb : b < NBUF)
    (hfree : (s.buf b).busy = false) (hx : x.busy = true)
    (hkey : x.key = (s.buf b).key ∨ ∀ b', b' < NBUF → (s.buf b').key ≠ x.key) :
    Inv ((s.setBuf b x).give p b) := by
  have hnobody : ∀ q, s.holds q b = true → False := by
    intro q hq
    have := (h.held b hb).2 ⟨q, hq⟩
    rw [hfree] at this
    cases this
  refine ⟨h.ring, h.unique_set hkey hb, ?_, ?_, ?_⟩
  · intro c hc
    by_cases hcb : c = b
    · subst hcb
      show ((s.setBuf c x).buf c).busy = true ↔ _
      rw [setBuf_self]
      exact ⟨fun _ => ⟨p, give_holds_self _ p c⟩, fun _ => hx⟩
    · show ((s.setBuf b x).buf c).busy = true ↔ _
      rw [setBuf_of_ne s x hcb, h.held c hc]
      constructor
      · rintro ⟨q, hq⟩
        exact ⟨q, give_holds_of (s.setBuf b x) p b hq⟩
      · rintro ⟨q, hq⟩
        rcases give_holds hq with ⟨-, heq⟩ | hq
        · exact absurd heq hcb
        · exact ⟨q, hq⟩
  · intro q r c hq hr
    rcases give_holds hq with ⟨hqp, hcb⟩ | hq
    · rcases give_holds hr with ⟨hrp, -⟩ | hr
      · rw [hqp, hrp]
      · exact (hnobody r (hcb ▸ hr)).elim
    · rcases give_holds hr with ⟨-, hcb⟩ | hr
      · exact (hnobody q (hcb ▸ hq)).elim
      · exact h.single q r c hq hr
  · intro q c hq
    rcases give_holds hq with ⟨-, hcb⟩ | hq
    · rw [hcb]
      exact hb
    · exact h.inside q c hq

/-- A change of the other two flags. -/
theorem Inv.flags (h : Inv s) {b : Nat} {x : Buf} (hb : b < NBUF)
    (hkey : x.key = (s.buf b).key) (hbusy : x.busy = (s.buf b).busy) : Inv (s.setBuf b x) := by
  refine ⟨h.ring, h.unique_set (.inl hkey) hb, ?_, h.single, h.inside⟩
  intro c hc
  by_cases hcb : c = b
  · rw [hcb, setBuf_self, hbusy]
    exact h.held b hb
  · rw [setBuf_of_ne s x hcb]
    exact h.held c hc

/-- The ring after `b` has been moved behind the head. -/
theorem Inv.moved (h : Inv s) {b : Nat} (hb : b < NBUF) :
    ∃ l, l.Perm (List.range NBUF) ∧
      Ring ((s.unlink b).linkFront b).next ((s.unlink b).linkFront b).prev head l := by
  obtain ⟨l, hperm, hring⟩ := h.ring
  obtain ⟨l₁, l₂, rfl⟩ := List.append_of_mem (hperm.mem_iff.2 (List.mem_range.2 hb))
  refine ⟨b :: (l₁ ++ l₂), List.perm_middle.symm.trans hperm, hring.remove.insert ?_⟩
  have hnodup := hring.nodup
  rw [← List.cons_append] at hnodup
  exact (List.nodup_cons.1 (List.perm_middle.nodup_iff.1 hnodup)).1

/-- The state after `brelse`. -/
def State.release (s : State) (p b : Nat) : State :=
  let t := (s.unlink b).linkFront b
  let t := t.setBuf b { t.buf b with busy := false }
  { t with holds := Function.update t.holds p (Function.update (t.holds p) b false) }

theorem release_holds {p b q c : Nat} :
    (s.release p b).holds q c = true ↔ ¬(q = p ∧ c = b) ∧ s.holds q c = true := by
  show Function.update s.holds p (Function.update (s.holds p) b false) q c = true ↔ _
  by_cases hqp : q = p
  · subst hqp
    by_cases hcb : c = b
    · simp [hcb]
    · simp [hcb]
  · simp [hqp]

theorem Inv.release (h : Inv s) {p b : Nat} (hp : s.holds p b = true) :
    Inv (s.release p b) := by
  have hb := h.inside p b hp
  have hmine : ∀ q, s.holds q b = true → q = p := fun q hq => h.single q p b hq hp
  refine ⟨h.moved hb, h.unique_set (x := { s.buf b with busy := false }) (.inl rfl) hb, ?_, ?_, ?_⟩
  · intro c hc
    show ((s.setBuf b { s.buf b with busy := false }).buf c).busy = true ↔ _
    by_cases hcb : c = b
    · subst hcb
      rw [setBuf_self]
      constructor
      · intro hfalse
        cases hfalse
      · rintro ⟨q, hq⟩
        obtain ⟨hne, hq⟩ := release_holds.1 hq
        exact absurd ⟨hmine q hq, rfl⟩ hne
    · rw [setBuf_of_ne s _ hcb, h.held c hc]
      constructor
      · rintro ⟨q, hq⟩
        exact ⟨q, release_holds.2 ⟨fun heq => hcb heq.2, hq⟩⟩
      · rintro ⟨q, hq⟩
        exact ⟨q, (release_holds.1 hq).2⟩
  · intro q r c hq hr
    exact h.single q r c (release_holds.1 hq).2 (release_holds.1 hr).2
  · intro q c hq
    exact h.inside q c (release_holds.1 hq).2

end Step

/-! ## Every interleaving -/

/-- What an act does to the buffers. -/
theorem Act.step {s s' : State} {a : Act} (h : Inv s) (ha : a.Allowed s)
    (hrun : a.code.run s = .ok () s') :
    Inv s' ∧ ∀ b, (s.buf b).dirty = true → (s'.buf b).key = (s.buf b).key := by
  have hflags : ∀ {p b : Nat} {x : Buf}, s.holds p b = true → x.key = (s.buf b).key →
      x.busy = (s.buf b).busy → Inv (s.setBuf b x) ∧
        ∀ c, (s.buf c).dirty = true → ((s.setBuf b x).buf c).key = (s.buf c).key := by
    intro p b x hp hkey hbusy
    refine ⟨h.flags (h.inside p b hp) hkey hbusy, fun c _ => ?_⟩
    by_cases hcb : c = b
    · rw [hcb, setBuf_self, hkey]
    · rw [setBuf_of_ne s x hcb]
  cases a with
  | bget p key =>
      obtain ⟨r, t, hbget, hret⟩ := run_bind_eq_ok hrun
      cases hret
      cases h.got hbget with
      | @cached b hb hkey hfree =>
          refine ⟨h.give hb hfree rfl (.inl rfl), fun c _ => ?_⟩
          show ((s.setBuf b _).buf c).key = _
          by_cases hcb : c = b
          · rw [hcb, setBuf_self]
          · rw [setBuf_of_ne s _ hcb]
      | sleeps => exact ⟨⟨h.ring, h.unique, h.held, h.single, h.inside⟩, fun _ _ => rfl⟩
      | @recycled b hb hnone hfree hclean =>
          refine ⟨h.give hb hfree rfl (.inr hnone), fun c hc => ?_⟩
          show ((s.setBuf b _).buf c).key = _
          by_cases hcb : c = b
          · rw [hcb, hclean] at hc
            cases hc
          · rw [setBuf_of_ne s _ hcb]
  | iderwEnd p b =>
      cases hrun
      exact hflags ha rfl rfl
  | setDirty p b =>
      simp only [Act.code, Bio.setDirty, run_get_bind, run_ite, run_stop, run_modify] at hrun
      split at hrun
      · cases hrun
      · cases hrun
        exact hflags ha rfl rfl
  | brelse p b =>
      simp only [Act.code, Bio.brelse, run_get_bind, run_ite, run_stop, run_modify_bind,
        run_modify] at hrun
      split at hrun
      · cases hrun
      · cases hrun
        refine ⟨h.release ha, fun c _ => ?_⟩
        show ((s.setBuf b _).buf c).key = _
        by_cases hcb : c = b
        · rw [hcb, setBuf_self]
          rfl
        · rw [setBuf_of_ne s _ hcb]

theorem Steps.inv {s₀ s : State} (hs : Steps s₀ s) (h : Inv s₀) : Inv s := by
  induction hs with
  | refl => exact h
  | step a _ hallowed hrun ih => exact (a.step ih hallowed hrun).1

theorem Steps.trans {s₁ s₂ s₃ : State} (h : Steps s₁ s₂) (h' : Steps s₂ s₃) : Steps s₁ s₃ := by
  induction h' with
  | refl => exact h
  | step a _ hallowed hrun ih => exact ih.step a hallowed hrun

/-- What the cache promises in a state. -/
structure Consistent (s : State) : Prop where
  /-- The ring is a doubly linked cycle through every buffer once. -/
  ring : ∃ l, l.Perm (List.range NBUF) ∧ Ring s.next s.prev head l
  /-- A block has one buffer. -/
  unique : ∀ b b', b < NBUF → b' < NBUF → (s.buf b).key = (s.buf b').key →
    (s.buf b).key.1 ≠ NODEV → b = b'
  /-- A buffer is busy iff exactly one process holds it. -/
  busy : ∀ b, b < NBUF → ((s.buf b).busy = true ↔ ∃! p, s.holds p b = true)
  /-- Processes only hold buffers of the cache. -/
  inside : ∀ p b, s.holds p b = true → b < NBUF
  /-- A dirty buffer keeps its block. -/
  pinned : ∀ a : Act, a.Allowed s → ∀ s', a.code.run s = .ok () s' →
    ∀ b, (s.buf b).dirty = true → (s'.buf b).key = (s.buf b).key
  /-- Nobody uses or releases a buffer that is not busy. -/
  panics : ∀ a : Act, a.Allowed s → ∀ e s', a.code.run s = .fail e s' → e = .noBuffers
  /-- Two processes do not have the same block at the same time. -/
  apart : ∀ p q b c, s.holds p b = true → s.holds q c = true → (s.buf b).key = (s.buf c).key →
    (s.buf b).key.1 ≠ NODEV → p = q ∧ b = c

theorem Inv.busy_of_holds {s : State} (h : Inv s) {p b : Nat} (hp : s.holds p b = true) :
    (s.buf b).busy = true := (h.held b (h.inside p b hp)).2 ⟨p, hp⟩

theorem Inv.panics {s : State} (h : Inv s) {a : Act} (ha : a.Allowed s) {e : Panic} {s' : State}
    (hrun : a.code.run s = .fail e s') : e = .noBuffers := by
  cases a with
  | bget p key =>
      simp only [Act.code, run_bind] at hrun
      cases hbget : (bget p key).run s with
      | ok r t =>
          rw [hbget] at hrun
          cases hrun
      | fail e' t =>
          rw [hbget] at hrun
          cases hrun
          rw [Bio.bget, run_get_bind] at hbget
          split at hbget
          · rw [run_ite] at hbget
            split at hbget <;> cases hbget
          · split at hbget
            · cases hbget
            · cases hbget
              rfl
  | iderwEnd p b => cases hrun
  | setDirty p b =>
      simp only [Act.code, Bio.setDirty, run_get_bind, run_ite, run_stop, run_modify,
        h.busy_of_holds ha] at hrun
      cases hrun
  | brelse p b =>
      simp only [Act.code, Bio.brelse, run_get_bind, run_ite, run_stop, run_modify_bind,
        run_modify, h.busy_of_holds ha] at hrun
      cases hrun

theorem Inv.consistent {s : State} (h : Inv s) : Consistent s where
  ring := h.ring
  unique := h.unique
  busy b hb := by
    rw [h.held b hb]
    constructor
    · rintro ⟨p, hp⟩
      exact ⟨p, hp, fun q hq => h.single q p b hq hp⟩
    · rintro ⟨p, hp, -⟩
      exact ⟨p, hp⟩
  inside := h.inside
  pinned a ha s' hrun := (a.step h ha hrun).2
  panics a ha e s' hrun := h.panics ha hrun
  apart p q b c hp hq hkey hdev := by
    have hbc := h.unique b c (h.inside p b hp) (h.inside q c hq) hkey hdev
    subst hbc
    exact ⟨h.single p q b hp hq, rfl⟩

/-- A search that is answered finds the buffer the block already has, if it has one,
and that buffer is nobody's. -/
theorem Inv.same_buffer {s s' : State} (h : Inv s) {p b c : Nat} {key : Key}
    (hrun : (bget p key).run s = .ok (some c) s') (hb : b < NBUF) (hkey : (s.buf b).key = key)
    (hdev : key.1 ≠ NODEV) : c = b ∧ ∀ q, s.holds q b = false := by
  cases h.got hrun with
  | cached hc hckey hfree =>
      have hcb : c = b := h.unique c b hc hb (hckey.trans hkey.symm) (by rw [hckey]; exact hdev)
      refine ⟨hcb, fun q => ?_⟩
      rw [← hcb]
      by_contra hq
      rw [h.busy_of_holds (by simpa using hq)] at hfree
      cases hfree
  | recycled hc hnone => exact absurd hkey (hnone b hb)

/-- **The buffer cache.**  In every interleaving the cache is consistent; and if a
process searches for a block that some process `q` had in buffer `b` before, it is
given `b` too, after `q` has released it, unless `b` holds another block by then. -/
theorem cache_consistent {s : State} (hs : Steps binit s) :
    Consistent s ∧
    ∀ {s' s'' : State} {p q b c : Nat}, s.holds q b = true → (s.buf b).key.1 ≠ NODEV →
      Steps s s' → (bget p (s.buf b).key).run s' = .ok (some c) s'' →
      (c = b ∧ ∀ r, s'.holds r b = false) ∨ (s'.buf b).key ≠ (s.buf b).key := by
  have hinv := hs.inv binit_inv
  refine ⟨hinv.consistent, ?_⟩
  intro s' s'' p q b c hq hdev hs' hrun
  by_cases hkey : (s'.buf b).key = (s.buf b).key
  · exact .inl ((hs'.inv hinv).same_buffer hrun (hinv.inside q b hq) hkey hdev)
  · exact .inr hkey

instance (s : State) : (a : Act) → Decidable (a.Allowed s)
  | .bget p key =>
      inferInstanceAs (Decidable (s.waiting p = none ∨ s.waiting p = some key))
  | .iderwEnd p b => inferInstanceAs (Decidable (s.holds p b = true))
  | .setDirty p b => inferInstanceAs (Decidable (s.holds p b = true))
  | .brelse p b => inferInstanceAs (Decidable (s.holds p b = true))

/-- Run the acts in turn, as long as they are allowed and return. -/
def runActs : List Act → State → Option State
  | [], s => some s
  | a :: as, s =>
      if a.Allowed s then
        match a.code.run s with
        | .ok _ s' => runActs as s'
        | .fail _ _ => none
      else none

theorem Steps.of_runActs (as : List Act) {s s' : State} (h : runActs as s = some s') :
    Steps s s' := by
  induction as generalizing s with
  | nil =>
      cases h
      exact .refl
  | cons a as ih =>
      rw [runActs] at h
      split at h
      · rename_i hallowed
        cases hrun : a.code.run s with
        | ok u s₁ =>
            rw [hrun] at h
            exact (Steps.refl.step a hallowed hrun).trans (ih h)
        | fail e s₁ =>
            rw [hrun] at h
            cases h
      · cases h

/-- Process 0 reads block 7 and releases it; process 1 reads it too. -/
theorem cache_consistent_read_twice :
    ∃ s, Steps binit s ∧ s.holds 1 0 = true ∧ Consistent s := by
  have hrun : ∃ s ∈ runActs [.bget 0 (1, 7), .iderwEnd 0 0, .bget 1 (1, 7), .brelse 0 0,
      .bget 1 (1, 7)] binit, s.holds 1 0 = true := by
    decide +kernel
  obtain ⟨s, hs, hholds⟩ := hrun
  have hsteps := Steps.of_runActs _ hs
  exact ⟨s, hsteps, hholds, (cache_consistent hsteps).1⟩

/-- Nine blocks are in use by process 0, and process 1 has block 100 in the last
buffer when process 2 asks for it. -/
def crowd : List Act :=
  (List.range 9).map (fun n => .bget 0 (1, n)) ++ [.bget 1 (1, 100), .bget 2 (1, 100)]

/-- The last buffer is released and recycled before process 2 goes on, and another
one becomes free. -/
def recycle : List Act := [.brelse 1 9, .bget 3 (1, 200), .brelse 0 0]

/-- Two breads of one block that overlap return different buffers. -/
theorem overlapping_breads_differ :
    ∃ s s' s'', Steps binit s ∧ s.holds 1 9 = true ∧ (s.buf 9).key = (1, 100) ∧
      s.waiting 2 = some (1, 100) ∧ Steps s s' ∧
      (bget 2 (1, 100)).run s' = .ok (some 0) s'' := by
  have hrun : ∃ s ∈ runActs crowd binit, s.holds 1 9 = true ∧ (s.buf 9).key = (1, 100) ∧
      s.waiting 2 = some (1, 100) ∧ ∃ s' ∈ runActs recycle s,
        (match (bget 2 (1, 100)).run s' with
          | .ok r _ => r
          | .fail _ _ => none) = some 0 := by
    decide +kernel
  obtain ⟨s, hs, hholds, hkey, hwait, s', hs', hgot⟩ := hrun
  cases hbget : (bget 2 (1, 100)).run s' with
  | ok r s'' =>
      rw [hbget] at hgot
      subst hgot
      exact ⟨s, s', s'', Steps.of_runActs _ hs, hholds, hkey, hwait, Steps.of_runActs _ hs', hbget⟩
  | fail e s'' =>
      rw [hbget] at hgot
      cases hgot

end Xv6.Kernel.Bio
