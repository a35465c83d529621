import Xv6.Kernel.Ptable

/-!
# Parents, children, `exit` and `wait`

The invariant of the process table: `parent` always points to a process that is neither a
zombie nor gone, a process that sleeps in `wait` has no zombie child, and what `wait` has
returned are processes that have exited, each once.

## Main results

* `Inv.act`: every step keeps the invariant.
* `exit_wait_protocol`: what it means in every reachable state.
-/

namespace Xv6.Kernel.Ptable

open Xv6.Verified

/-- Neither unused nor an embryo nor a zombie. -/
def ProcState.Live (x : ProcState) : Prop := x = .runnable ∨ x = .running ∨ x = .sleeping

/-- Process `p` sleeps in `wait`. -/
def State.SleepsInWait (s : State) (p : Nat) : Prop :=
  (s.proc p).state = .sleeping ∧ (s.proc p).chan = some (.proc p)

/-- Slots, parents and `fork`s under way. -/
structure Family (s : State) : Prop where
  inside : ∀ q, (s.proc q).state ≠ .unused → q < NPROC
  init : (s.proc s.initproc).state.Live
  root : (s.proc s.initproc).parent = none
  unused : ∀ q, (s.proc q).state = .unused → (s.proc q).parent = none
  parent : ∀ q p, (s.proc q).parent = some p →
    p ≠ q ∧ (s.proc p).state.Live ∧ s.parentInc q = s.inc p
  child : ∀ q, (s.proc q).state.Live ∨ (s.proc q).state = .zombie → q ≠ s.initproc →
    (s.proc q).parent ≠ none
  forking : ∀ p np copied, s.pc p = .forking np copied → (s.proc p).state.Live ∧
    (s.proc np).state = .embryo ∧ (s.proc np).parent = if copied then some p else none
  single : ∀ p p' np b b', s.pc p = .forking np b → s.pc p' = .forking np b' → p = p'

/-- Processes in `wait`. -/
structure Sleepers (s : State) : Prop where
  chan : ∀ p c, (s.proc p).state = .sleeping → (s.proc p).chan = some (.proc c) →
    c = p ∧ s.pc p = .waiting
  waiting : ∀ p, s.pc p = .waiting → (s.proc p).state = .sleeping →
    (s.proc p).chan = some (.proc p)
  quiet : ∀ p q, s.SleepsInWait p → (s.proc q).parent = some p → (s.proc q).state ≠ .zombie

/-- The record of exits and waits. -/
structure Ledger (s : State) : Prop where
  inc : ∀ q, (s.proc q).state ≠ .unused → s.inc q < s.births
  distinct : ∀ q q', (s.proc q).state ≠ .unused → (s.proc q').state ≠ .unused →
    s.inc q = s.inc q' → q = q'
  past : ∀ i ∈ s.exited, i < s.births
  going : ∀ q, (s.proc q).state ≠ .unused → (s.proc q).state ≠ .zombie → s.inc q ∉ s.exited
  zombie : ∀ q, (s.proc q).state = .zombie → s.inc q ∈ s.exited ∧ s.inc q ∉ s.reaped.map Prod.fst
  pending : ∀ i ∈ s.exited, i ∈ s.reaped.map Prod.fst ∨
    ∃ q, (s.proc q).state = .zombie ∧ s.inc q = i
  reaped : ∀ x ∈ s.reaped, x.1 ∈ s.exited ∧ (x.2 = s.bornTo x.1 ∨ x.2 = s.inc s.initproc)
  exitOnce : s.exited.Nodup
  waitOnce : (s.reaped.map Prod.fst).Nodup
  lineage : ∀ q p, (s.proc q).parent = some p →
    s.parentInc q = s.bornTo (s.inc q) ∨ s.parentInc q = s.inc s.initproc

/-- The invariant of the process table. -/
structure Inv (s : State) : Prop where
  family : Family s
  sleepers : Sleepers s
  ledger : Ledger s

/-! ## Scheduling -/

section Step

variable {s s' : State} {p : Nat}

/-- Nothing but the states, channels and flags of processes that are alive has changed, and
nobody has gone to sleep in `wait`. -/
structure Quiet (s s' : State) : Prop where
  pc : s'.pc = s.pc
  initproc : s'.initproc = s.initproc
  births : s'.births = s.births
  inc : s'.inc = s.inc
  parentInc : s'.parentInc = s.parentInc
  bornTo : s'.bornTo = s.bornTo
  exited : s'.exited = s.exited
  reaped : s'.reaped = s.reaped
  parent : ∀ q, (s'.proc q).parent = (s.proc q).parent
  state : ∀ q, (s'.proc q).state = (s.proc q).state ∨
    (s'.proc q).state.Live ∧ (s.proc q).state.Live
  asleep : ∀ q, (s'.proc q).state = .sleeping →
    ((s.proc q).state = .sleeping ∧ (s'.proc q).chan = (s.proc q).chan) ∨
    (∃ c, (s'.proc q).chan = some (.other c)) ∧ s.pc q = .user

theorem Quiet.live (h : Quiet s s') (q : Nat) :
    (s'.proc q).state.Live ↔ (s.proc q).state.Live := by
  rcases h.state q with heq | ⟨hl, hl'⟩
  · rw [heq]
  · exact ⟨fun _ => hl', fun _ => hl⟩

theorem Quiet.state_iff (h : Quiet s s') (q : Nat) {x : ProcState} (hx : ¬x.Live) :
    (s'.proc q).state = x ↔ (s.proc q).state = x := by
  rcases h.state q with heq | ⟨hl, hl'⟩
  · rw [heq]
  · constructor
    · rintro rfl
      exact absurd hl hx
    · rintro rfl
      exact absurd hl' hx

theorem not_live_unused : ¬ProcState.unused.Live := by
  rintro (h | h | h) <;> cases h

theorem not_live_embryo : ¬ProcState.embryo.Live := by
  rintro (h | h | h) <;> cases h

theorem not_live_zombie : ¬ProcState.zombie.Live := by
  rintro (h | h | h) <;> cases h

theorem Inv.quiet (h : Inv s) (hq : Quiet s s') : Inv s' := by
  have hunused := fun q => hq.state_iff q not_live_unused
  have hembryo := fun q => hq.state_iff q not_live_embryo
  have hzombie := fun q => hq.state_iff q not_live_zombie
  refine ⟨?_, ?_, ?_⟩
  · obtain ⟨h1, h2, h3, h4, h5, h6, h7, h8⟩ := h.family
    constructor <;>
      simp only [hq.pc, hq.initproc, hq.inc, hq.parentInc, hq.parent, hq.live, ne_eq, hunused,
        hembryo, hzombie] <;> assumption
  · obtain ⟨h1, h2, h3⟩ := h.sleepers
    have hwait : ∀ p, s'.SleepsInWait p → s.SleepsInWait p := by
      rintro p ⟨hst, hch⟩
      rcases hq.asleep p hst with ⟨hst', hch'⟩ | ⟨⟨c, hc⟩, -⟩
      · exact ⟨hst', hch' ▸ hch⟩
      · rw [hc] at hch
        cases hch
    refine ⟨?_, ?_, ?_⟩
    · intro p c hst hch
      rw [hq.pc]
      rcases hq.asleep p hst with ⟨hst', hch'⟩ | ⟨⟨c', hc⟩, -⟩
      · exact h1 p c hst' (hch' ▸ hch)
      · rw [hc] at hch
        cases hch
    · intro p hpc hst
      rw [hq.pc] at hpc
      rcases hq.asleep p hst with ⟨hst', hch'⟩ | ⟨-, huser⟩
      · rw [hch']
        exact h2 p hpc hst'
      · rw [hpc] at huser
        cases huser
    · intro p q hw hpar
      rw [hq.parent] at hpar
      rw [ne_eq, hzombie]
      exact h3 p q (hwait p hw) hpar
  · obtain ⟨h1, h2, h3, h4, h5, h6, h7, h8, h9, h10⟩ := h.ledger
    constructor <;>
      simp only [hq.births, hq.inc, hq.exited, hq.reaped, hq.bornTo, hq.parentInc, hq.initproc,
        hq.parent, ne_eq, hunused, hzombie] <;> assumption

/-! ## `fork` -/

theorem live_ne_unused {x : ProcState} (h : x.Live) : x ≠ .unused := by
  rintro rfl
  exact not_live_unused h

theorem Inv.allocproc (h : Inv s) (hrun : (s.proc p).state = .running) : Inv (s.allocproc p) := by
  unfold State.allocproc
  split
  · exact h
  · rename_i np hnp
    obtain ⟨-, hlt, hunused, -⟩ := firstFrom_eq_some.1 hnp
    rw [decide_eq_true_eq] at hunused
    have hlive : (s.proc p).state.Live := .inr (.inl hrun)
    have hinit : s.initproc ≠ np := by
      rintro rfl
      exact live_ne_unused h.family.init hunused
    have horphan := h.family.unused np hunused
    refine ⟨?_, ?_, ?_⟩
    · obtain ⟨h1, h2, h3, h4, h5, h6, h7, h8⟩ := h.family
      constructor <;> simp only [State.setProc, State.goto, Function.update_apply] <;>
        grind [ProcState.Live]
    · obtain ⟨h1, h2, h3⟩ := h.sleepers
      constructor <;> simp only [State.setProc, State.goto, Function.update_apply,
        State.SleepsInWait] at * <;> grind
    · obtain ⟨h1, h2, h3, h4, h5, h6, h7, h8, h9, h10⟩ := h.ledger
      constructor <;> simp only [State.setProc, State.goto, Function.update_apply] <;> grind

theorem Inv.forkFail (h : Inv s) {np : Nat} (hpc : s.pc p = .forking np false) :
    Inv (s.forkFail p np) := by
  obtain ⟨hlive, hembryo, horphan⟩ := h.family.forking p np false hpc
  have hnp : np ≠ p := by
    rintro rfl
    rw [hembryo] at hlive
    exact not_live_embryo hlive
  unfold State.forkFail
  refine ⟨?_, ?_, ?_⟩
  · obtain ⟨h1, h2, h3, h4, h5, h6, h7, h8⟩ := h.family
    constructor <;> simp only [State.setProc, State.goto, Function.update_apply] <;>
      grind [ProcState.Live]
  · obtain ⟨h1, h2, h3⟩ := h.sleepers
    constructor <;> simp only [State.setProc, State.goto, Function.update_apply,
      State.SleepsInWait] at * <;> grind
  · obtain ⟨h1, h2, h3, h4, h5, h6, h7, h8, h9, h10⟩ := h.ledger
    constructor <;> simp only [State.setProc, State.goto, Function.update_apply] <;> grind

theorem Inv.forkCopy (h : Inv s) {np : Nat} (hpc : s.pc p = .forking np false) :
    Inv (s.forkCopy p np) := by
  obtain ⟨hlive, hembryo, horphan⟩ := h.family.forking p np false hpc
  have hnp : np ≠ p := by
    rintro rfl
    rw [hembryo] at hlive
    exact not_live_embryo hlive
  have hgoing : s.inc np ∉ s.exited := h.ledger.going np (by rw [hembryo]; decide)
    (by rw [hembryo]; decide)
  have hother : ∀ q p', (s.proc q).parent = some p' → s.inc q = s.inc np → q = np := by
    intro q p' hq hinc
    refine h.ledger.distinct q np (fun hunused => ?_) (by rw [hembryo]; decide) hinc
    rw [h.family.unused q hunused] at hq
    cases hq
  unfold State.forkCopy
  refine ⟨?_, ?_, ?_⟩
  · obtain ⟨h1, h2, h3, h4, h5, h6, h7, h8⟩ := h.family
    constructor <;> simp only [State.setProc, State.goto, Function.update_apply] <;>
      grind [ProcState.Live]
  · obtain ⟨h1, h2, h3⟩ := h.sleepers
    constructor <;> simp only [State.setProc, State.goto, Function.update_apply,
      State.SleepsInWait] at * <;> grind
  · obtain ⟨h1, h2, h3, h4, h5, h6, h7, h8, h9, h10⟩ := h.ledger
    constructor <;> simp only [State.setProc, State.goto, Function.update_apply] <;> grind

theorem Inv.forkDone (h : Inv s) {np : Nat} (hpc : s.pc p = .forking np true) :
    Inv (s.forkDone p np) := by
  obtain ⟨hlive, hembryo, hparent⟩ := h.family.forking p np true hpc
  have hnp : np ≠ p := by
    rintro rfl
    rw [hembryo] at hlive
    exact not_live_embryo hlive
  unfold State.forkDone
  refine ⟨?_, ?_, ?_⟩
  · obtain ⟨h1, h2, h3, h4, h5, h6, h7, h8⟩ := h.family
    constructor <;> simp only [State.setProc, State.goto, Function.update_apply] <;>
      grind [ProcState.Live]
  · obtain ⟨h1, h2, h3⟩ := h.sleepers
    constructor <;> simp only [State.setProc, State.goto, Function.update_apply,
      State.SleepsInWait] at * <;> grind
  · obtain ⟨h1, h2, h3, h4, h5, h6, h7, h8, h9, h10⟩ := h.ledger
    constructor <;> simp only [State.setProc, State.goto, Function.update_apply] <;> grind

/-! ## `wait` -/

theorem Inv.waitFound (h : Inv s) {q : Nat} (hparent : (s.proc q).parent = some p)
    (hzombie : (s.proc q).state = .zombie) (hrun : (s.proc p).state = .running) :
    Inv { (s.setProc q { s.proc q with
        state := .unused, pid := 0, parent := none, killed := false }).goto p .user with
      reaped := s.reaped ++ [(s.inc q, s.inc p)] } := by
  obtain ⟨hne, hlive, hinc⟩ := h.family.parent q p hparent
  have hlineage := h.ledger.lineage q p hparent
  have hnobody : ∀ q', (s.proc q').parent ≠ some q := by
    intro q' hq'
    have := (h.family.parent q' q hq').2.1
    rw [hzombie] at this
    exact not_live_zombie this
  have hinit : s.initproc ≠ q := by
    rintro rfl
    have := h.family.init
    rw [hzombie] at this
    exact not_live_zombie this
  refine ⟨?_, ?_, ?_⟩
  · obtain ⟨h1, h2, h3, h4, h5, h6, h7, h8⟩ := h.family
    constructor <;> simp only [State.setProc, State.goto, Function.update_apply] <;>
      grind [ProcState.Live]
  · obtain ⟨h1, h2, h3⟩ := h.sleepers
    constructor <;> simp only [State.setProc, State.goto, Function.update_apply,
      State.SleepsInWait] at * <;> grind
  · obtain ⟨h1, h2, h3, h4, h5, h6, h7, h8, h9, h10⟩ := h.ledger
    have hfresh := (h5 q hzombie).2
    constructor <;> simp only [State.setProc, State.goto, Function.update_apply,
      List.map_append, List.mem_append, List.map_cons, List.map_nil, List.mem_singleton,
      List.nodup_append] <;> grind

theorem Inv.waitAgain (h : Inv s) (hrun : (s.proc p).state = .running)
    (hnone : ∀ q, (s.proc q).parent = some p → (s.proc q).state ≠ .zombie) :
    Inv ((s.sleep p (.proc p)).goto p .waiting) := by
  unfold State.sleep
  refine ⟨?_, ?_, ?_⟩
  · obtain ⟨h1, h2, h3, h4, h5, h6, h7, h8⟩ := h.family
    constructor <;> simp only [State.setProc, State.goto, Function.update_apply] <;>
      grind [ProcState.Live]
  · obtain ⟨h1, h2, h3⟩ := h.sleepers
    constructor <;> simp only [State.setProc, State.goto, Function.update_apply,
      State.SleepsInWait] at * <;> grind
  · obtain ⟨h1, h2, h3, h4, h5, h6, h7, h8, h9, h10⟩ := h.ledger
    constructor <;> simp only [State.setProc, State.goto, Function.update_apply] <;> grind

theorem Inv.waitFail (h : Inv s) (hrun : (s.proc p).state = .running) :
    Inv (s.goto p .user) := by
  refine ⟨?_, ?_, ?_⟩
  · obtain ⟨h1, h2, h3, h4, h5, h6, h7, h8⟩ := h.family
    constructor <;> simp only [State.goto, Function.update_apply] <;> grind [ProcState.Live]
  · obtain ⟨h1, h2, h3⟩ := h.sleepers
    constructor <;> simp only [State.goto, Function.update_apply, State.SleepsInWait] at * <;>
      grind
  · obtain ⟨h1, h2, h3, h4, h5, h6, h7, h8, h9, h10⟩ := h.ledger
    constructor <;> assumption

/-- What the scan of `wait` finds. -/
theorem waitScan_found {q : Nat} (h : s.waitScan p = .found q) :
    (s.proc q).parent = some p ∧ (s.proc q).state = .zombie := by
  unfold State.waitScan at h
  split at h
  · rename_i q' hq'
    cases h
    have := (firstFrom_eq_some.1 hq').2.2.1
    simpa using this
  · split at h <;> cases h

theorem waitScan_not_found (h : ∀ q, s.waitScan p ≠ .found q) :
    ∀ q, q < NPROC → (s.proc q).parent = some p → (s.proc q).state ≠ .zombie := by
  unfold State.waitScan at h
  split at h
  · rename_i q' hq'
    exact absurd rfl (h q')
  · rename_i hnone
    intro q hq hparent hzombie
    have := firstFrom_eq_none.1 hnone q (Nat.zero_le _) (by omega)
    simp [hparent, hzombie] at this

/-- `wait` gives up only without children or when killed. -/
theorem waitScan_fail (h : s.waitScan p = .fail) :
    (∀ q, q < NPROC → (s.proc q).parent ≠ some p) ∨ (s.proc p).killed = true := by
  unfold State.waitScan at h
  split at h
  · cases h
  · split at h
    · rename_i hfail
      refine hfail.imp_left fun hnone q hq hparent => ?_
      rw [Option.isNone_iff_eq_none] at hnone
      have := firstFrom_eq_none.1 hnone q (Nat.zero_le _) (by omega)
      simp [hparent] at this
    · cases h

theorem Inv.wait (h : Inv s) (hrun : (s.proc p).state = .running) : Inv (s.wait p) := by
  unfold State.wait
  cases hscan : s.waitScan p with
  | found q =>
      obtain ⟨hparent, hzombie⟩ := waitScan_found hscan
      exact h.waitFound hparent hzombie hrun
  | fail => exact h.waitFail hrun
  | again =>
      refine h.waitAgain hrun fun q hparent => ?_
      refine waitScan_not_found (fun q' => by rw [hscan]; exact nofun) q ?_ hparent
      refine h.family.inside q fun hunused => ?_
      rw [h.family.unused q hunused] at hparent
      cases hparent

/-! ## `exit` -/

theorem wakeup1_quiet (s : State) (chan : Option Chan) : Quiet s (s.wakeup1 chan) := by
  constructor <;> try rfl
  · intro q
    simp only [State.wakeup1]
    split <;> rfl
  · intro q
    simp only [State.wakeup1]
    split
    · rename_i hq
      exact .inr ⟨.inl rfl, .inr (.inr hq.1)⟩
    · exact .inl rfl
  · intro q
    simp only [State.wakeup1]
    split
    · intro hq
      cases hq
    · intro hq
      exact .inl ⟨hq, rfl⟩

theorem not_sleepsInWait_wakeup1 (s : State) (r : Nat) :
    ¬(s.wakeup1 (some (.proc r))).SleepsInWait r := by
  rintro ⟨hst, hch⟩
  simp only [State.wakeup1] at hst hch
  split at hst
  · cases hst
  · rename_i hne
    rw [if_neg hne] at hch
    exact hne ⟨hst, hch⟩

/-- The first process becomes the parent of slot `q`. -/
def State.adopt (s : State) (q : Nat) : State :=
  { s.setProc q { s.proc q with parent := some s.initproc } with
    parentInc := Function.update s.parentInc q (s.inc s.initproc) }

theorem Inv.adopt (h : Inv s) {q : Nat} (hparent : (s.proc q).parent = some p)
    (hpc : s.pc p = .user)
    (hquiet : (s.proc q).state = .zombie → ¬s.SleepsInWait s.initproc) : Inv (s.adopt q) := by
  have hinit : q ≠ s.initproc := by
    rintro rfl
    rw [h.family.root] at hparent
    cases hparent
  have hlive := h.family.init
  unfold State.adopt
  refine ⟨?_, ?_, ?_⟩
  · obtain ⟨h1, h2, h3, h4, h5, h6, h7, h8⟩ := h.family
    constructor <;> simp only [State.setProc, Function.update_apply] <;>
      grind [ProcState.Live]
  · obtain ⟨h1, h2, h3⟩ := h.sleepers
    constructor <;> simp only [State.setProc, Function.update_apply, State.SleepsInWait] at * <;>
      grind
  · obtain ⟨h1, h2, h3, h4, h5, h6, h7, h8, h9, h10⟩ := h.ledger
    constructor <;> simp only [State.setProc, Function.update_apply] <;> grind

/-- For a zombie child it makes no difference that the code wakes the first process after
the assignment to `parent`. -/
theorem wakeup1_adopt {q : Nat} (hzombie : (s.proc q).state = .zombie) (chan : Option Chan) :
    (s.adopt q).wakeup1 chan = (s.wakeup1 chan).adopt q := by
  simp only [State.wakeup1, State.adopt, State.setProc, State.mk.injEq, and_true]
  funext r
  by_cases hr : r = q
  · subst hr
    simp [hzombie]
  · simp [Function.update_of_ne hr]

theorem passOn_eq (p : Nat) (s : State) (q : Nat) :
    State.passOn p s q = if (s.proc q).parent = some p then
      if (s.proc q).state = .zombie then
        (s.wakeup1 (some (.proc s.initproc))).adopt q
      else s.adopt q
    else s := by
  unfold State.passOn
  split
  · by_cases hzombie : (s.proc q).state = .zombie
    · rw [if_pos hzombie, ← wakeup1_adopt hzombie]
      simp [State.adopt, State.setProc, hzombie]
    · rw [if_neg hzombie]
      simp [State.adopt, State.setProc, hzombie]
  · rfl

/-- What the loop of `exit` keeps while process `p` passes on its children. -/
structure Passing (p : Nat) (s s' : State) : Prop where
  inv : Inv s'
  self : s'.proc p = s.proc p
  pc : s'.pc = s.pc
  initproc : s'.initproc = s.initproc
  asleep : ∀ r, s'.SleepsInWait r → s.SleepsInWait r
  children : ∀ q, (s'.proc q).parent = some p → (s.proc q).parent = some p

theorem Passing.refl (h : Inv s) : Passing p s s :=
  ⟨h, rfl, rfl, rfl, fun _ hr => hr, fun _ hq => hq⟩

theorem Passing.trans {s'' : State} (h : Passing p s s') (h' : Passing p s' s'') :
    Passing p s s'' where
  inv := h'.inv
  self := h'.self.trans h.self
  pc := h'.pc.trans h.pc
  initproc := h'.initproc.trans h.initproc
  asleep r hr := h.asleep r (h'.asleep r hr)
  children q hq := h.children q (h'.children q hq)

theorem Passing.wakeup1 (h : Inv s) (hrun : (s.proc p).state = .running) (chan : Option Chan) :
    Passing p s (s.wakeup1 chan) := by
  have hq := wakeup1_quiet s chan
  refine ⟨h.quiet hq, ?_, rfl, rfl, ?_, ?_⟩
  · simp [State.wakeup1, hrun]
  · rintro r ⟨hst, hch⟩
    rcases hq.asleep r hst with ⟨hst', hch'⟩ | ⟨⟨c, hc⟩, -⟩
    · exact ⟨hst', hch' ▸ hch⟩
    · rw [hc] at hch
      cases hch
  · intro q hparent
    rw [← hparent, hq.parent]

theorem Passing.adopt {q : Nat} (h : Inv s) (hpc : s.pc p = .user)
    (hparent : (s.proc q).parent = some p)
    (hquiet : (s.proc q).state = .zombie → ¬s.SleepsInWait s.initproc) :
    Passing p s (s.adopt q) := by
  have hne : p ≠ q := (h.family.parent q p hparent).1
  refine ⟨h.adopt hparent hpc hquiet, ?_, rfl, rfl, ?_, ?_⟩
  · simp [State.adopt, State.setProc, Function.update_of_ne hne]
  · intro r hr
    simp only [State.adopt, State.setProc, State.SleepsInWait, Function.update_apply] at hr ⊢
    grind
  · intro r hr
    simp only [State.adopt, State.setProc, Function.update_apply] at hr
    grind

/-- One round of the loop. -/
theorem Passing.passOn (h : Inv s) (hrun : (s.proc p).state = .running) (hpc : s.pc p = .user)
    (hp : p ≠ s.initproc) (q : Nat) :
    Passing p s (s.passOn p q) ∧ ((s.passOn p q).proc q).parent ≠ some p := by
  have hadopted : ∀ t : State, t.initproc = s.initproc →
      ((t.adopt q).proc q).parent ≠ some p := by
    intro t ht
    simp only [State.adopt, State.setProc, Function.update_self, ht, ne_eq, Option.some.injEq]
    exact fun heq => hp heq.symm
  rw [passOn_eq]
  split
  · rename_i hparent
    split
    · rename_i hzombie
      have hwoken := Passing.wakeup1 h hrun (some (.proc s.initproc))
      have hparent' : ((s.wakeup1 (some (.proc s.initproc))).proc q).parent = some p := by
        rw [(wakeup1_quiet s _).parent, hparent]
      refine ⟨hwoken.trans (Passing.adopt hwoken.inv hpc hparent' fun _ => ?_), hadopted _ rfl⟩
      exact not_sleepsInWait_wakeup1 s s.initproc
    · rename_i hzombie
      exact ⟨Passing.adopt h hpc hparent fun hz => absurd hz hzombie, hadopted _ rfl⟩
  · rename_i hparent
    exact ⟨.refl h, hparent⟩

/-- The whole loop. -/
theorem Passing.foldl (l : List Nat) (h : Inv s) (hrun : (s.proc p).state = .running)
    (hpc : s.pc p = .user) (hp : p ≠ s.initproc) :
    Passing p s (l.foldl (State.passOn p) s) ∧
      ∀ q ∈ l, ((l.foldl (State.passOn p) s).proc q).parent ≠ some p := by
  induction l generalizing s with
  | nil => exact ⟨.refl h, nofun⟩
  | cons q l ih =>
      obtain ⟨hround, hq⟩ := Passing.passOn h hrun hpc hp q
      obtain ⟨hrest, hl⟩ := ih hround.inv (by rw [hround.self, hrun]) (by rw [hround.pc, hpc])
        (by rw [hround.initproc]; exact hp)
      refine ⟨hround.trans hrest, ?_⟩
      rw [List.forall_mem_cons]
      exact ⟨fun hparent => hq (hrest.children q hparent), hl⟩

/-- `proc->state = ZOMBIE`, once the parent does not sleep and no child is left. -/
theorem Inv.zombify (h : Inv s) (hrun : (s.proc p).state = .running) (hpc : s.pc p = .user)
    (hp : p ≠ s.initproc) (hchildless : ∀ q, (s.proc q).parent ≠ some p)
    (hawake : ∀ r, (s.proc p).parent = some r → ¬s.SleepsInWait r) :
    Inv { s.setProc p { s.proc p with state := .zombie } with
      exited := s.exited ++ [s.inc p] } := by
  refine ⟨?_, ?_, ?_⟩
  · obtain ⟨h1, h2, h3, h4, h5, h6, h7, h8⟩ := h.family
    constructor <;> simp only [State.setProc, Function.update_apply] <;>
      grind [ProcState.Live]
  · obtain ⟨h1, h2, h3⟩ := h.sleepers
    constructor <;> simp only [State.setProc, Function.update_apply, State.SleepsInWait] at * <;>
      grind
  · obtain ⟨h1, h2, h3, h4, h5, h6, h7, h8, h9, h10⟩ := h.ledger
    have hfresh : s.inc p ∉ s.reaped.map Prod.fst := by
      intro hmem
      obtain ⟨x, hx, hxp⟩ := List.mem_map.1 hmem
      exact h4 p (by rw [hrun]; decide) (by rw [hrun]; decide) (hxp ▸ (h7 x hx).1)
    constructor <;> simp only [State.setProc, Function.update_apply, List.mem_append,
      List.mem_singleton, List.nodup_append] <;> grind

theorem Inv.exit (h : Inv s) (hrun : (s.proc p).state = .running) (hpc : s.pc p = .user)
    (hp : p ≠ s.initproc) : Inv (s.exit p) := by
  have hwoken := Passing.wakeup1 h hrun ((s.proc p).parent.map .proc)
  obtain ⟨hloop, hchildless⟩ := Passing.foldl (List.range NPROC) hwoken.inv
    (by rw [hwoken.self, hrun]) hpc hp
  have hall := hwoken.trans hloop
  refine hloop.inv.zombify (by rw [hall.self, hrun]) (by rw [hall.pc, hpc])
    (by rw [hall.initproc]; exact hp) ?_ ?_
  · intro q hparent
    refine hchildless q (List.mem_range.2 (hloop.inv.family.inside q fun hunused => ?_)) hparent
    rw [hloop.inv.family.unused q hunused] at hparent
    cases hparent
  · -- the parent was woken first, and nobody has gone to sleep since
    intro r hparent hr
    rw [hall.self] at hparent
    have := hloop.asleep r hr
    rw [hparent] at this
    exact not_sleepsInWait_wakeup1 s r this

/-! ## The other steps -/

/-- Changing the state, the channel or the flag of one process that is alive. -/
theorem quiet_setProc {x : Proc} (k : Nat → List Int) (f : Nat → Bool)
    (hparent : x.parent = (s.proc p).parent)
    (hstate : x.state = (s.proc p).state ∨ x.state.Live ∧ (s.proc p).state.Live)
    (hasleep : x.state = .sleeping → ((s.proc p).state = .sleeping ∧ x.chan = (s.proc p).chan) ∨
      (∃ c, x.chan = some (.other c)) ∧ s.pc p = .user) :
    Quiet s { s.setProc p x with kills := k, faulted := f } := by
  constructor <;> try rfl
  all_goals
    intro q
    by_cases hq : q = p
    · subst hq
      simpa only [State.setProc, Function.update_self]
    · simp only [State.setProc, Function.update_of_ne hq, true_or]
      try exact fun hst => .inl ⟨hst, trivial⟩

theorem kill_quiet (s : State) (pid : Int) : Quiet s (s.kill pid) := by
  unfold State.kill
  dsimp only
  split
  · constructor <;> intros <;> try rfl
    · exact .inl rfl
    · rename_i hq
      exact .inl ⟨hq, rfl⟩
  · rename_i q hq
    refine quiet_setProc (s := s) _ _ rfl ?_ ?_
    · by_cases hst : (s.proc q).state = .sleeping
      · exact .inr ⟨.inl (if_pos hst), .inr (.inr hst)⟩
      · exact .inl (if_neg hst)
    · intro hst
      dsimp only at hst
      split at hst
      · cases hst
      · exact .inl ⟨hst, rfl⟩

/-- Every step keeps the invariant. -/
theorem Inv.act (h : Inv s) {a : Act} (hexec : a.exec s = some s') : Inv s' := by
  have hleads := Act.leads hexec
  cases a with
  | fork p =>
      obtain ⟨hrun, hpc, rfl⟩ := hleads
      exact h.allocproc hrun
  | forkFail p =>
      obtain ⟨np, hpc, rfl⟩ := hleads
      exact h.forkFail hpc
  | forkCopy p =>
      obtain ⟨np, hpc, rfl⟩ := hleads
      exact h.forkCopy hpc
  | forkDone p =>
      obtain ⟨np, hpc, rfl⟩ := hleads
      exact h.forkDone hpc
  | exit p =>
      obtain ⟨hrun, hpc, hp, rfl⟩ := hleads
      exact h.exit hrun hpc hp
  | wait p =>
      obtain ⟨hrun, hpc, rfl⟩ := hleads
      exact h.wait hrun
  | kill pid =>
      obtain rfl := hleads
      exact h.quiet (kill_quiet s pid)
  | run p =>
      obtain ⟨hst, rfl⟩ := hleads
      exact h.quiet (quiet_setProc _ _ rfl (.inr ⟨.inr (.inl rfl), .inl hst⟩) nofun)
  | yield p =>
      obtain ⟨hrun, rfl⟩ := hleads
      exact h.quiet (quiet_setProc _ _ rfl (.inr ⟨.inl rfl, .inr (.inl hrun)⟩) nofun)
  | sleep p c =>
      obtain ⟨hrun, hpc, rfl⟩ := hleads
      exact h.quiet (quiet_setProc _ _ rfl (.inr ⟨.inr (.inr rfl), .inr (.inl hrun)⟩)
        fun _ => .inr ⟨⟨c, rfl⟩, hpc⟩)
  | wakeup c =>
      obtain rfl := hleads
      exact h.quiet (wakeup1_quiet s _)
  | fault p =>
      obtain ⟨hrun, hpc, rfl⟩ := hleads
      exact h.quiet (quiet_setProc _ _ rfl (.inl rfl) fun hst => .inl ⟨hst, rfl⟩)

/-- After `userinit`. -/
theorem inv_userinit : Inv userinit := by
  have hproc : ∀ q, q ≠ 0 → userinit.proc q = Proc.zero := by
    intro q hq
    simp [userinit, Function.update_of_ne hq]
  have hinit : userinit.proc 0 = ⟨.runnable, 1, none, false, none⟩ := rfl
  have horphan : ∀ q, (userinit.proc q).parent = none := by
    intro q
    by_cases hq : q = 0
    · subst hq
      rfl
    · rw [hproc q hq]
      rfl
  have hunused : ∀ q, (userinit.proc q).state ≠ .unused → q = 0 := by
    intro q hst
    by_contra hq
    rw [hproc q hq] at hst
    exact hst rfl
  refine ⟨?_, ?_, ?_⟩
  · refine ⟨?_, .inl rfl, rfl, fun q _ => horphan q, ?_, ?_, nofun, nofun⟩
    · intro q hst
      rw [hunused q hst]
      decide
    · intro q p hparent
      rw [horphan q] at hparent
      cases hparent
    · rintro q (hst | hst) hq
      · exact absurd (hunused q (live_ne_unused hst)) hq
      · exact absurd (hunused q (by rw [hst]; decide)) hq
  · refine ⟨?_, nofun, ?_⟩
    · intro p c hst
      rw [hunused p (by rw [hst]; decide), hinit] at hst
      cases hst
    · intro p q _ hparent
      rw [horphan q] at hparent
      cases hparent
  · have hzombie : ∀ q, (userinit.proc q).state ≠ .zombie := by
      intro q hst
      rw [hunused q (by rw [hst]; decide), hinit] at hst
      cases hst
    refine ⟨fun _ _ => Nat.one_pos, ?_, nofun, nofun, fun q hst => absurd hst (hzombie q), nofun,
      nofun, .nil, .nil, ?_⟩
    · intro q q' hq hq' _
      rw [hunused q hq, hunused q' hq']
    · intro q p hparent
      rw [horphan q] at hparent
      cases hparent

end Step

/-- In any interleaving of `fork`, `exit`, `wait`, `kill` and the scheduler:

* no process sleeps in `wait` while it has a zombie child;
* the parent of a process other than the first is a process that is neither a zombie nor
  gone, and it is still the one that `parent` was set to;
* no process exits twice or is returned by `wait` twice; one that has exited is a zombie or
  has been returned; and what `wait` has returned has exited, and was returned to the process
  that forked it or to the first process;
* the scan of `wait` returns a zombie child if there is one, and gives up only when the
  caller has no child or is killed. -/
theorem exit_wait_protocol {s : State} (h : Steps (fun _ _ => True) userinit s) :
    (∀ p q, s.SleepsInWait p → (s.proc q).parent = some p → (s.proc q).state ≠ .zombie) ∧
    (∀ q, (s.proc q).state.Live ∨ (s.proc q).state = .zombie → q ≠ s.initproc →
      ∃ p, p < NPROC ∧ (s.proc q).parent = some p ∧ (s.proc p).state.Live ∧
        s.parentInc q = s.inc p) ∧
    (s.exited.Nodup ∧ (s.reaped.map Prod.fst).Nodup ∧
      (∀ i ∈ s.exited, i ∈ s.reaped.map Prod.fst ∨
        ∃ q, (s.proc q).state = .zombie ∧ s.inc q = i) ∧
      ∀ x ∈ s.reaped, x.1 ∈ s.exited ∧ (x.2 = s.bornTo x.1 ∨ x.2 = s.inc s.initproc)) ∧
    ∀ p,
      (∀ q, (s.proc q).parent = some p → (s.proc q).state = .zombie →
        ∃ q', s.waitScan p = .found q') ∧
      (s.waitScan p = .fail → (∀ q, (s.proc q).parent ≠ some p) ∨ (s.proc p).killed = true) := by
  have hinv : Inv s := h.inv (fun _ _ _ hi _ hexec => hi.act hexec) inv_userinit
  obtain ⟨hfamily, hsleepers, hledger⟩ := hinv
  have hinside : ∀ q p, (s.proc q).parent = some p → q < NPROC := by
    intro q p hparent
    refine hfamily.inside q fun hunused => ?_
    rw [hfamily.unused q hunused] at hparent
    cases hparent
  refine ⟨hsleepers.quiet, ?_,
    ⟨hledger.exitOnce, hledger.waitOnce, hledger.pending, hledger.reaped⟩, ?_⟩
  · intro q hst hq
    obtain ⟨p, hp⟩ := Option.ne_none_iff_exists'.1 (hfamily.child q hst hq)
    obtain ⟨-, hlive, hinc⟩ := hfamily.parent q p hp
    exact ⟨p, hfamily.inside p (live_ne_unused hlive), hp, hlive, hinc⟩
  · intro p
    refine ⟨?_, ?_⟩
    · intro q hparent hzombie
      by_contra hnone
      have hnot : ∀ q', s.waitScan p ≠ .found q' := not_exists.1 hnone
      exact waitScan_not_found hnot q (hinside q p hparent) hparent hzombie
    · intro hfail
      refine (waitScan_fail hfail).imp_left fun hno q hparent => ?_
      exact hno q (hinside q p hparent) hparent

/-- The first process forks, waits, is woken by the exit of its child and gets it. -/
theorem exit_wait_protocol_one_child :
    ∃ s, Steps (fun _ _ => True) userinit s ∧ s.exited = [1] ∧ s.reaped = [(1, 0)] ∧
      ∀ p q, s.SleepsInWait p → (s.proc q).parent = some p → (s.proc q).state ≠ .zombie := by
  have hrun : ∃ s ∈ runActs Act.exec (fun _ _ => True) [.run 0, .fork 0, .forkCopy 0,
      .forkDone 0, .wait 0, .run 1, .exit 1, .run 0, .wait 0] userinit,
      s.exited = [1] ∧ s.reaped = [(1, 0)] := by
    decide +kernel
  obtain ⟨s, hs, hexited, hreaped⟩ := hrun
  have hsteps := Reaches.of_runActs _ hs
  exact ⟨s, hsteps, hexited, hreaped, (exit_wait_protocol hsteps).1⟩

end Xv6.Kernel.Ptable
