import Xv6.Kernel.ExitWait

/-!
# `kill`

`kill` looks for its argument in the `pid` fields of all slots, in use or not.  An unused slot
keeps the `pid` of a `fork` that failed, and has 0 if it was never used or its process was
reaped; `wait` resets `killed`, a failed `fork` does not.

## Main results

* `kill_hits_only_target`: as long as no `kill` finds an unused slot and no `fork` fails whose
  new process was killed meanwhile, a process is killed only under its own number.
* `kill_zero_hits_next_child`: `kill(0)` after booting returns 0 and dooms the next child.
-/

namespace Xv6.Kernel.Ptable

open Xv6.Verified

/-- The slot is in use. -/
def State.InUse (s : State) (q : Nat) : Prop := (s.proc q).state ≠ .unused

instance (s : State) (q : Nat) : Decidable (s.InUse q) :=
  inferInstanceAs (Decidable ((s.proc q).state ≠ .unused))

/-- The steps that leave no trace in an unused slot: the slot that `kill` finds is in use, and a
`fork` that fails has not had its new process killed. -/
def InUseOnly (s : State) : Act → Prop
  | .kill pid => ∀ q ∈ s.target pid, s.InUse q
  | .forkFail p => ∀ np < NPROC, s.pc p = .forking np false → (s.proc np).killed = false
  | _ => True

instance (s : State) : ∀ a, Decidable (InUseOnly s a)
  | .kill pid => inferInstanceAs (Decidable (∀ q ∈ s.target pid, s.InUse q))
  | .forkFail p => inferInstanceAs (Decidable (∀ np < NPROC, s.pc p = .forking np false →
      (s.proc np).killed = false))
  | .fork _ | .forkCopy _ | .forkDone _ | .exit _ | .wait _ | .run _ | .yield _ | .sleep _ _
  | .wakeup _ | .fault _ => .isTrue trivial

/-- A process that had no fault is killed only by its number, and one that `fork` creates is
not killed. -/
structure HitsOnlyTarget (s : State) : Prop where
  killed : ∀ q, s.InUse q → (s.proc q).killed = true → s.faulted q = false →
    (s.proc q).pid ∈ s.kills q
  child : ∀ p np, (s.allocproc p).pc p = .forking np false → s.pc p = .user →
    ((s.allocproc p).proc np).killed = false

/-- `kill` returns 0 exactly if a process with this number is in use. -/
def State.ReturnsInUse (s : State) (pid : Int) : Prop :=
  s.killReturn pid = 0 ↔ ∃ q, s.InUse q ∧ (s.proc q).pid = pid

/-- What the steps keep. -/
structure Flags (s : State) : Prop where
  unused : ∀ q, ¬s.InUse q → (s.proc q).killed = false
  killed : ∀ q, s.InUse q → (s.proc q).killed = true → s.faulted q = false →
    (s.proc q).pid ∈ s.kills q

section Step

variable {s s' : State} {p : Nat}

/-- Slots keep their numbers and flags, unless they become unused with the flag off. -/
structure Unflagged (s s' : State) : Prop where
  kills : s'.kills = s.kills
  faulted : s'.faulted = s.faulted
  slot : ∀ q, (s'.proc q).pid = (s.proc q).pid ∧ (s'.proc q).killed = (s.proc q).killed ∧
      (s'.InUse q ↔ s.InUse q) ∨
    (s'.proc q).killed = false

theorem Flags.unflagged (h : Flags s) (hu : Unflagged s s') : Flags s' where
  unused q hq := by
    rcases hu.slot q with ⟨-, hkilled, hinuse⟩ | hkilled
    · rw [hkilled]
      exact h.unused q fun hq' => hq (hinuse.2 hq')
    · exact hkilled
  killed q hq hk hf := by
    rw [hu.faulted] at hf
    rw [hu.kills]
    rcases hu.slot q with ⟨hpid, hkilled, hinuse⟩ | hkilled
    · rw [hpid]
      exact h.killed q (hinuse.1 hq) (hkilled ▸ hk) hf
    · rw [hkilled] at hk
      cases hk

theorem Unflagged.refl (s : State) : Unflagged s s :=
  ⟨rfl, rfl, fun _ => .inl ⟨rfl, rfl, .rfl⟩⟩

theorem Unflagged.trans {s'' : State} (h : Unflagged s s') (h' : Unflagged s' s'') :
    Unflagged s s'' where
  kills := h'.kills.trans h.kills
  faulted := h'.faulted.trans h.faulted
  slot q := by
    rcases h'.slot q with ⟨hpid', hkilled', hinuse'⟩ | hkilled'
    · rcases h.slot q with ⟨hpid, hkilled, hinuse⟩ | hkilled
      · exact .inl ⟨hpid'.trans hpid, hkilled'.trans hkilled, hinuse'.trans hinuse⟩
      · exact .inr (hkilled'.trans hkilled)
    · exact .inr hkilled'

theorem Unflagged.setProc {x : Proc} (hx : x.pid = (s.proc p).pid ∧
      x.killed = (s.proc p).killed ∧ (x.state = .unused ↔ (s.proc p).state = .unused) ∨
    x.killed = false) : Unflagged s (s.setProc p x) := by
  refine ⟨rfl, rfl, fun q => ?_⟩
  by_cases hq : q = p
  · subst hq
    simpa only [State.InUse, State.setProc, Function.update_self, ne_eq, not_iff_not] using hx
  · simp [State.InUse, State.setProc, Function.update_of_ne hq]

theorem Unflagged.setState {x : Proc} (hinuse : (s.proc p).state ≠ .unused)
    (hst : x.state ≠ .unused) (hpid : x.pid = (s.proc p).pid)
    (hkilled : x.killed = (s.proc p).killed) : Unflagged s (s.setProc p x) :=
  .setProc (.inl ⟨hpid, hkilled, iff_of_false hst hinuse⟩)

theorem Unflagged.wakeup1 (s : State) (chan : Option Chan) : Unflagged s (s.wakeup1 chan) := by
  refine ⟨rfl, rfl, fun q => .inl ?_⟩
  simp only [State.InUse, State.wakeup1]
  split
  · rename_i hq
    simp [hq.1]
  · exact ⟨rfl, rfl, .rfl⟩

theorem Unflagged.adopt (s : State) (q : Nat) : Unflagged s (s.adopt q) := by
  have := Unflagged.setProc (s := s) (p := q) (x := { s.proc q with parent := some s.initproc })
    (.inl ⟨rfl, rfl, .rfl⟩)
  exact ⟨this.kills, this.faulted, this.slot⟩

theorem Unflagged.passOn (p : Nat) (s : State) (q : Nat) : Unflagged s (s.passOn p q) := by
  rw [passOn_eq]
  split
  · split
    · exact (Unflagged.wakeup1 s _).trans (.adopt _ q)
    · exact .adopt s q
  · exact .refl s

theorem Unflagged.loop (p : Nat) (l : List Nat) (s : State) :
    Unflagged s (l.foldl (State.passOn p) s) := by
  induction l generalizing s with
  | nil => exact .refl s
  | cons q l ih => exact (Unflagged.passOn p s q).trans (ih _)

theorem Unflagged.zombify (hrun : (s.proc p).state = .running) :
    Unflagged s { s.setProc p { s.proc p with state := .zombie } with
      exited := s.exited ++ [s.inc p] } := by
  have := Unflagged.setState (x := { s.proc p with state := .zombie }) (by rw [hrun]; decide)
    nofun rfl rfl
  exact ⟨this.kills, this.faulted, this.slot⟩

theorem Unflagged.exit (h : Inv s) (hrun : (s.proc p).state = .running) (hpc : s.pc p = .user)
    (hp : p ≠ s.initproc) : Unflagged s (s.exit p) := by
  have hwoken := Passing.wakeup1 h hrun ((s.proc p).parent.map .proc)
  have hself := (hwoken.trans (Passing.foldl (List.range NPROC) hwoken.inv
    (by rw [hwoken.self, hrun]) hpc hp).1).self
  refine ((Unflagged.wakeup1 s _).trans (.loop p (List.range NPROC) _)).trans (.zombify ?_)
  rw [hself, hrun]

theorem Unflagged.wait (hrun : (s.proc p).state = .running) : Unflagged s (s.wait p) := by
  unfold State.wait
  split
  · rename_i q _
    have := Unflagged.setProc (s := s) (p := q) (x := { s.proc q with
      state := .unused, pid := 0, parent := none, killed := false }) (.inr rfl)
    exact ⟨this.kills, this.faulted, this.slot⟩
  · have := Unflagged.refl s
    exact ⟨this.kills, this.faulted, this.slot⟩
  · have := Unflagged.setState (s := s) (p := p) (x := { s.proc p with
      state := .sleeping, chan := some (.proc p) }) (by rw [hrun]; decide) nofun rfl rfl
    exact ⟨this.kills, this.faulted, this.slot⟩

theorem Flags.allocproc (h : Flags s) (p : Nat) : Flags (s.allocproc p) := by
  unfold State.allocproc
  split
  · exact h
  · rename_i np hnp
    have hunused := (firstFrom_eq_some.1 hnp).2.2.1
    rw [decide_eq_true_eq] at hunused
    have hkilled := h.unused np fun hinuse => hinuse hunused
    obtain ⟨h1, h2⟩ := h
    constructor <;> simp only [State.InUse, State.setProc, State.goto,
      Function.update_apply] at * <;>
      grind

theorem Flags.kill (h : Flags s) {pid : Int} (hok : InUseOnly s (.kill pid)) :
    Flags (s.kill pid) := by
  obtain ⟨h1, h2⟩ := h
  unfold State.kill
  dsimp only
  split
  · constructor <;> simp only [State.InUse] at * <;> grind
  · rename_i q hq
    have hinuse := hok q hq
    have hpid : (s.proc q).pid = pid := by
      have := (firstFrom_eq_some.1 hq).2.2.1
      simpa using this
    constructor <;> simp only [State.InUse, State.setProc, Function.update_apply] at * <;> grind

theorem Flags.act (h : Flags s) (hinv : Inv s) {a : Act} (hok : InUseOnly s a)
    (hexec : a.exec s = some s') : Flags s' := by
  have hleads := Act.leads hexec
  cases a with
  | fork p =>
      obtain ⟨-, -, rfl⟩ := hleads
      exact h.allocproc p
  | forkFail p =>
      obtain ⟨np, hpc, rfl⟩ := hleads
      have hembryo := (hinv.family.forking p np false hpc).2.1
      have hkilled := hok np (hinv.family.inside np (by rw [hembryo]; decide)) hpc
      have := Unflagged.setProc (s := s) (p := np) (x := { s.proc np with state := .unused })
        (.inr hkilled)
      exact h.unflagged ⟨this.kills, this.faulted, this.slot⟩
  | forkCopy p =>
      obtain ⟨np, hpc, rfl⟩ := hleads
      have := Unflagged.setProc (s := s) (p := np) (x := { s.proc np with parent := some p })
        (.inl ⟨rfl, rfl, .rfl⟩)
      exact h.unflagged ⟨this.kills, this.faulted, this.slot⟩
  | forkDone p =>
      obtain ⟨np, hpc, rfl⟩ := hleads
      have hembryo := (hinv.family.forking p np true hpc).2.1
      have := Unflagged.setState (x := { s.proc np with state := .runnable })
        (by rw [hembryo]; decide) nofun rfl rfl
      exact h.unflagged ⟨this.kills, this.faulted, this.slot⟩
  | exit p =>
      obtain ⟨hrun, hpc, hp, rfl⟩ := hleads
      exact h.unflagged (.exit hinv hrun hpc hp)
  | wait p =>
      obtain ⟨hrun, -, rfl⟩ := hleads
      exact h.unflagged (.wait hrun)
  | kill pid =>
      obtain rfl := hleads
      exact h.kill hok
  | run p =>
      obtain ⟨hst, rfl⟩ := hleads
      exact h.unflagged (.setState (by rw [hst]; decide) nofun rfl rfl)
  | yield p =>
      obtain ⟨hrun, rfl⟩ := hleads
      exact h.unflagged (.setState (by rw [hrun]; decide) nofun rfl rfl)
  | sleep p c =>
      obtain ⟨hrun, -, rfl⟩ := hleads
      exact h.unflagged (.setState (by rw [hrun]; decide) nofun rfl rfl)
  | wakeup c =>
      obtain rfl := hleads
      exact h.unflagged (.wakeup1 s _)
  | fault p =>
      obtain ⟨hrun, -, rfl⟩ := hleads
      obtain ⟨h1, h2⟩ := h
      constructor <;> simp only [State.InUse, State.setProc, Function.update_apply] at * <;> grind

theorem flags_userinit : Flags userinit := by
  have hkilled : ∀ q, (userinit.proc q).killed = false := by
    intro q
    by_cases hq : q = 0
    · subst hq
      rfl
    · simp [userinit, Function.update_of_ne hq, Proc.zero]
  refine ⟨fun q _ => hkilled q, fun q _ hk => ?_⟩
  rw [hkilled q] at hk
  cases hk

theorem Flags.hitsOnlyTarget (h : Flags s) : HitsOnlyTarget s := by
  refine ⟨h.killed, fun p np hpc huser => ?_⟩
  unfold State.allocproc at hpc ⊢
  split at hpc
  · rw [huser] at hpc
    cases hpc
  · rename_i np' hnp
    have hunused := (firstFrom_eq_some.1 hnp).2.2.1
    rw [decide_eq_true_eq] at hunused
    simp only [State.goto, Function.update_self, Pc.forking.injEq, and_true] at hpc
    subst hpc
    simpa [State.setProc, State.goto, hnp] using h.unused np' fun hinuse => hinuse hunused

theorem returnsInUse (h : Inv s) {pid : Int} (hok : InUseOnly s (.kill pid)) :
    s.ReturnsInUse pid := by
  unfold State.ReturnsInUse State.killReturn
  cases hq : s.target pid with
  | none =>
      refine ⟨by simp, ?_⟩
      rintro ⟨q, hinuse, hpid⟩
      have := firstFrom_eq_none.1 hq q (Nat.zero_le _) (by
        have := h.family.inside q hinuse
        omega)
      simp [hpid] at this
  | some q =>
      have hpid := (firstFrom_eq_some.1 hq).2.2.1
      rw [decide_eq_true_eq] at hpid
      exact ⟨fun _ => ⟨q, hok q hq, hpid⟩, fun _ => by simp⟩

end Step

/-- In any interleaving in which no `kill` finds an unused slot and no `fork` fails whose new
process was killed meanwhile, a process that had no fault is killed only if `kill` was called
with its number since it was created, a new process is not killed, and a `kill` of that kind
returns 0 exactly if a process with its number is in use. -/
theorem kill_hits_only_target {s : State} (h : Steps InUseOnly userinit s) :
    HitsOnlyTarget s ∧ ∀ pid, InUseOnly s (.kill pid) → s.ReturnsInUse pid := by
  have hboth : Inv s ∧ Flags s := by
    refine h.inv (I := fun t => Inv t ∧ Flags t) ?_ ⟨inv_userinit, flags_userinit⟩
    rintro t a t' ⟨hinv, hflags⟩ hok hexec
    exact ⟨hinv.act hexec, hflags.act hinv hok hexec⟩
  obtain ⟨hinv, hflags⟩ := hboth
  exact ⟨hflags.hitsOnlyTarget, fun _ hok => returnsInUse hinv hok⟩

/-- The first process forks and kills its child by number. -/
theorem kill_hits_only_target_child : ∃ s, Steps InUseOnly userinit s ∧ s.InUse 1 ∧
    (s.proc 1).killed = true ∧ HitsOnlyTarget s ∧ s.ReturnsInUse 2 := by
  have hrun : ∃ s ∈ runActs Act.exec InUseOnly [.run 0, .fork 0, .forkCopy 0, .forkDone 0,
      .kill 2] userinit, s.InUse 1 ∧ (s.proc 1).killed = true ∧ InUseOnly s (.kill 2) := by
    decide +kernel
  obtain ⟨s, hs, hinuse, hkilled, hok⟩ := hrun
  have hsteps := Reaches.of_runActs _ hs
  exact ⟨s, hsteps, hinuse, hkilled, (kill_hits_only_target hsteps).1,
    (kill_hits_only_target hsteps).2 2 hok⟩

/-- `kill(0)` after booting finds the unused slot 1 and returns 0; the next `fork` gets that
slot, and its child is killed though nobody has named it. -/
theorem kill_zero_hits_next_child :
    ∃ s t, Steps (fun _ _ => True) userinit s ∧ ¬s.ReturnsInUse 0 ∧
      Steps (fun _ _ => True) userinit t ∧ ¬HitsOnlyTarget t := by
  have hboot : ∃ s ∈ runActs Act.exec (fun _ _ => True) [.run 0] userinit,
      s.killReturn 0 = 0 ∧ ∀ q < NPROC, s.InUse q → (s.proc q).pid ≠ 0 := by
    decide +kernel
  have hfork : ∃ t ∈ runActs Act.exec (fun _ _ => True) [.run 0, .kill 0, .fork 0, .forkCopy 0,
      .forkDone 0] userinit,
      t.InUse 1 ∧ (t.proc 1).killed = true ∧ t.faulted 1 = false ∧
        (t.proc 1).pid ∉ t.kills 1 := by
    decide +kernel
  obtain ⟨s, hs, hreturn, hpid⟩ := hboot
  obtain ⟨t, ht, hinuse, hkilled, hfault, hkills⟩ := hfork
  have hsteps := Reaches.of_runActs _ hs
  refine ⟨s, t, hsteps, ?_, Reaches.of_runActs _ ht, ?_⟩
  · intro hreturns
    obtain ⟨q, hq, hzero⟩ := hreturns.1 hreturn
    have hinv : Inv s := hsteps.inv (fun _ _ _ hi _ hexec => hi.act hexec) inv_userinit
    exact hpid q (hinv.family.inside q hq) hq hzero
  · intro hhits
    exact hkills (hhits.killed 1 hinuse hkilled hfault)

end Xv6.Kernel.Ptable
