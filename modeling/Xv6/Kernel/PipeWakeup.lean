import Xv6.Kernel.Pipe

/-!
# Wakeups of a pipe

A reader sleeps while the ring is empty and the write end open, a writer while the ring is
full and the read end open, and whoever changes that calls `wakeup` before it gives up the
lock.  Between the change and the call it *owes* the wakeup.

There is one place that forgets it: `pipewrite` returns from a full ring without a `wakeup`
when its process was killed or the read end is closed, also after it has put bytes in.

## Main results

* `pipe_no_lost_wakeup`: if no `pipewrite` leaves that way, nobody sleeps who should not.
* `killed_writer_loses_wakeup`: a killed writer fills the ring, and the reader sleeps on.
-/

namespace Xv6.Kernel.Pipe

open Xv6.Verified

/-- The process has put bytes into the ring, or closed the write end, and has not yet called
`wakeup(&p->nread)`. -/
def Pc.OwesRead : Pc → Prop
  | .writeLoop _ i i₀ => i₀ < i
  | .writeFull _ i i₀ => i₀ < i
  | .writeWake _ i i₀ => i₀ < i
  | .writeDone _ _ => True
  | .closeWake true => True
  | _ => False

/-- The process has taken bytes out of the ring, or closed the read end, and has not yet
called `wakeup(&p->nwrite)`. -/
def Pc.OwesWrite : Pc → Prop
  | .readLoop _ i => 0 < i
  | .readDone _ _ => True
  | .closeWake false => True
  | _ => False

/-- Who sleeps has a reason to, or is owed a wakeup. -/
structure Awake (s : State) : Prop where
  readers : ∀ q, s.asleep q = some .nread → (s.Empty ∧ s.writeopen = true) ∨
    ∃ q', s.lock = some q' ∧ (s.pc q').OwesRead
  writers : ∀ q, s.asleep q = some .nwrite → (s.Full ∧ s.readopen = true) ∨
    ∃ q', s.lock = some q' ∧ (s.pc q').OwesWrite

/-- The process has found the ring full and has put in nothing since it acquired the lock;
or it is somewhere else. -/
def Pc.PutNothing : Pc → Prop
  | .writeFull _ i i₀ => i = i₀
  | _ => True

instance : (l : Pc) → Decidable l.PutNothing
  | .writeFull _ i i₀ => inferInstanceAs (Decidable (i = i₀))
  | .idle | .writeAcquire _ | .writeLoop _ _ _ | .writeWake _ _ _ | .writeSleep _ _
  | .writeRelock _ _ | .writeDone _ _ | .writeReturn _ _ _ | .readAcquire _ | .readTest _
  | .readEmpty _ | .readSleep _ | .readRelock _ | .readLoop _ _ | .readDone _ _
  | .readReturn _ _ | .closeAcquire _ | .closeMark _ | .closeWake _ | .closeRelease =>
      inferInstanceAs (Decidable True)

/-- A `pipewrite` that gives up on a full ring has put in nothing since it acquired the
lock. -/
def LeavesClean (s : State) : Act → Prop
  | .next q => s.readopen = false ∨ s.killed q = true → (s.pc q).PutNothing
  | _ => True

instance (s : State) : (a : Act) → Decidable (LeavesClean s a)
  | .next q => inferInstanceAs
      (Decidable (s.readopen = false ∨ s.killed q = true → (s.pc q).PutNothing))
  | .write _ _ _ | .read _ _ | .close _ _ | .kill _ => inferInstanceAs (Decidable True)

section Step

variable {s s' : State} {q : Nat}

/-- What the process that has the lock owes is what is owed. -/
theorem Awake.reader_of_owes (h : Awake s) (hlock : s.lock = none ∨ s.lock = some q)
    {q' : Nat} (hq' : s.asleep q' = some .nread) :
    (s.Empty ∧ s.writeopen = true) ∨ (s.pc q).OwesRead := by
  rcases h.readers q' hq' with hleft | ⟨q'', hq'', howes⟩
  · exact .inl hleft
  · rcases hlock with hnone | hsome
    · rw [hnone] at hq''
      cases hq''
    · rw [hsome] at hq''
      cases hq''
      exact .inr howes

theorem Awake.writer_of_owes (h : Awake s) (hlock : s.lock = none ∨ s.lock = some q)
    {q' : Nat} (hq' : s.asleep q' = some .nwrite) :
    (s.Full ∧ s.readopen = true) ∨ (s.pc q).OwesWrite := by
  rcases h.writers q' hq' with hleft | ⟨q'', hq'', howes⟩
  · exact .inl hleft
  · rcases hlock with hnone | hsome
    · rw [hnone] at hq''
      cases hq''
    · rw [hsome] at hq''
      cases hq''
      exact .inr howes

/-- A step that leaves the counters, the flags and the sleepers alone. -/
theorem Awake.quiet (h : Awake s) (hlock : s.lock = none ∨ s.lock = some q) {l' : Pc}
    (hpc : s'.pc = Function.update s.pc q l') (hempty : s'.Empty ↔ s.Empty)
    (hfull : s'.Full ↔ s.Full) (hropen : s'.readopen = s.readopen)
    (hwopen : s'.writeopen = s.writeopen)
    (hasleep : ∀ q' chan, s'.asleep q' = some chan → s.asleep q' = some chan)
    (hread : (s.pc q).OwesRead → s'.lock = some q ∧ l'.OwesRead)
    (hwrite : (s.pc q).OwesWrite → s'.lock = some q ∧ l'.OwesWrite) : Awake s' := by
  have hself : s'.pc q = l' := by
    rw [hpc, Function.update_self]
  constructor
  · intro q' hq'
    rw [hempty, hwopen]
    rcases h.reader_of_owes hlock (hasleep q' _ hq') with hleft | howes
    · exact .inl hleft
    · obtain ⟨hl, howes'⟩ := hread howes
      exact .inr ⟨q, hl, hself ▸ howes'⟩
  · intro q' hq'
    rw [hfull, hropen]
    rcases h.writer_of_owes hlock (hasleep q' _ hq') with hleft | howes
    · exact .inl hleft
    · obtain ⟨hl, howes'⟩ := hwrite howes
      exact .inr ⟨q, hl, hself ▸ howes'⟩

theorem Awake.step (h : Awake s) (hlocked : s.Locked) (hknows : s.Knows (s.pc q))
    (hok : LeavesClean s (.next q)) (hs : Step s q s') : Awake s' := by
  have hlock : (s.pc q).holding = true → s.lock = some q := (hlocked q).2
  cases hs with
  | acquire hpc hgo hfree =>
      refine h.quiet (.inl hfree) rfl Iff.rfl Iff.rfl rfl rfl (fun _ _ hq => hq) ?_ ?_
      · rw [hpc]
        cases hgo <;> exact False.elim
      · rw [hpc]
        cases hgo <;> exact False.elim
  | move hpc hgo =>
      have hl : s.lock = some q := hlock (by rw [hpc]; cases hgo <;> rfl)
      refine h.quiet (.inr hl) rfl Iff.rfl Iff.rfl rfl rfl (fun _ _ hq => hq) ?_ ?_
      · intro howes
        refine ⟨hl, ?_⟩
        rw [hpc] at howes
        cases hgo with
        | giveUp c i i₀ hgive =>
            -- the writer that leaves owes nothing
            have hclean := hok hgive
            rw [hpc] at hclean
            exact absurd hclean (Nat.ne_of_gt howes)
        | full | stay => exact howes
        | written => trivial
        | empty | go | leave | wait | out | enough => exact howes.elim
      · intro howes
        refine ⟨hl, ?_⟩
        rw [hpc] at howes
        cases hgo with
        | out | enough => trivial
        | giveUp | full | stay | written | empty | go | leave | wait => exact howes.elim
  | enqueue hpc hcall hi hroom =>
      rw [hpc] at hknows
      have hl : s.lock = some q := hlock (by rw [hpc]; rfl)
      constructor
      · intro q' hq'
        refine .inr ⟨q, hl, ?_⟩
        simp only [State.goto, Function.update_self]
        exact Nat.lt_succ_of_le hknows
      · intro q' hq'
        rcases h.writer_of_owes (.inr hl) hq' with hleft | howes
        · exact absurd hleft.1 hroom
        · rw [hpc] at howes
          exact howes.elim
  | dequeue hpc hsome =>
      have hl : s.lock = some q := hlock (by rw [hpc]; rfl)
      constructor
      · intro q' hq'
        rcases h.reader_of_owes (.inr hl) hq' with hleft | howes
        · exact absurd hleft.1 hsome
        · rw [hpc] at howes
          exact howes.elim
      · intro q' hq'
        refine .inr ⟨q, hl, ?_⟩
        simp only [State.goto, Function.update_self]
        exact Nat.succ_pos _
  | wakeup hpc hgo =>
      rename_i l l' chan
      have hl : s.lock = some q := hlock (by rw [hpc]; cases hgo <;> rfl)
      have hasleep : ∀ q' chan', ((s.wakeup chan).goto q l').asleep q' = some chan' →
          s.asleep q' = some chan' ∧ chan' ≠ chan := by
        intro q' chan' hq'
        simp only [State.goto, State.wakeup] at hq'
        split at hq'
        · cases hq'
        · rename_i hne
          refine ⟨hq', ?_⟩
          rintro rfl
          exact hne hq'
      constructor
      · intro q' hq'
        obtain ⟨hold, hne⟩ := hasleep q' _ hq'
        rcases h.reader_of_owes (.inr hl) hold with hleft | howes
        · exact .inl hleft
        · rw [hpc] at howes
          cases hgo with
          | full | written | closeWrite => exact absurd rfl hne
          | read | closeRead => exact howes.elim
      · intro q' hq'
        obtain ⟨hold, hne⟩ := hasleep q' _ hq'
        rcases h.writer_of_owes (.inr hl) hold with hleft | howes
        · exact .inl hleft
        · rw [hpc] at howes
          cases hgo with
          | full | written | closeWrite => exact howes.elim
          | read | closeRead => exact absurd rfl hne
  | sleep hpc hgo =>
      have hl : s.lock = some q := hlock (by rw [hpc]; cases hgo <;> rfl)
      rw [hpc] at hknows
      constructor
      · intro q' hq'
        refine .inl ?_
        by_cases hq : q' = q
        · subst hq
          simp only [State.sleep, Function.update_self] at hq'
          cases hgo with
          | write => cases hq'
          | read => exact hknows
        · simp only [State.sleep, Function.update_of_ne hq] at hq'
          rcases h.reader_of_owes (.inr hl) hq' with hleft | howes
          · exact hleft
          · rw [hpc] at howes
            cases hgo <;> exact howes.elim
      · intro q' hq'
        refine .inl ?_
        by_cases hq : q' = q
        · subst hq
          simp only [State.sleep, Function.update_self] at hq'
          cases hgo with
          | write => exact hknows
          | read => cases hq'
        · simp only [State.sleep, Function.update_of_ne hq] at hq'
          rcases h.writer_of_owes (.inr hl) hq' with hleft | howes
          · exact hleft
          · rw [hpc] at howes
            cases hgo <;> exact howes.elim
  | mark hpc =>
      rename_i w
      have hl : s.lock = some q := hlock (by rw [hpc]; rfl)
      have hself : ((s.mark w).goto q (.closeWake w)).pc q = .closeWake w :=
        Function.update_self _ _ _
      cases w with
      | true =>
          constructor
          · intro q' hq'
            exact .inr ⟨q, hl, by rw [hself]; trivial⟩
          · intro q' hq'
            rcases h.writer_of_owes (.inr hl) hq' with hleft | howes
            · exact .inl ⟨hleft.1, by simp [State.mark, State.goto, hleft.2]⟩
            · rw [hpc] at howes
              exact howes.elim
      | false =>
          constructor
          · intro q' hq'
            rcases h.reader_of_owes (.inr hl) hq' with hleft | howes
            · exact .inl ⟨hleft.1, by simp [State.mark, State.goto, hleft.2]⟩
            · rw [hpc] at howes
              exact howes.elim
          · intro q' hq'
            exact .inr ⟨q, hl, by rw [hself]; trivial⟩
  | release hpc hgo =>
      have hl : s.lock = some q := hlock (by rw [hpc]; cases hgo <;> rfl)
      refine h.quiet (.inr hl) rfl Iff.rfl Iff.rfl rfl rfl (fun _ _ hq => hq) ?_ ?_
      · rw [hpc]
        cases hgo <;> exact False.elim
      · rw [hpc]
        cases hgo <;> exact False.elim

/-- A process that is in no call starts one. -/
theorem Awake.call (h : Awake s) (hlocked : s.Locked) (hidle : s.pc q = .idle) {l : Pc}
    (hpc : s'.pc = Function.update s.pc q l) (hlock : s'.lock = s.lock)
    (hasleep : s'.asleep = s.asleep) (hread : s'.nread = s.nread) (hwrite : s'.nwrite = s.nwrite)
    (hropen : s'.readopen = s.readopen) (hwopen : s'.writeopen = s.writeopen) : Awake s' := by
  have hholder : ∀ {q'}, s.lock = some q' → s'.pc q' = s.pc q' := by
    intro q' hq'
    rw [hpc, Function.update_of_ne]
    rintro rfl
    rw [hlocked, hidle] at hq'
    cases hq'
  constructor
  · intro q' hq'
    rw [hasleep] at hq'
    rcases h.readers q' hq' with hleft | ⟨q'', hq'', howes⟩
    · exact .inl ⟨by rw [State.Empty, hread, hwrite]; exact hleft.1, by rw [hwopen]; exact hleft.2⟩
    · exact .inr ⟨q'', by rw [hlock]; exact hq'', by rw [hholder hq'']; exact howes⟩
  · intro q' hq'
    rw [hasleep] at hq'
    rcases h.writers q' hq' with hleft | ⟨q'', hq'', howes⟩
    · exact .inl ⟨by rw [State.Full, hread, hwrite]; exact hleft.1, by rw [hropen]; exact hleft.2⟩
    · exact .inr ⟨q'', by rw [hlock]; exact hq'', by rw [hholder hq'']; exact howes⟩

theorem Awake.kill (h : Awake s) (q : Nat) : Awake (s.kill q) := by
  have hasleep : ∀ {q' chan}, (s.kill q).asleep q' = some chan → s.asleep q' = some chan := by
    intro q' chan hq'
    by_cases hq : q' = q
    · simp only [State.kill, hq, Function.update_self] at hq'
      cases hq'
    · simpa only [State.kill, Function.update_of_ne hq] using hq'
  exact ⟨fun q' hq' => h.readers q' (hasleep hq'), fun q' hq' => h.writers q' (hasleep hq')⟩

theorem Awake.act (h : Awake s) (hinv : Inv s) {a : Act} (hok : LeavesClean s a)
    (hexec : a.exec s = some s') : Awake s' := by
  cases a with
  | write q n addr =>
      simp only [Act.exec] at hexec
      split at hexec
      · rename_i hidle
        cases hexec
        exact h.call hinv.locked hidle rfl rfl rfl rfl rfl rfl rfl
      · cases hexec
  | read q n =>
      simp only [Act.exec] at hexec
      split at hexec
      · rename_i hidle
        cases hexec
        exact h.call hinv.locked hidle rfl rfl rfl rfl rfl rfl rfl
      · cases hexec
  | close q w =>
      simp only [Act.exec] at hexec
      split at hexec
      · rename_i hidle
        cases hexec
        exact h.call hinv.locked hidle rfl rfl rfl rfl rfl rfl rfl
      · cases hexec
  | next q => exact h.step hinv.locked (hinv.knows q) hok (Step.of_next hexec).2
  | kill q =>
      cases hexec
      exact h.kill q

end Step

theorem Awake.steps {s s' : State} (h : Awake s) (hinv : Inv s) (hs : Steps LeavesClean s s') :
    Awake s' := by
  have hboth : Inv s' ∧ Awake s' := by
    refine hs.inv (I := fun s => Inv s ∧ Awake s) (fun _ _ _ h hok hexec => ?_) ⟨hinv, h⟩
    exact ⟨h.1.act hexec, h.2.act h.1 hok hexec⟩
  exact hboth.2

/-- Nobody sleeps on the channel although there is something to do. -/
structure NoLostWakeup (s : State) : Prop where
  readers : ¬s.Empty ∨ s.writeopen = false → ∀ q, s.asleep q ≠ some .nread
  writers : ¬s.Full ∨ s.readopen = false → ∀ q, s.asleep q ≠ some .nwrite

/-- **No wakeup is lost** in a run in which no `pipewrite` gives up after it has put bytes
in, whenever the lock is free. -/
theorem pipe_no_lost_wakeup {data : Nat → UInt8} {s : State}
    (hs : Steps LeavesClean (pipealloc data) s) (hfree : s.lock = none) : NoLostWakeup s := by
  have hstart : Awake (pipealloc data) := by
    constructor <;>
    · intro q hq
      cases hq
  have h := hstart.steps (pipealloc_inv data) hs
  constructor
  · intro hready q hq
    rcases h.readers q hq with ⟨hempty, hopen⟩ | ⟨q', hq', -⟩
    · rcases hready with hsome | hclosed
      · exact hsome hempty
      · rw [hopen] at hclosed
        cases hclosed
    · rw [hfree] at hq'
      cases hq'
  · intro hready q hq
    rcases h.writers q hq with ⟨hfull, hopen⟩ | ⟨q', hq', -⟩
    · rcases hready with hroom | hclosed
      · exact hroom hfull
      · rw [hopen] at hclosed
        cases hclosed
    · rw [hfree] at hq'
      cases hq'

/-- Process 0 sleeps in `piperead`, and process 1 writes a byte. -/
theorem pipe_no_lost_wakeup_one_byte : ∃ s, Steps LeavesClean (pipealloc fun _ => 0) s ∧
    s.lock = none ∧ ¬s.Empty ∧ s.pc 0 = .readRelock 1 ∧ NoLostWakeup s := by
  have hrun : ∃ s ∈ runActs Act.exec LeavesClean (.read 0 1 :: List.replicate 4 (.next 0) ++
      .write 1 1 (fun _ => 65) :: List.replicate 5 (.next 1)) (pipealloc fun _ => 0),
      s.lock = none ∧ ¬s.Empty ∧ s.pc 0 = .readRelock 1 := by
    decide +kernel
  obtain ⟨s, hs, hfree, hsome, hpc⟩ := hrun
  have hsteps := Reaches.of_runActs _ hs
  exact ⟨s, hsteps, hfree, hsome, hpc, pipe_no_lost_wakeup hsteps hfree⟩

/-- Process 0 sleeps in `piperead`; process 1 writes 1025 bytes and is killed when it has just
acquired the lock. -/
theorem killed_writer_loses_wakeup : ∃ s, Steps (fun _ _ => True) (pipealloc fun _ => 0) s ∧
    s.lock = none ∧ s.readopen = true ∧ ¬NoLostWakeup s := by
  have hrun : ∃ s ∈ runActs Act.exec (fun _ _ => True) (.read 0 1 :: List.replicate 4 (.next 0) ++
      .write 1 1025 (fun _ => 65) :: .next 1 :: .kill 1 :: List.replicate 1027 (.next 1))
      (pipealloc fun _ => 0),
      s.lock = none ∧ s.readopen = true ∧ ¬s.Empty ∧ s.asleep 0 = some .nread := by
    decide +kernel
  obtain ⟨s, hs, hfree, hopen, hsome, hasleep⟩ := hrun
  exact ⟨s, Reaches.of_runActs _ hs, hfree, hopen, fun h => h.readers (.inl hsome) 0 hasleep⟩

end Xv6.Kernel.Pipe
