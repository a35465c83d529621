import Xv6.Kernel.Runs
import Xv6.Kernel.Threads

/-!
# Who writes to the log

`log_write` is meant to be called between `begin_trans` and `commit_trans`, by
the process that called `begin_trans`.  It checks only that some transaction is
open.  `State.foreign` records whether a block was ever logged by a process that
does not have the transaction.

All writes but one kind are in the right place by the discipline.  The exception
is `iput`, which writes when it drops the last reference to an inode without
links: several of its callers do not open a transaction.
-/

namespace Xv6.Kernel

open Xv6.Verified
open Exec

/-! ## Code that writes, run inside its own transaction -/

/-- No process has logged into another's transaction. -/
def Private (k : State) : Prop := k.starved = false → k.foreign = false

/-- The reason for stopping is not a write outside a transaction, and none was
made. -/
def PrivateStop (e : Stop) (k : State) : Prop :=
  k.starved = false → e ≠ .panic .writeOutsideTrans ∧ k.foreign = false

/-- The running process has the transaction. -/
def InTrans (k : State) : Prop := k.log.busy = some k.cur ∧ Private k

theorem privateStop_panic {m : Panic} (hm : m ≠ .writeOutsideTrans) (k : State)
    (h : Private k) : PrivateStop (.panic m) k :=
  fun hs => ⟨fun heq => hm (Stop.panic.inj heq), h hs⟩

/-- `panic` in code that has the transaction. -/
theorem panic_inTrans {α : Type} {m : Panic} (hm : m ≠ .writeOutsideTrans) :
    Keeps InTrans PrivateStop (panic m : K α) :=
  .stop fun k h => privateStop_panic hm k h.2

theorem logWrite_inTrans (b : Nat) : Keeps InTrans PrivateStop (logWrite b) := by
  apply Keeps.get_bind
  intro k h
  rw [wp_ite, wp_ite]
  refine ⟨fun _ => (wp_stop _).2 (privateStop_panic (by decide) k h.2), fun _ =>
    ⟨fun hnone => ?_, fun _ => ?_⟩⟩
  · rw [h.1] at hnone
    cases hnone
  · rw [wp_modify]
    constructor
    · show (k.log.record b).busy = some k.cur
      rw [Log.record_busy, h.1]
    · intro hs
      show (k.foreign || k.log.busy != some k.cur) = false
      rw [h.2 hs, h.1]
      simp

theorem bzero_inTrans (b : Nat) : Keeps InTrans PrivateStop (bzero b) :=
  .bind (.modify fun _ h => h) fun _ => logWrite_inTrans b

theorem balloc_inTrans : Keeps InTrans PrivateStop balloc := by
  refine .bind .get fun k => .bind (.modify fun s h => ⟨h.1, fun hs => ?_⟩) fun _ => ?_
  · have hfed : s.starved = false ∧ s.dataFull = false := by simpa using hs
    exact h.2 hfed.1
  · cases firstFree k.bitmap k.sb.size 0 with
    | none => exact panic_inTrans (by decide)
    | some b =>
        exact .bind (.modify fun _ h => h) fun _ => .bind (logWrite_inTrans _) fun _ =>
          .bind (bzero_inTrans b) fun _ => .pure b

theorem bfree_inTrans (b : Nat) : Keeps InTrans PrivateStop (bfree b) :=
  .bind .get fun _ => .ite (panic_inTrans (by decide))
    (.bind (.modify fun _ h => h) fun _ => logWrite_inTrans _)

theorem setAddr_inTrans (ip s b : Nat) : Keeps InTrans PrivateStop (setAddr ip s b) :=
  .modify fun _ h => h

theorem iupdate_inTrans (ip : Nat) : Keeps InTrans PrivateStop (iupdate ip) :=
  .bind (.modify fun _ h => h) fun _ => logWrite_inTrans _

theorem bmapDirect_inTrans (ip bn : Nat) : Keeps InTrans PrivateStop (bmapDirect ip bn) :=
  .bind .get fun _ => .ite
    (.bind balloc_inTrans fun b => .bind (setAddr_inTrans ip bn b) fun _ => .pure b) (.pure _)

theorem bmapEntry_inTrans (ind j : Nat) : Keeps InTrans PrivateStop (bmapEntry ind j) :=
  .bind .get fun _ => .ite (.bind balloc_inTrans fun b =>
    .bind (.modify fun _ h => h) fun _ => .bind (logWrite_inTrans _) fun _ => .pure b) (.pure _)

theorem bmap_inTrans (ip bn : Nat) : Keeps InTrans PrivateStop (bmap ip bn) :=
  .ite (bmapDirect_inTrans ip bn) (.ite
    (.bind (bmapDirect_inTrans ip _) fun ind => bmapEntry_inTrans ind _)
    (panic_inTrans (by decide)))

theorem truncEntries_inTrans (a : Block) : Keeps InTrans PrivateStop (truncEntries a) :=
  .loopTo (fun _ => .ite (.pure ()) (bfree_inTrans _)) _

theorem itrunc_inTrans (ip : Nat) : Keeps InTrans PrivateStop (itrunc ip) := by
  have hdirect : Keeps InTrans PrivateStop (truncDirect ip) :=
    .loopTo (fun i => .bind .get fun _ => .ite (.pure ())
      (.bind (bfree_inTrans _) fun _ => setAddr_inTrans ip i 0)) _
  have hindirect : Keeps InTrans PrivateStop (truncIndirect ip) :=
    .bind .get fun _ => .ite (.pure ()) (.bind (truncEntries_inTrans _) fun _ =>
      .bind (bfree_inTrans _) fun _ => setAddr_inTrans ip _ 0)
  exact .bind hdirect fun _ => .bind hindirect fun _ => .bind (.modify fun _ h => h)
    fun _ => iupdate_inTrans ip

theorem iputFree_inTrans (ip : Nat) : Keeps InTrans PrivateStop (iputFree ip) :=
  .bind (itrunc_inTrans ip) fun _ => .bind (.modify fun _ h => h) fun _ =>
    .bind (iupdate_inTrans ip) fun _ => .modify fun _ h => h

theorem iget_inTrans (inum : Nat) : Keeps InTrans PrivateStop (iget inum) :=
  .bind .get fun _ => .ite (.modify fun _ h => h)
    (.ite (panic_inTrans (by decide)) (.modify fun _ h => h))

theorem ialloc_inTrans (type : InodeType) : Keeps InTrans PrivateStop (ialloc type) := by
  refine .bind .get fun k => ?_
  cases firstFreeInode k.dinode (k.sb.ninodes - 1) 1 with
  | none => exact panic_inTrans (by decide)
  | some inum =>
      exact .bind (.modify fun _ h => h) fun _ => .bind (logWrite_inTrans _) fun _ =>
        .bind (iget_inTrans inum) fun _ => .pure inum

theorem writeLoop_inTrans (ip : Nat) (fuel : Nat) :
    ∀ src off n, Keeps InTrans PrivateStop (writeLoop ip fuel src off n) := by
  induction fuel with
  | zero => exact fun _ _ _ => .pure ()
  | succ fuel ih =>
      intro src off n
      exact .ite (.pure ()) (.bind (bmap_inTrans ip _) fun b =>
        .bind (.modify fun _ h => h) fun _ => .bind (logWrite_inTrans b) fun _ => ih _ _ _)

theorem writei_inTrans (ip : Nat) (src : Nat → UInt8) (off n : Nat) :
    Keeps InTrans PrivateStop (writei ip src off n) := by
  have hgrow : ∀ m, Keeps InTrans PrivateStop (growSize ip (off + n) m) := fun m =>
    .bind .get fun _ => .ite (.bind (.modify fun _ h => h) fun _ => iupdate_inTrans ip) (.pure ())
  refine .bind .get fun k => .ite (.ite (.pure _) ?_) (.ite (.pure _) (.ite (.pure _)
    (.bind (writeLoop_inTrans ip _ _ _ _) fun _ => .bind (hgrow n) fun _ => .pure _)))
  split
  · exact .pure _
  · exact .bind (.modify fun _ h => h) fun _ => .pure _

/-! ## Code that does not write -/

theorem stop_private {α : Type} {e : Stop} (he : e ≠ .panic .writeOutsideTrans) :
    Keeps Private PrivateStop (stop e : K α) :=
  .stop fun _ h hs => ⟨he, h hs⟩

theorem fileclose_private (f : Nat) : Keeps Private PrivateStop (fileclose f) :=
  .bind .get fun _ => .ite (stop_private (by decide)) (.ite
    (.bind (.modify fun _ h => h) fun _ => .pure _) (.bind (.modify fun _ h => h) fun _ => .pure _))

theorem argfd_private (fd : Nat) : Keeps Private PrivateStop (argfd fd) :=
  .bind .get fun _ => .pure _

theorem filealloc_private : Keeps Private PrivateStop filealloc := by
  refine .bind .get fun k => ?_
  split
  · exact .pure _
  · exact .bind (.modify fun _ h => h) fun _ => .pure _

theorem fdalloc_private (f : Nat) : Keeps Private PrivateStop (fdalloc f) := by
  refine .bind .get fun k => ?_
  split
  · exact .pure _
  · exact .bind (.modify fun _ h => h) fun _ => .pure _

theorem fileopen_private (ip omode : Nat) : Keeps Private PrivateStop (fileopen ip omode) := by
  refine .bind filealloc_private fun r => ?_
  split
  · exact .pure _
  · refine .bind (fdalloc_private _) fun r => ?_
    split
    · exact .bind (fileclose_private _) fun _ => .pure _
    · exact .bind (.modify fun _ h => h) fun _ => .pure _

theorem cwd_private : Keeps Private PrivateStop cwd := by
  refine .bind .get fun k => ?_
  split
  · exact stop_private (by decide)
  · exact .pure _

theorem idupCwd_private : Keeps Private PrivateStop idupCwd :=
  .bind cwd_private fun _ => .bind (.modify fun _ h => h) fun _ => .pure _

theorem ilock_private (ip : Nat) : Keeps Private PrivateStop (ilock ip) :=
  .bind .get fun _ => .ite (stop_private (by decide)) (.ite (stop_private (by decide))
    (.bind (.modify fun _ h => h) fun _ => .ite (.pure ()) (.bind (.modify fun _ h => h)
      fun _ => .ite (stop_private (by decide)) (.pure ()))))

theorem iputCheck_private (ip : Nat) : Keeps Private PrivateStop (iputCheck ip) :=
  .bind .get fun _ => .ite
    (.ite (stop_private (by decide)) (.bind (.modify fun _ h => h) fun _ => .pure _))
    (.bind (.modify fun _ h => h) fun _ => .pure _)

theorem forkFd_private (c fd : Nat) : Keeps Private PrivateStop (forkFd c fd) := by
  refine .bind .get fun k => ?_
  split
  · exact .pure ()
  · exact .bind (.bind .get fun _ => .ite (stop_private (by decide)) (.modify fun _ h => h))
      fun _ => .modify fun _ h => h

/-- Whether an act may write to the log. -/
def Act.writes : Act → Bool
  | .iputFree _ | .writei _ _ _ | .bumpNlink _ _ | .initInode _ _ _ | .ialloc _ => true
  | _ => false

/-- Whether the act reads the contents of an inode, which is harmless only if
every block is there. -/
def Act.reads : Act → Bool
  | .readi _ _ _ => true
  | _ => false

theorem code_private {a : Act} (hw : a.writes = false) (hr : a.reads = false)
    (hpanic : ∀ m, a = .panic m → m.ofLog = false) : Keeps Private PrivateStop a.code := by
  cases a with
  | beginTrans =>
      exact .bind .get fun _ => .ite (stop_private (by decide)) (.modify fun _ h => h)
  | commitTrans => exact .modify fun _ h => h
  | iget inum =>
      exact .bind .get fun _ => .ite (.modify fun _ h => h)
        (.ite (stop_private (by decide)) (.modify fun _ h => h))
  | idupCwd => exact idupCwd_private
  | ilock ip => exact ilock_private ip
  | iunlock ip =>
      exact .bind .get fun _ => .ite (stop_private (by decide)) (.modify fun _ h => h)
  | stat ip => exact .bind .get fun _ => .pure _
  | iputCheck ip => exact iputCheck_private ip
  | iputFree ip => cases hw
  | readi ip off n => cases hr
  | writei ip src off => cases hw
  | bumpNlink ip δ => cases hw
  | initInode ip major minor => cases hw
  | ialloc type => cases hw
  | panic m =>
      apply stop_private
      intro heq
      have hm := hpanic m rfl
      rw [Stop.panic.inj heq] at hm
      cases hm
  | fdfile fd =>
      refine .bind .get fun k => .bind (argfd_private fd) fun r => ?_
      split
      · exact .pure _
      · exact .pure _
  | fdoffset fd =>
      refine .bind .get fun k => .bind (argfd_private fd) fun r => ?_
      split
      · exact stop_private (by decide)
      · exact .pure _
  | fdadvance fd n =>
      refine .bind (argfd_private fd) fun r => ?_
      split
      · exact stop_private (by decide)
      · exact .modify fun _ h => h
  | fdclose fd =>
      refine .bind (argfd_private fd) fun r => ?_
      split
      · exact .pure _
      · exact .bind (.modify fun _ h => h) fun _ => .bind (fileclose_private _) fun _ => .pure _
  | fileopen ip omode => exact fileopen_private ip omode
  | cwd => exact cwd_private
  | setCwd ip => exact .modify fun _ h => h
  | allocproc =>
      refine .bind .get fun k => ?_
      split
      · exact .pure _
      · exact .bind (.modify fun _ h => h) fun _ => .pure _
  | setState c s => exact .modify fun _ h => h
  | forkFd c fd => exact forkFd_private c fd
  | forkCwd c => exact .bind idupCwd_private fun _ => .modify fun _ h => h
  | exitCheck => exact .bind .get fun _ => .ite (stop_private (by decide)) (.pure ())
  | exitProc => exact .bind .get fun _ => .modify fun _ h => h

/-! ## Every act -/

section Act

variable {ts : Nat → TypeState} {k : State} {p : Nat}

/-- An act that may write is performed by the process that has the transaction. -/
theorem Invariant.inTrans (h : Invariant ts k) (hcur : k.cur = p) {a : Act}
    (hw : a.writes = true) (hpre : (ts p).pre true a) (hI : Private k) : InTrans k := by
  have htrans : (ts p).trans = true := by
    cases a with
    | iputFree ip => exact hpre.2.2 rfl
    | writei ip src off => exact hpre.2
    | bumpNlink ip δ => exact hpre.2
    | initInode ip major minor => exact hpre.2
    | ialloc type => exact hpre
    | _ => cases hw
  exact ⟨by rw [hcur]; exact (h.locks.trans p).2 htrans, hI⟩

theorem writes_inTrans {a : Act} (hw : a.writes = true) :
    Keeps InTrans PrivateStop a.code := by
  cases a with
  | iputFree ip => exact iputFree_inTrans ip
  | writei ip src off => exact writei_inTrans ip _ _ _
  | bumpNlink ip δ => exact .bind (.modify fun _ h => h) fun _ => iupdate_inTrans ip
  | initInode ip major minor => exact .bind (.modify fun _ h => h) fun _ => iupdate_inTrans ip
  | ialloc type => exact ialloc_inTrans type
  | _ => cases hw

/-- `readi` of a locked inode allocates nothing, so it writes nothing. -/
theorem Invariant.readi_private (h : Invariant ts k) {ip off n : Nat}
    (hlock : ip ∈ (ts p).locks) (hoff : off < UINT) (hn : n < UINT) (hI : Private k) :
    wp (Kernel.readi ip off n) (fun _ k' => Private k') PrivateStop k := by
  have hv := h.valid hlock
  cases hs : k.starved with
  | true =>
      -- nothing is claimed once `balloc` has been starved, and it stays recorded
      have hnot : ∀ k', Frame k k' → k'.starved ≠ false := by
        intro k' hf hs'
        rw [hf.starved hs] at hs'
        cases hs'
      refine wp_mono (readi_moves k ip off n) ?_ fun _ k' hf hs' => absurd hs' (hnot k' hf)
      rintro _ k' (hf | rfl) hs'
      · exact absurd hs' (hnot k' hf)
      · rw [hs] at hs'
        cases hs'
  | false =>
      have hwf := h.wf hs
      rcases InodeType.data_or_dev (hwf.live ip hv) with ht | ht
      · exact wp_of_ok (run_readi hwf hv ht hoff hn) hI
      · refine wp_mono (readi_dev (by rw [hwf.coherent ip hv, ht])) ?_ fun _ _ hno => hno.elim
        rintro _ k' (rfl | rfl)
        · exact hI
        · exact hI

/-- **One act of one process writes to the log only inside its own
transaction**, if it frees inodes only there. -/
theorem Invariant.act_private (h : Invariant ts k) (hI : Private k) {a : Act}
    (hpre : (ts p).pre true a) :
    wp (Act.exec p a) (fun _ k' => Private k') PrivateStop k := by
  unfold Act.exec
  rw [wp_bind, wp_get, wp_ite]
  refine ⟨fun _ => ?_, fun _ => (wp_stop _).2 fun hs => ⟨by decide, hI hs⟩⟩
  rw [wp_bind, wp_modify]
  have hcur := h.of_cur p
  have hIcur : Private { k with cur := p } := hI
  cases hw : a.writes with
  | true =>
      have hin := hcur.inTrans rfl hw hpre hIcur
      exact wp_imp ((writes_inTrans hw).wp _ hin) fun _ _ h' => h'.2
  | false =>
      cases hr : a.reads with
      | false =>
          refine (code_private hw hr fun m hm => ?_).wp _ hIcur
          subst hm
          exact hpre
      | true =>
          cases a with
          | readi ip off n =>
              exact hcur.readi_private hpre (Nat.mod_lt _ (by decide))
                (Nat.mod_lt _ (by decide)) hIcur
          | _ => cases hr

end Act

/-! ## Every run -/

/-- No process is in a system call, and the disk is well formed. -/
structure Quiet (k : State) : Prop where
  invariant : Invariant (fun _ => ⟨false, [], [], [], false, none⟩) k
  fed : k.starved = false

theorem starts_typed {k : State} {p : Nat} {q : Prog Unit} {t : TypeState}
    (hstart : Starts k p q) (hidle : t.Idle) :
    q.Typed (discipline true) (fun _ => TypeState.Idle) t := by
  obtain ⟨-, c, rfl⟩ := hstart
  exact Prog.typed_then (c.ends hidle) fun _ _ h => h

/-- **Transaction discipline.**  In every interleaving of file-related system
calls in which a process that frees an inode has the transaction, no block is
logged by a process that does not have it, and `log_write` never finds the log
idle. -/
theorem log_writes_private {k : State} {c : Config Nat Act Act.Res State} (hquiet : Quiet k)
    (hfresh : k.foreign = false)
    (hrun : RunOf Act.exec Starts FreesInTrans (atRest k) c) (hfed : c.state.starved = false) :
    c.state.foreign = false ∧
      ∀ p a rest e k', c.threads p = some (.act a rest) →
        (Act.exec p a).run c.state = .fail e k' → k'.starved = false →
        e ≠ .panic .writeOutsideTrans ∧ k'.foreign = false := by
  have h0 : Disciplined (discipline true) TypeState.Idle
      (fun ts s => Invariant ts s ∧ Private s) (atRest k) :=
    ⟨_, ⟨hquiet.invariant, fun _ => hfresh⟩, fun _ => ⟨rfl, rfl, rfl, rfl, rfl⟩⟩
  obtain ⟨ts, ⟨hinv, hpriv⟩, hts⟩ := hrun.disciplined
    (fun _ _ _ _ hstart hidle => starts_typed hstart hidle)
    (fun ts s p a r s' hJ hpre hok hact => by
      obtain ⟨hfits, hinv⟩ := hJ.1.act hpre (fun _ => hok) hact
      exact ⟨hfits, hinv, ok_of_wp (hJ.1.act_private hJ.2 hpre) hact⟩) h0
  refine ⟨hpriv hfed, ?_⟩
  intro p a rest e k' hnext hfail
  have htyped := hts p
  rw [hnext] at htyped
  exact fail_of_wp (hinv.act_private hpriv htyped.1) hfail

/-! ## The small disk -/

theorem smallDisk_holders (i : Nat) :
    holders (fun _ => ⟨false, [], [], [], false, none⟩) smallDisk i = if i = 1 then 2 else 0 := by
  have hfiles : ∑ f ∈ Finset.range NFILE, (smallDisk.ftable f).holds i = 0 :=
    Finset.sum_eq_zero fun f _ => if_neg fun h => absurd h.1 (Nat.lt_irrefl 0)
  rw [holders, hfiles, Nat.add_zero]
  by_cases hi : i = 1
  · subst hi
    decide
  · rw [if_neg hi]
    apply Finset.sum_eq_zero
    intro p _
    unfold procHolds smallDisk
    by_cases hp : p < 2 <;> simp [hp, Ne.symm hi]

theorem smallDisk_quiet : Quiet smallDisk := by
  have hofile : ∀ p fd, (smallDisk.ptable p).ofile fd = none := by
    intro p fd
    unfold smallDisk
    by_cases hp : p < 2 <;> simp [hp]
  have hbusy : ∀ i, (smallDisk.icache i).busy = none := by
    intro i
    unfold smallDisk
    by_cases hi : i = 1 <;> simp [hi]
  have hlive : ∀ p, p < 2 → smallDisk.ptable p = ⟨.live, some 1, fun _ => none⟩ :=
    fun _ hp => if_pos hp
  have hunused : ∀ p, ¬p < 2 → smallDisk.ptable p = ⟨.unused, none, fun _ => none⟩ :=
    fun _ hp => if_neg hp
  refine ⟨⟨fun _ => smallDisk_wf, ⟨?_, ?_, ?_, ?_, ?_⟩, ?_⟩, rfl⟩
  · intro p
    simp [smallDisk]
  · intro p i
    rw [hbusy]
    simp
  · exact fun _ => List.nodup_nil
  · intro i hi
    exact absurd (hbusy i) hi
  · intro p i hi
    cases hi
  · refine
      { refs := fun i => ?_
        files := fun f _ => ?_
        fds := fun p fd f h => ?_
        slots := fun p h => ?_
        owner := fun p h => absurd rfl h
        blank := fun p h => ⟨?_, hofile p⟩
        via := fun p i h => by cases h
        lent := fun p h => by cases h
        child := fun p c n h => by cases h
        parent := fun p q c n m h => by cases h }
    · rw [smallDisk_holders]
      unfold smallDisk
      by_cases hi : i = 1 <;> simp [hi]
    · have hzero : pointers smallDisk f = 0 :=
        Finset.sum_eq_zero fun p _ => Finset.sum_eq_zero fun fd _ => by simp [hofile p fd]
      rw [hzero]
      rfl
    · rw [hofile] at h
      cases h
    · by_contra hp
      have hlt : ¬p < 2 := fun h2 => hp (Nat.lt_trans h2 (by decide))
      rw [hunused p hlt] at h
      exact h rfl
    · by_cases hp : p < 2
      · rw [hlive p hp] at h
        cases h
      · rw [hunused p hp]

/-- The path `d`. -/
def pathD : List UInt8 := [100]

/-- The path `/`. -/
def pathRoot : List UInt8 := [47]

/-- The path `/d`. -/
def pathRootD : List UInt8 := [47, 100]

/-- A process makes a directory, enters it, removes it and leaves it. -/
def leaveRemoved : List (Nat × Call) :=
  [(1, .mkdir (some pathD)), (1, .chdir (some pathD)), (1, .unlink (some pathRootD)),
    (1, .chdir (some pathRoot))]

/-- Leaving a removed directory frees it outside of any transaction. -/
theorem leaving_removed_directory_panics :
    Quiet smallDisk ∧ smallDisk.foreign = false ∧
      ∃ c p a rest k', RunOf Act.exec Starts (fun _ _ _ => True) (atRest smallDisk) c ∧
        c.threads p = some (.act a rest) ∧
        (Act.exec p a).run c.state = .fail (.panic .writeOutsideTrans) k' ∧
        k'.starved = false := by
  have hout : outcome (fun k => k.starved) leaveRemoved smallDisk =
      (some (.panic .writeOutsideTrans), false) := by decide +kernel
  obtain ⟨k', hfail, hfed⟩ := outcome_fail hout
  have hmeets : CallsMeet (fun _ _ _ => True) leaveRemoved smallDisk := by decide +kernel
  obtain ⟨c, p, a, rest, hrun, hnext, -, hstop⟩ :=
    runCalls_stop (by decide) leaveRemoved (RunOf.refl (atRest smallDisk)) hmeets hfail
  exact ⟨smallDisk_quiet, rfl, c, p, a, rest, k', hrun, hnext, hstop, hfed⟩

/-- One process makes a directory, another visits it, the first removes it. -/
def makeAndRemove : List (Nat × Call) :=
  [(1, .mkdir (some pathD)), (0, .chdir (some pathD)), (0, .chdir (some pathRoot)),
    (1, .unlink (some pathD))]

theorem log_writes_private_make_and_remove :
    ∃ c, RunOf Act.exec Starts FreesInTrans (atRest smallDisk) c ∧ c.state.allocs = [5] ∧
      c.state.foreign = false := by
  have hout : outcome (fun k => (k.allocs, k.starved)) makeAndRemove smallDisk =
      (none, [5], false) := by decide +kernel
  obtain ⟨k', hok, hsees⟩ := outcome_ok hout
  have hmeets : CallsMeet FreesInTrans makeAndRemove smallDisk := by decide +kernel
  have hrun := runCalls_reach makeAndRemove (RunOf.refl (atRest smallDisk)) hmeets hok
  refine ⟨atRest k', hrun, (Prod.mk.inj hsees).1, ?_⟩
  exact (log_writes_private smallDisk_quiet rfl hrun (Prod.mk.inj hsees).2).1

end Xv6.Kernel
