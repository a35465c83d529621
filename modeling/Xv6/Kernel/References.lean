import Mathlib.Algebra.BigOperators.Group.Finset.Piecewise
import Xv6.Kernel.Transactions

/-!
# References to inodes between calls

Inside a call a process holds references and locks of its own; the type-state discipline
says which.  Between calls it holds none, so what is left of a reference count are the
working directories and the open files.

* `inode_refs_accounted`: in every interleaving of calls, whenever no process is in a call.
-/

namespace Xv6.Kernel

open Xv6.Verified
open Finset

/-- How many processes have inode `i` as their working directory. -/
def State.cwds (k : State) (i : Nat) : Nat := #{p ∈ range NPROC | (k.ptable p).cwd = some i}

/-- How many `struct file`s in use are open on inode `i`. -/
def State.openFiles (k : State) (i : Nat) : Nat :=
  #{f ∈ range NFILE | 0 < (k.ftable f).ref ∧ (k.ftable f).kind = .inode ∧ (k.ftable f).ip = i}

section Idle

variable {ts : Nat → TypeState} {k : State}

theorem procHolds_idle {t : TypeState} (h : t.Idle) (q : Proc) (i : Nat) :
    procHolds t q i = if q.cwd = some i then 1 else 0 := by
  simp [procHolds, h.refs, h.lent]

theorem holders_idle (h : ∀ p, (ts p).Idle) (i : Nat) :
    holders ts k i = k.cwds i + k.openFiles i := by
  have hprocs : ∑ p ∈ range NPROC, procHolds (ts p) (k.ptable p) i = k.cwds i := by
    rw [State.cwds, card_filter]
    exact sum_congr rfl fun p _ => procHolds_idle (h p) _ i
  have hfiles : ∑ f ∈ range NFILE, (k.ftable f).holds i = k.openFiles i := by
    rw [State.openFiles, card_filter]
    rfl
  rw [holders, hprocs, hfiles]

theorem Invariant.not_busy (h : Invariant ts k) (hidle : ∀ p, (ts p).Idle) (i : Nat) :
    (k.icache i).busy = none := by
  cases hbusy : (k.icache i).busy with
  | none => rfl
  | some p =>
      have hmem := (h.locks.locks p i).1 hbusy
      rw [(hidle p).locks] at hmem
      cases hmem

end Idle

/-- **Inode references are accounted for.**  In every interleaving of calls, whatever their
arguments and however they end, when no process is in a call the reference count of an inode
is the number of processes that have it as their working directory plus the number of files
that are open on it, and no inode is busy. -/
theorem inode_refs_accounted {k : State} {c : Config Nat Act Act.Res State} (hquiet : Quiet k)
    (hrun : RunOf Act.exec Starts (fun _ _ _ => True) (atRest k) c)
    (hbetween : ∀ p, c.threads p = none) (i : Nat) :
    (c.state.icache i).ref = c.state.cwds i + c.state.openFiles i ∧
      (c.state.icache i).busy = none := by
  have h0 : Disciplined (discipline false) TypeState.Idle Invariant (atRest k) :=
    ⟨_, hquiet.invariant, fun _ => ⟨rfl, rfl, rfl, rfl, rfl⟩⟩
  obtain ⟨ts, hinv, hts⟩ := hrun.disciplined
    (fun _ _ _ _ hstart hidle => by
      obtain ⟨-, call, rfl⟩ := hstart
      exact Prog.typed_then (call.ends hidle) fun _ _ h => h)
    (fun ts s p a r s' hJ hpre _ hact => hJ.act hpre nofun hact) h0
  have hidle : ∀ p, (ts p).Idle := by
    intro p
    have := hts p
    rwa [hbetween p] at this
  exact ⟨by rw [hinv.counts.refs i, holders_idle hidle], hinv.not_busy hidle i⟩

/-- One process makes a directory, another enters it, the first fails to open a file below a
name that is not there and opens the directory. -/
def enterAndOpen : List (Nat × Call) :=
  [(1, .mkdir (some pathD)), (0, .chdir (some pathD)), (1, .open (some [120, 47, 121]) 0),
    (1, .open (some pathD) 0)]

theorem inode_refs_accounted_enter_and_open :
    ∃ k, RunOf Act.exec Starts (fun _ _ _ => True) (atRest smallDisk) (atRest k) ∧
      (k.icache 2).ref = 2 ∧ k.cwds 2 + k.openFiles 2 = 2 ∧ (k.icache 2).busy = none := by
  have hout : outcome (fun k => (k.icache 2).ref) enterAndOpen smallDisk = (none, 2) := by
    decide +kernel
  obtain ⟨k, hok, href⟩ := outcome_ok hout
  have hmeets : CallsMeet (fun _ _ _ => True) enterAndOpen smallDisk := by decide +kernel
  have hrun := runCalls_reach enterAndOpen (RunOf.refl (atRest smallDisk)) hmeets hok
  obtain ⟨hcount, hbusy⟩ := inode_refs_accounted smallDisk_quiet hrun (fun _ => rfl) 2
  have hstate : (k.icache 2).ref = k.cwds 2 + k.openFiles 2 := hcount
  rw [href] at hstate
  exact ⟨k, hrun, href, hstate.symm, hbusy⟩

end Xv6.Kernel
