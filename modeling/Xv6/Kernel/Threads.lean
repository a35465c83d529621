import Xv6.Kernel.Calls
import Xv6.Kernel.Tables

/-!
# What one act of one process does to the invariant

The lemmas about single kernel functions put together: an act that the
discipline allows keeps the invariant, whichever process performs it.
-/

namespace Xv6.Kernel

open Xv6.Verified
open Exec

/-- `iput` of this inode would free it: the reference is the last one and no
directory entry names the inode. -/
def State.LastUnlinked (k : State) (ip : Nat) : Prop :=
  (k.icache ip).ref = 1 ∧ (k.icache ip).valid = true ∧ (k.icopy ip).nlink = 0

instance (k : State) (ip : Nat) : Decidable (k.LastUnlinked ip) :=
  inferInstanceAs (Decidable (_ ∧ _ ∧ _))

/-- If process `p` is about to free an inode, it has the transaction. -/
def FreesInTrans (p : Nat) (k : State) : Act → Prop
  | .iputCheck ip => k.LastUnlinked ip → k.log.busy = some p
  | _ => True

instance (p : Nat) (k : State) : (a : Act) → Decidable (FreesInTrans p k a)
  | .iputCheck ip => inferInstanceAs (Decidable (k.LastUnlinked ip → k.log.busy = some p))
  | .beginTrans | .commitTrans | .iget _ | .idupCwd | .ilock _ | .iunlock _ | .stat _
  | .iputFree _ | .readi _ _ _ | .writei _ _ _ | .bumpNlink _ _ | .initInode _ _ _ | .ialloc _
  | .panic _ | .fdfile _ | .fdoffset _ | .fdadvance _ _ | .fdclose _ | .fileopen _ _ | .cwd
  | .setCwd _ | .allocproc | .setState _ _ | .forkFd _ _ | .forkCwd _ | .exitCheck
  | .exitProc => inferInstanceAs (Decidable True)

section Act

variable {ts : Nat → TypeState} {k k' : State} {p : Nat} {strict : Bool}

/-- An act is the code of a kernel function, run by a live process. -/
theorem exec_ok {a : Act} {r : a.Res} (hrun : (Act.exec p a).run k = .ok r k') :
    (k.ptable p).state = .live ∧ a.code.run { k with cur := p } = .ok r k' := by
  unfold Act.exec at hrun
  rw [run_get_bind, run_ite] at hrun
  split at hrun
  · exact ⟨by assumption, hrun⟩
  · cases hrun

/-- An act that changes neither the state nor what the process holds. -/
theorem Invariant.unchanged (h : Invariant ts k) (hk : k' = k) :
    Invariant (Function.update ts p (ts p)) k' := by
  rw [hk, Function.update_eq_self]
  exact h

/-- The code of an act keeps the invariant. -/
theorem Invariant.code (h : Invariant ts k) (hp : (k.ptable p).state = .live)
    (hcur : k.cur = p) {a : Act} {r : a.Res} (hpre : (ts p).pre strict a)
    (hfree : strict = true → FreesInTrans p k a) (hrun : a.code.run k = .ok r k') :
    (ts p).fits strict a r ∧ Invariant (Function.update ts p ((ts p).next a r)) k' := by
  cases a with
  | beginTrans => exact ⟨trivial, h.beginTrans hp hcur hrun⟩
  | commitTrans => exact ⟨trivial, h.commitTrans hp hpre hrun⟩
  | iget inum => exact ⟨trivial, h.iget hp hrun⟩
  | idupCwd => exact ⟨trivial, h.idupCwd hp hrun⟩
  | ilock ip =>
      have hidle := (ilock_ok hrun).1
      have hfits : ip ∉ (ts p).locks := by
        intro hmem
        rw [(h.locks.locks p ip).2 hmem] at hidle
        cases hidle
      exact ⟨hfits, h.ilock hp hcur hpre hrun⟩
  | iunlock ip => exact ⟨trivial, h.iunlock hp hpre hrun⟩
  | stat ip =>
      cases hrun
      exact ⟨trivial, h.unchanged rfl⟩
  | iputCheck ip =>
      obtain ⟨hfits, hnext⟩ := h.iputCheck hp hcur hpre.1 hpre.2 hrun
      refine ⟨fun hr => ⟨hfits hr, fun hs => ?_⟩, hnext⟩
      rcases iputCheck_ok hrun with ⟨-, hlast, -, -⟩ | ⟨hr', -⟩
      · exact (h.locks.trans p).1 (hfree hs hlast)
      · rw [hr] at hr'
        cases hr'
  | iputFree ip => exact ⟨trivial, h.iputFree hp hpre.1 hpre.2.1 hrun⟩
  | readi ip off n =>
      exact ⟨trivial, h.readi hp hpre (Nat.mod_lt _ (by decide)) (Nat.mod_lt _ (by decide)) hrun⟩
  | writei ip src off =>
      exact ⟨trivial, h.writei hp hpre.1 (Nat.mod_lt _ (by decide)) (Nat.mod_lt _ (by decide)) hrun⟩
  | bumpNlink ip δ => exact ⟨trivial, h.bumpNlink hp hpre.1 hrun⟩
  | initInode ip major minor => exact ⟨trivial, h.initInode hp hpre.1 hrun⟩
  | ialloc type => exact ⟨trivial, h.ialloc hp hrun⟩
  | panic m => cases hrun
  | fdfile fd => exact ⟨trivial, h.fdfile hp hcur hpre hrun⟩
  | fdoffset fd => exact ⟨trivial, h.unchanged (fdoffset_ok hrun)⟩
  | fdadvance fd n => exact ⟨trivial, h.fdadvance hp hrun⟩
  | fdclose fd => exact ⟨trivial, h.fdclose hp hcur hpre hrun⟩
  | fileopen ip omode => exact ⟨trivial, h.fileopen hp hcur hpre hrun⟩
  | cwd => exact ⟨trivial, h.cwd hp hcur hpre hrun⟩
  | setCwd ip => exact ⟨trivial, h.setCwd hp hcur hpre hrun⟩
  | allocproc => exact ⟨trivial, h.allocproc hrun⟩
  | setState c s => exact ⟨trivial, h.setState hpre hrun⟩
  | forkFd c fd => exact ⟨trivial, h.forkFd hcur hpre hrun⟩
  | forkCwd c => exact ⟨trivial, h.forkCwd hpre hrun⟩
  | exitCheck => exact ⟨trivial, h.unchanged (exitCheck_ok hrun)⟩
  | exitProc =>
      have hzombie : (Kernel.setState p .zombie).run k = .ok () k' := by
        rw [← hcur]
        exact hrun
      exact ⟨trivial, h.exitProc hp hpre hzombie⟩

/-- **One act of one process keeps the invariant.** -/
theorem Invariant.act (h : Invariant ts k) {a : Act} {r : a.Res}
    (hpre : (ts p).pre strict a) (hfree : strict = true → FreesInTrans p k a)
    (hrun : (Act.exec p a).run k = .ok r k') :
    (ts p).fits strict a r ∧ Invariant (Function.update ts p ((ts p).next a r)) k' := by
  obtain ⟨hp, hcode⟩ := exec_ok hrun
  apply (h.of_cur p).code hp rfl hpre _ hcode
  intro hs
  cases a <;> exact hfree hs

end Act

end Xv6.Kernel
