import Xv6.Kernel.Act
import Xv6.Kernel.Ops

/-!
# A starved allocation stays recorded

Most results are promised only as long as `balloc` finds a free data block when it is
asked.  Whatever a program does, once `balloc` has been asked in vain `starved` stays
set, so that the promise has to be looked after only up to that point.
-/

namespace Xv6.Kernel

open Xv6.Verified
open Exec

/-- A change that leaves `starved` alone. -/
theorem modify_fed {f : State → State} (h : ∀ k, (f k).starved = k.starved) :
    Preserves Fed (modify f : K Unit) :=
  .modify fun k hs => (h k).symm.trans hs

theorem argfd_fed (fd : Nat) : Preserves Fed (argfd fd) := .bind .get fun _ => .pure _

theorem fileclose_fed (f : Nat) : Preserves Fed (fileclose f) :=
  .bind .get fun _ => .ite (.stop _) (.ite (.bind (modify_fed fun _ => rfl) fun _ => .pure _)
    (.bind (modify_fed fun _ => rfl) fun _ => .pure _))

theorem filedup_fed (f : Nat) : Preserves Fed (filedup f) :=
  .bind .get fun _ => .ite (.stop _) (modify_fed fun _ => rfl)

theorem fileopen_fed (ip omode : Nat) : Preserves Fed (fileopen ip omode) := by
  have halloc : Preserves Fed filealloc := by
    refine .bind .get fun k => ?_
    split
    · exact .pure _
    · exact .bind (modify_fed fun _ => rfl) fun _ => .pure _
  have hfd : ∀ f, Preserves Fed (fdalloc f) := by
    refine fun f => .bind .get fun k => ?_
    split
    · exact .pure _
    · exact .bind (modify_fed fun _ => rfl) fun _ => .pure _
  refine .bind halloc fun r => ?_
  cases r with
  | none => exact .pure _
  | some f =>
      refine .bind (hfd f) fun r => ?_
      cases r with
      | none => exact .bind (fileclose_fed f) fun _ => .pure _
      | some fd => exact .bind (modify_fed fun _ => rfl) fun _ => .pure _

theorem cwd_fed : Preserves Fed cwd := by
  refine .bind .get fun k => ?_
  split
  · exact .stop _
  · exact .pure _

theorem idupCwd_fed : Preserves Fed idupCwd :=
  .bind cwd_fed fun _ => .bind (modify_fed fun _ => rfl) fun _ => .pure _

theorem iputCheck_fed (ip : Nat) : Preserves Fed (iputCheck ip) :=
  .bind .get fun _ => .ite (.ite (.stop _) (.bind (modify_fed fun _ => rfl) fun _ => .pure _))
    (.bind (modify_fed fun _ => rfl) fun _ => .pure _)

theorem iputFree_fed (ip : Nat) : Preserves Fed (iputFree ip) :=
  .bind (fed_of_frame (itrunc_frame ip)) fun _ => .bind (modify_fed fun _ => rfl) fun _ =>
    .bind (fed_of_frame (iupdate_frame ip)) fun _ => modify_fed fun _ => rfl

/-- No act clears `starved`. -/
theorem Act.code_fed (a : Act) : Preserves Fed a.code := by
  cases a with
  | beginTrans => exact (Op.beginTrans).code_fed
  | commitTrans => exact (Op.commitTrans).code_fed
  | iget inum => exact iget_fed inum
  | idupCwd => exact idupCwd_fed
  | ilock ip => exact (Op.ilock ip).code_fed
  | iunlock ip => exact (Op.iunlock ip).code_fed
  | stat ip => exact .bind .get fun _ => .pure _
  | iputCheck ip => exact iputCheck_fed ip
  | iputFree ip => exact iputFree_fed ip
  | readi ip off n => exact readi_fed ip _ _
  | writei ip src off => exact writei_fed ip _ _ _
  | bumpNlink ip δ => exact fed_of_frame (bumpNlink_frame ip δ)
  | initInode ip major minor => exact fed_of_frame (initInode_frame ip major minor)
  | ialloc type => exact ialloc_fed type
  | panic m => exact .stop _
  | fdfile fd =>
      refine .bind .get fun _ => .bind (argfd_fed fd) fun r => ?_
      cases r <;> exact .pure _
  | fdoffset fd =>
      refine .bind .get fun _ => .bind (argfd_fed fd) fun r => ?_
      cases r with
      | none => exact .stop _
      | some f => exact .pure _
  | fdadvance fd r =>
      refine .bind (argfd_fed fd) fun r => ?_
      cases r with
      | none => exact .stop _
      | some f => exact modify_fed fun _ => rfl
  | fdclose fd =>
      refine .bind (argfd_fed fd) fun r => ?_
      cases r with
      | none => exact .pure _
      | some f =>
          exact .bind (modify_fed fun _ => rfl) fun _ => .bind (fileclose_fed f) fun _ => .pure _
  | fileopen ip omode => exact fileopen_fed ip omode
  | cwd => exact cwd_fed
  | setCwd ip => exact modify_fed fun _ => rfl
  | allocproc =>
      refine .bind .get fun k => ?_
      split
      · exact .pure _
      · exact .bind (modify_fed fun _ => rfl) fun _ => .pure _
  | setState c s => exact modify_fed fun _ => rfl
  | forkFd c fd =>
      refine .bind .get fun k => ?_
      split
      · exact .pure _
      · exact .bind (filedup_fed _) fun _ => modify_fed fun _ => rfl
  | forkCwd c => exact .bind idupCwd_fed fun _ => modify_fed fun _ => rfl
  | exitCheck => exact .bind .get fun _ => .ite (.stop _) (.pure _)
  | exitProc => exact .bind .get fun _ => modify_fed fun _ => rfl

theorem Act.exec_fed (p : Nat) (a : Act) : Preserves Fed (Act.exec p a) :=
  .bind .get fun _ => .ite (.bind (modify_fed fun _ => rfl) fun _ => a.code_fed) (.stop _)

/-- Nothing is left to show once `balloc` has been starved. -/
theorem wp_starved {α : Type} (m : Prog α) {p : Nat} {k : State} (hs : k.starved = true)
    {Q : α → State → Prop} {E : Stop → State → Prop} :
    m.wp (Act.exec p) (fun _ _ => True) (fun a k' => k'.starved = false → Q a k')
      (fun e k' => k'.starved = false → E e k') k := by
  have hne : ∀ {k k' : State}, Fed k k' → k.starved = true → k'.starved = true := by
    intro k k' hfed hs
    cases hs' : k'.starved with
    | true => rfl
    | false =>
        rw [hfed hs'] at hs
        cases hs
  induction m generalizing k with
  | ret a =>
      intro hs'
      rw [hs] at hs'
      cases hs'
  | act a f ih =>
      intro _
      refine wp_mono ((a.exec_fed p).wp k) (fun r k' hfed => ih r (hne hfed hs)) ?_
      intro e k' hfed hs'
      rw [hne hfed hs] at hs'
      cases hs'

/-! ## Acts whose outcome is known -/

/-- An act of a live process is its code. -/
theorem run_exec {k : State} {p : Nat} (hlive : (k.ptable p).state = .live) (a : Act) :
    (Act.exec p a).run k = a.code.run { k with cur := p } := by
  rw [Act.exec, run_get_bind, run_ite, if_pos hlive]
  rfl

/-- An act whose outcome is known. -/
theorem wp_act_ok {α : Type} {p : Nat} {a : Act} {r : a.Res} {k k' : State} {g : a.Res → Prog α}
    {Q : α → State → Prop} {E : Stop → State → Prop} (hrun : (Act.exec p a).run k = .ok r k')
    (hg : (g r).wp (Act.exec p) (fun _ _ => True) Q E k') :
    (Sys.act a >>= g).wp (Act.exec p) (fun _ _ => True) Q E k :=
  fun _ => wp_of_ok hrun hg

end Xv6.Kernel
