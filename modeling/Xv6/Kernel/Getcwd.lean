import Xv6.Kernel.Dir
import Xv6.Kernel.Inode
import Xv6.Kernel.Mount
import Xv6.Kernel.UserPointers

/-!
# The path of the working directory

`sys_getcwd` and `name_for_inode` of `kernel/sysfile.c`.  At every directory on the way up
`name_for_inode` looks for the root with `namei("/")`, which takes a reference that is never put
back.

* `getcwd_keeps_reference`: a call that returns has left a reference to the root.
-/

namespace Xv6.Kernel

open Xv6.Verified
open Exec

namespace Sys

/-- The loop of `name_of_inode`, with `n` entries left. -/
def nameOfInodeLoop (ip parent : Nat) : Nat → Nat → Prog (Option (List UInt8))
  | 0, _ => return none
  | n + 1, off => do
      match ← act (.readi parent off DIRENT) with
      | none => return none
      | some de =>
          if de.length ≠ DIRENT then return none
          else if direntInum de = ip then
            return some (((direntName de).takeWhile (· ≠ 0)).take (DIRSIZ - 1))
          else nameOfInodeLoop ip parent n (off + DIRENT)

/-- `name_of_inode`: the name of `ip` in `parent`; `none` if it panics or does not find one. -/
def nameOfInode (ip parent : Nat) : Prog (Option (List UInt8)) := do
  let d ← act (.stat parent)
  nameOfInodeLoop ip parent (entries d.size) 0

/-- `name_for_inode`, for `fuel` directories at most: the addresses that it stores to, and what it
returns.  `none` if it does not return: it panics, or the way up is longer. -/
def nameForInode (buf : Nat) (n : Int) : Nat → Nat → Prog (Option (List Nat × Nat))
  | 0, _ => return none
  | fuel + 1, ip => do
      match ← namei [slash] with
      | none => return none
      | some root =>
          if ip = root then return some ([buf], 1)
          else do
            let d ← act (.stat ip)
            if d.type ≠ .dir then return none
            else do
              match ← dirlookup ip dotdot with
              | none => return none
              | some (parent, _) => do
                  act (.ilock parent)
                  match ← nameOfInode ip parent with
                  | none => return none
                  | some name => do
                      match ← nameForInode buf n fuel parent with
                      | none => return none
                      | some (stores, up) => do
                          let stores := stores ++ UserPointers.safestrcpy (buf + up) name (n - up)
                          let offset := up + UserPointers.strlen name
                          -- the parent stays locked when the path ends here
                          if (offset : Int) = n - 1 then
                            return some (stores ++ [buf + offset], n.toNat)
                          else do
                            act (.iunlock parent)
                            iput parent
                            return some (stores ++ [buf + offset], offset + 1)

/-- `sys_getcwd`, when `argptr` accepted the block of `n` bytes at `p`. -/
def getcwd (p : Nat) (n : Int) (fuel : Nat) : Prog (Option (List Nat × Nat)) := do
  let ip ← act .cwd
  nameForInode p n fuel ip

end Sys

/-! ## References -/

section References

variable {α β : Type} {q : Nat} {k₀ k k' : State} {δ ε : Nat → Int}

/-- Every entry of the inode cache has `δ` more references, or more than that. -/
def Raised (δ : Nat → Int) (k k' : State) : Prop :=
  ∀ i, ((k.icache i).ref : Int) + δ i ≤ (k'.icache i).ref

/-- Whatever `m` answers, if it answers, meets `Q`. -/
abbrev Answers (q : Nat) (m : Prog α) (Q : α → State → Prop) (k : State) : Prop :=
  m.wp (Act.exec q) (fun _ _ => True) Q (fun _ _ => True) k

theorem Raised.refl (k : State) : Raised 0 k k := fun i => by simp

theorem Raised.mono (h : Raised ε k k') (hle : ∀ i, δ i ≤ ε i) : Raised δ k k' := by
  intro i
  have := h i
  have := hle i
  omega

theorem Raised.trans (h : Raised δ k₀ k) (h' : Raised ε k k') : Raised (δ + ε) k₀ k' := by
  intro i
  have h1 := h i
  have h2 := h' i
  rw [Pi.add_apply]
  omega

/-- An act, by what its code does to the references. -/
theorem answers_act {a : Act} {ε : a.Res → Nat → Int} (h : Raised δ k₀ k)
    (hcode : ∀ k r k', a.code.run k = .ok r k' → Raised (ε r) k k') :
    Answers q (Sys.act a) (fun r k' => Raised (δ + ε r) k₀ k') k := by
  intro _
  rw [Act.exec, wp_bind, wp_get, wp_ite]
  refine ⟨fun _ => ?_, fun _ => (wp_stop _).2 trivial⟩
  rw [wp_bind, wp_modify]
  have h' : Raised δ k₀ { k with cur := q } := h
  cases hrun : a.code.run { k with cur := q } with
  | ok r k' => exact wp_of_ok hrun (h'.trans (hcode _ r k' hrun))
  | fail e k' => exact wp_of_fail hrun trivial

theorem answers_panic {m : Panic} {Q : α → State → Prop} :
    Answers q (Sys.panic m : Prog α) Q k := by
  intro _
  cases hrun : (Act.exec q (.panic m)).run k with
  | ok r k' => exact Empty.elim r
  | fail e k' => exact wp_of_fail hrun trivial

/-- An act that leaves the cache entries alone, or only their locks. -/
theorem answers_quiet {a : Act} (h : Raised δ k₀ k)
    (hcode : ∀ k r k', a.code.run k = .ok r k' → ∀ i, (k'.icache i).ref = (k.icache i).ref) :
    Answers q (Sys.act a) (fun _ k' => Raised δ k₀ k') k := by
  refine Prog.wp_imp (answers_act (ε := fun _ => 0) h fun k r k' hrun i => ?_) fun r k' hr => ?_
  · rw [hcode k r k' hrun i, Pi.zero_apply, add_zero]
  · rw [add_zero] at hr
    exact hr

theorem setEntry_ref {ip : Nat} {e : CacheEntry} (i : Nat) :
    ((k.setEntry ip e).icache i).ref = if i = ip then e.ref else (k.icache i).ref := by
  unfold State.setEntry
  dsimp only
  by_cases h : i = ip
  · rw [h, if_pos rfl, Function.update_self]
  · rw [if_neg h, Function.update_of_ne h]

theorem answers_iget {inum : Nat} (h : Raised δ k₀ k) :
    Answers q (Sys.act (.iget inum)) (fun _ k' => Raised (δ + Pi.single inum 1) k₀ k') k := by
  refine answers_act (ε := fun _ => Pi.single inum 1) h fun k r k' hrun i => ?_
  obtain rfl := ok_of_wp (iget_spec k inum) hrun
  rw [setEntry_ref, CacheEntry.got]
  by_cases hi : i = inum
  · subst hi
    rw [if_pos rfl, Pi.single_eq_same]
    split_ifs
    · push_cast
      omega
    · dsimp only
      omega
  · rw [if_neg hi, Pi.single_eq_of_ne hi, add_zero]

theorem answers_stat {ip : Nat} (h : Raised δ k₀ k) :
    Answers q (Sys.act (.stat ip)) (fun _ k' => Raised δ k₀ k') k := by
  refine answers_quiet h fun k r k' hrun i => ?_
  cases hrun
  rfl

theorem answers_cwd (h : Raised δ k₀ k) :
    Answers q (Sys.act .cwd) (fun _ k' => Raised δ k₀ k') k := by
  refine answers_quiet h fun k r k' hrun i => ?_
  unfold Act.code cwd at hrun
  rw [run_get_bind] at hrun
  split at hrun
  · cases hrun
  · cases hrun
    rfl

theorem answers_readi {ip off n : Nat} (h : Raised δ k₀ k) :
    Answers q (Sys.act (.readi ip off n)) (fun _ k' => Raised δ k₀ k') k := by
  refine answers_quiet h fun k r k' hrun i => ?_
  rcases ok_of_wp (readi_moves k ip _ _) hrun with hframe | rfl
  · rw [hframe.icache]
  · rfl

theorem answers_ilock {ip : Nat} (h : Raised δ k₀ k) :
    Answers q (Sys.act (.ilock ip)) (fun _ k' => Raised δ k₀ k') k := by
  refine answers_quiet h fun k r k' hrun i => ?_
  obtain ⟨-, -, rfl⟩ := ilock_ok hrun
  dsimp only
  by_cases hi : i = ip
  · rw [hi, Function.update_self]
  · rw [Function.update_of_ne hi]

theorem answers_iunlock {ip : Nat} (h : Raised δ k₀ k) :
    Answers q (Sys.act (.iunlock ip)) (fun _ k' => Raised δ k₀ k') k := by
  refine answers_quiet h fun k r k' hrun i => ?_
  rw [iunlock_ok hrun, setEntry_ref]
  split_ifs with hi
  · rw [hi]
  · rfl

/-- `iput` puts one reference back. -/
theorem answers_iput {ip : Nat} (h : Raised δ k₀ k) :
    Answers q (Sys.iput ip) (fun _ k' => Raised (δ + Pi.single ip (-1)) k₀ k') k := by
  rw [Sys.iput, Answers, Prog.wp_bind]
  refine Prog.wp_imp (answers_act
    (ε := fun r => if r = true then 0 else Pi.single ip (-1)) h fun k r k' hrun i => ?_) ?_
  · rcases iputCheck_ok hrun with ⟨rfl, -, -, rfl⟩ | ⟨rfl, -, rfl⟩
    · rw [if_pos rfl, setEntry_ref]
      split_ifs with hi
      · rw [hi, Pi.zero_apply, add_zero]
      · rw [Pi.zero_apply, add_zero]
    · rw [if_neg Bool.false_ne_true, setEntry_ref]
      by_cases hi : i = ip
      · subst hi
        rw [if_pos rfl, Pi.single_eq_same]
        dsimp only
        omega
      · rw [if_neg hi, Pi.single_eq_of_ne hi, add_zero]
  · intro r k' hr
    cases r with
    | false => exact hr
    | true =>
        rw [if_pos rfl, add_zero] at hr
        refine answers_act (ε := fun _ => Pi.single ip (-1)) hr fun k r k' hrun i => ?_
        have hframe := iputFree_frame hrun
        rw [hframe.icache, setEntry_ref]
        by_cases hi : i = ip
        · subst hi
          rw [if_pos rfl, Pi.single_eq_same]
          dsimp only
          omega
        · rw [if_neg hi, Pi.single_eq_of_ne hi, add_zero]

/-- `namei("/")` takes a reference to the root. -/
theorem answers_namei_slash (h : Raised δ k₀ k) :
    Answers q (Sys.namei [Sys.slash])
      (fun r k' => r = some ROOTINO ∧ Raised (δ + Pi.single ROOTINO 1) k₀ k') k := by
  have hprog : Sys.namei [Sys.slash] =
      (Sys.act (.iget ROOTINO) >>= fun _ => (pure (some ROOTINO) : Prog (Option Nat))) := rfl
  rw [hprog, Answers, Prog.wp_bind]
  exact Prog.wp_imp (answers_iget h) fun _ k' hk' => ⟨rfl, hk'⟩

theorem answers_readDirent {dp off : Nat} {m : Panic} (h : Raised δ k₀ k) :
    Answers q (Sys.readDirent dp off m) (fun _ k' => Raised δ k₀ k') k := by
  rw [Sys.readDirent, Answers, Prog.wp_bind]
  refine Prog.wp_imp (answers_readi h) fun r k' hk' => ?_
  cases r with
  | none => exact answers_panic
  | some de =>
      by_cases hlen : de.length = DIRENT
      · simp only [if_pos hlen]
        exact hk'
      · simp only [if_neg hlen]
        exact answers_panic

/-- What `dirlookup` finds has one more reference. -/
def Held (δ : Nat → Int) (k₀ : State) (r : Option (Nat × Nat)) (k' : State) : Prop :=
  ∀ x, r = some x → Raised (δ + Pi.single x.1 1) k₀ k'

theorem answers_dirlookupLoop {dp : Nat} {name : List UInt8} {n off : Nat} (h : Raised δ k₀ k) :
    Answers q (Sys.dirlookupLoop dp name n off) (Held δ k₀) k := by
  induction n generalizing k off with
  | zero => exact fun x hx => by cases hx
  | succ n ih =>
      rw [Sys.dirlookupLoop, Answers, Prog.wp_bind]
      refine Prog.wp_imp (answers_readDirent h) fun de k₁ h₁ => ?_
      by_cases hmatch : direntInum de ≠ 0 ∧ namecmp name (direntName de) = true
      · rw [if_pos hmatch, Prog.wp_bind]
        refine Prog.wp_imp (answers_iget h₁) fun _ k₂ h₂ => ?_
        rintro x hx
        cases hx
        exact h₂
      · rw [if_neg hmatch]
        exact ih h₁

theorem answers_dirlookup {dp : Nat} {name : List UInt8} (h : Raised δ k₀ k) :
    Answers q (Sys.dirlookup dp name) (Held δ k₀) k := by
  rw [Sys.dirlookup, Answers, Prog.wp_bind]
  refine Prog.wp_imp (answers_stat h) fun d k₁ h₁ => ?_
  by_cases ht : d.type ≠ .dir
  · rw [if_pos ht]
    exact answers_panic
  · rw [if_neg ht]
    exact answers_dirlookupLoop h₁

theorem answers_nameOfInodeLoop {ip parent n off : Nat} (h : Raised δ k₀ k) :
    Answers q (Sys.nameOfInodeLoop ip parent n off) (fun _ k' => Raised δ k₀ k') k := by
  induction n generalizing k off with
  | zero => exact h
  | succ n ih =>
      rw [Sys.nameOfInodeLoop, Answers, Prog.wp_bind]
      refine Prog.wp_imp (answers_readi h) fun r k₁ h₁ => ?_
      cases r with
      | none => exact h₁
      | some de =>
          dsimp only
          split_ifs
          · exact h₁
          · exact h₁
          · exact ih h₁

theorem answers_nameOfInode {ip parent : Nat} (h : Raised δ k₀ k) :
    Answers q (Sys.nameOfInode ip parent) (fun _ k' => Raised δ k₀ k') k := by
  rw [Sys.nameOfInode, Answers, Prog.wp_bind]
  exact Prog.wp_imp (answers_stat h) fun d k₁ h₁ => answers_nameOfInodeLoop h₁

/-- `name_for_inode` leaves one more reference to the root, at least. -/
theorem answers_nameForInode {buf : Nat} {n : Int} {fuel ip : Nat} (h : Raised δ k₀ k) :
    Answers q (Sys.nameForInode buf n fuel ip)
      (fun r k' => r.isSome → Raised (δ + Pi.single ROOTINO 1) k₀ k') k := by
  induction fuel generalizing k δ ip with
  | zero => exact fun hr => by cases hr
  | succ fuel ih =>
      rw [Sys.nameForInode, Answers, Prog.wp_bind]
      refine Prog.wp_imp (answers_namei_slash h) fun r k₁ h₁ => ?_
      obtain ⟨rfl, h₁⟩ := h₁
      dsimp only
      by_cases hroot : ip = ROOTINO
      · rw [if_pos hroot]
        exact fun _ => h₁
      · rw [if_neg hroot, Prog.wp_bind]
        refine Prog.wp_imp (answers_stat h₁) fun d k₂ h₂ => ?_
        by_cases ht : d.type ≠ .dir
        · rw [if_pos ht]
          exact fun hr => by cases hr
        · rw [if_neg ht, Prog.wp_bind]
          refine Prog.wp_imp (answers_dirlookup h₂) fun r k₃ h₃ => ?_
          cases r with
          | none => exact fun hr => by cases hr
          | some x =>
              obtain ⟨parent, off⟩ := x
              have h₃ := h₃ _ rfl
              dsimp only at h₃ ⊢
              rw [Prog.wp_bind]
              refine Prog.wp_imp (answers_ilock h₃) fun _ k₄ h₄ => ?_
              rw [Prog.wp_bind]
              refine Prog.wp_imp (answers_nameOfInode h₄) fun r k₅ h₅ => ?_
              cases r with
              | none => exact fun hr => by cases hr
              | some name =>
                  dsimp only
                  rw [Prog.wp_bind]
                  refine Prog.wp_imp (ih h₅) fun r k₆ h₆ => ?_
                  cases r with
                  | none => exact fun hr => by cases hr
                  | some y =>
                      obtain ⟨stores, up⟩ := y
                      have h₆ := h₆ rfl
                      dsimp only
                      by_cases hend : ((up + UserPointers.strlen name : Nat) : Int) = n - 1
                      · rw [if_pos hend]
                        refine fun _ => h₆.mono fun i => ?_
                        simp only [Pi.add_apply, Pi.single_apply]
                        split_ifs <;> omega
                      · rw [if_neg hend, Prog.wp_bind]
                        refine Prog.wp_imp (answers_iunlock h₆) fun _ k₇ h₇ => ?_
                        rw [Prog.wp_bind]
                        refine Prog.wp_imp (answers_iput h₇) fun _ k₈ h₈ => ?_
                        refine fun _ => h₈.mono fun i => ?_
                        simp only [Pi.add_apply, Pi.single_apply]
                        split_ifs <;> omega

end References

/-! ## The call -/

/-- What a call may leave behind: it stored only into the block, and nobody holds an inode that it
did not hold before, nor its lock. -/
structure Traceless (p : Nat) (n : Int) (stores : List Nat) (k k' : State) : Prop where
  stores : ∀ a ∈ stores, p ≤ a ∧ (a : Int) < p + n
  ref : ∀ i, (k'.icache i).ref = (k.icache i).ref
  busy : ∀ i, (k'.icache i).busy = (k.icache i).busy

/-- After a call that returns, the root has a reference more, at least; so no call is without a
trace. -/
theorem getcwd_keeps_reference {q p fuel off : Nat} {n : Int} {stores : List Nat} {k k' : State}
    (h : ((Sys.getcwd p n fuel).run (Act.exec q)).run k = .ok (some (stores, off)) k') :
    (k.icache ROOTINO).ref < (k'.icache ROOTINO).ref ∧ ¬Traceless p n stores k k' := by
  have hraised : Answers q (Sys.getcwd p n fuel)
      (fun r k' => r.isSome → Raised (0 + Pi.single ROOTINO 1) k k') k := by
    rw [Sys.getcwd, Answers, Prog.wp_bind]
    exact Prog.wp_imp (answers_cwd (.refl k)) fun ip k₁ h₁ => answers_nameForInode h₁
  have hroot := ok_of_wp (Prog.wp_run_of_true hraised) h rfl ROOTINO
  rw [zero_add, Pi.single_eq_same] at hroot
  refine ⟨by omega, fun htrace => ?_⟩
  have := htrace.ref ROOTINO
  omega

/-- Process 0 asks for its working directory, the root. -/
theorem getcwd_keeps_reference_root : ∃ k', ((Sys.getcwd 100 10 1).run (Act.exec 0)).run
      (mount fun _ => Block.zero) = .ok (some ([100], 1)) k' ∧
    ((mount fun _ => Block.zero).icache ROOTINO).ref < (k'.icache ROOTINO).ref ∧
      ¬Traceless 100 10 [100] (mount fun _ => Block.zero) k' := by
  obtain ⟨k', hrun⟩ : ∃ k', ((Sys.getcwd 100 10 1).run (Act.exec 0)).run
      (mount fun _ => Block.zero) = .ok (some ([100], 1)) k' := ⟨_, rfl⟩
  exact ⟨k', hrun, getcwd_keeps_reference hrun⟩

/-- The path of the root is complete, and its inode has two references instead of one. -/
theorem getcwd_leaves_trace : ∃ k', ((Sys.getcwd 100 10 1).run (Act.exec 0)).run
      (mount fun _ => Block.zero) = .ok (some ([100], 1)) k' ∧
    (k'.icache ROOTINO).ref = 2 ∧ ¬Traceless 100 10 [100] (mount fun _ => Block.zero) k' :=
  ⟨_, rfl, rfl, fun h => absurd (h.ref ROOTINO) (by decide)⟩

end Xv6.Kernel
