import Xv6.Kernel.Discipline

/-!
# Directories and paths follow the discipline

Each function that the system calls share has a lemma that says what it holds
when it returns, given what it held when it was called.
-/

namespace Xv6.Kernel

open Xv6.Verified
open Xv6.Verified.Prog

/-- The program follows the discipline from `t` on and ends with `Q`. -/
abbrev Follows (strict : Bool) {α : Type} (q : Prog α) (Q : α → TypeState → Prop)
    (t : TypeState) : Prop :=
  q.Typed (discipline strict) Q t

namespace Sys

variable {strict : Bool} {t : TypeState}

/-- Every locked inode is one the process may lock. -/
def Covered (t : TypeState) : Prop := ∀ i, i ∈ t.locks → i ∈ t.refs ∨ i ∈ t.via

theorem follows_panic {α : Type} {Q : α → TypeState → Prop} (m : Panic)
    (hm : m.ofLog = false) : Follows strict (panic m : Prog α) Q t :=
  ⟨hm, fun r => r.elim⟩

/-! ## Inodes -/

theorem iput_follows {ip : Nat} (href : ip ∈ t.refs)
    (hlock : ip ∈ t.locks → ip ∈ t.refs.erase ip ∨ ip ∈ t.via) :
    Follows strict (iput ip) (fun _ t' => t' = { t with refs := t.refs.erase ip }) t := by
  refine typed_act ⟨href, hlock⟩ fun r hfits => ?_
  cases r with
  | true =>
      refine ⟨⟨List.mem_cons_self, href, (hfits rfl).2⟩, fun _ _ => ?_⟩
      simp [Typed, discipline, TypeState.next]
  | false => exact rfl

theorem iunlockput_follows {ip : Nat} (href : ip ∈ t.refs) (hlock : ip ∈ t.locks)
    (hnodup : t.locks.Nodup) :
    Follows strict (iunlockput ip)
      (fun _ t' => t' = { t with locks := t.locks.erase ip, refs := t.refs.erase ip }) t := by
  refine typed_act hlock fun _ _ => ?_
  refine iput_follows href fun hmem => ?_
  exact absurd rfl (hnodup.mem_erase_iff.1 hmem).1

/-! ## Directories -/

theorem readDirent_follows {dp off : Nat} {m : Panic} (hm : m.ofLog = false)
    (hdp : dp ∈ t.locks) :
    Follows strict (readDirent dp off m) (fun _ t' => t' = t) t := by
  refine typed_act hdp fun r _ => ?_
  cases r with
  | none => exact follows_panic m hm
  | some de =>
      dsimp only
      split
      · exact rfl
      · exact follows_panic m hm

/-- What `dirlookup` leaves: a reference to what it found. -/
def Found (t : TypeState) (r : Option (Nat × Nat)) (t' : TypeState) : Prop :=
  match r with
  | none => t' = t
  | some (ip, _) => t' = { t with refs := ip :: t.refs }

theorem dirlookupLoop_follows {dp : Nat} {name : List UInt8} (hdp : dp ∈ t.locks) (n : Nat) :
    ∀ off, Follows strict (dirlookupLoop dp name n off) (Found t) t := by
  induction n with
  | zero => exact fun _ => rfl
  | succ n ih =>
      intro off
      refine typed_then (readDirent_follows rfl hdp) ?_
      rintro de _ rfl
      split
      · exact ⟨trivial, fun _ _ => rfl⟩
      · exact ih _

theorem dirlookup_follows {dp : Nat} {name : List UInt8} (hdp : dp ∈ t.locks) :
    Follows strict (dirlookup dp name) (Found t) t := by
  refine typed_act hdp fun d _ => ?_
  split
  · exact follows_panic _ rfl
  · exact dirlookupLoop_follows hdp _ _

theorem emptyLoop_follows {dp : Nat} (hdp : dp ∈ t.locks) (n : Nat) :
    ∀ off, Follows strict (emptyLoop dp n off) (fun _ t' => t' = t) t := by
  induction n with
  | zero => exact fun _ => rfl
  | succ n ih =>
      intro off
      refine typed_then (readDirent_follows rfl hdp) ?_
      rintro de _ rfl
      split
      · exact rfl
      · exact ih _

theorem dirlink_follows {dp inum : Nat} {name : List UInt8} (hdp : dp ∈ t.locks)
    (hcov : Covered t) (htrans : t.trans = true) :
    Follows strict (dirlink dp name inum) (fun _ t' => t' = t) t := by
  refine typed_then (dirlookup_follows hdp) ?_
  intro r t' hfound
  cases r with
  | some x =>
      obtain ⟨ip, off⟩ := x
      subst hfound
      refine typed_then (iput_follows List.mem_cons_self fun hmem => ?_) ?_
      · rw [List.erase_cons_head]
        exact hcov ip hmem
      · rintro _ _ rfl
        simp [Typed, Pure.pure]
  | none =>
      subst hfound
      refine typed_act hdp fun d _ => ?_
      refine typed_then (emptyLoop_follows hdp _ _) ?_
      rintro off _ rfl
      refine typed_act ⟨hdp, htrans⟩ fun r _ => ?_
      split
      · exact follows_panic _ rfl
      · exact rfl

/-! ## Paths -/

/-- What `namex` leaves: a reference to what it found. -/
def Resolved (t : TypeState) (r : Option (Nat × List UInt8)) (t' : TypeState) : Prop :=
  match r with
  | none => t' = t
  | some (ip, _) => t' = { t with refs := ip :: t.refs }

theorem namexEnd_follows {parent : Bool} {ip : Nat} (hlocks : t.locks = []) :
    Follows strict (if parent then do
        iput ip
        return none
      else return some (ip, []) : Prog (Option (Nat × List UInt8))) (Resolved t)
      { t with refs := ip :: t.refs } := by
  split
  · refine typed_then (iput_follows List.mem_cons_self fun hmem => ?_) ?_
    · simp [hlocks] at hmem
    · rintro _ _ rfl
      simp [Typed, Pure.pure, Resolved]
  · exact rfl

theorem namexLoop_follows {parent : Bool} (hlocks : t.locks = []) (fuel : Nat) :
    ∀ ip path, Follows strict (namexLoop parent fuel ip path) (Resolved t)
      { t with refs := ip :: t.refs } := by
  obtain ⟨trans, locks, refs, via, lent, child⟩ := t
  obtain rfl : locks = [] := hlocks
  induction fuel with
  | zero => exact fun ip path => namexEnd_follows rfl
  | succ fuel ih =>
      intro ip path
      rw [namexLoop]
      cases skipelem path with
      | none => exact namexEnd_follows rfl
      | some x =>
          obtain ⟨name, rest⟩ := x
          refine typed_act (.inl List.mem_cons_self) fun _ _ => ?_
          refine typed_act List.mem_cons_self fun d _ => ?_
          have hput : ∀ refs', ip ∈ refs' → Follows strict (iunlockput ip)
              (fun _ t' => t' = ⟨trans, [], refs'.erase ip, via, lent, child⟩)
              ⟨trans, [ip], refs', via, lent, child⟩ := fun refs' hmem =>
            typed_mono (iunlockput_follows hmem List.mem_cons_self (List.nodup_singleton ip))
              fun _ _ heq => by simpa using heq
          split
          · refine typed_then (hput _ List.mem_cons_self) ?_
            rintro _ _ rfl
            simp [Typed, Pure.pure, Resolved]
          · split
            · refine typed_act List.mem_cons_self fun _ _ => ?_
              simp [Typed, Pure.pure, Resolved, discipline, TypeState.next]
            · refine typed_then (dirlookup_follows List.mem_cons_self) ?_
              intro r t' hfound
              cases r with
              | none =>
                  subst hfound
                  refine typed_then (hput _ List.mem_cons_self) ?_
                  rintro _ _ rfl
                  simp [Typed, Pure.pure, Resolved]
              | some x =>
                  obtain ⟨next, off⟩ := x
                  subst hfound
                  refine typed_then (hput _ (List.mem_cons_of_mem _ List.mem_cons_self)) ?_
                  rintro _ _ rfl
                  have herase : (next :: ip :: refs).erase ip = next :: refs := by
                    by_cases hne : next = ip
                    · rw [hne, List.erase_cons_head]
                    · rw [List.erase_cons_tail (by simpa using hne), List.erase_cons_head]
                  dsimp only [discipline, TypeState.next]
                  rw [herase]
                  exact ih next rest

theorem namex_follows {parent : Bool} {path : List UInt8} (hlocks : t.locks = [])
    (hlent : t.lent = false) : Follows strict (namex path parent) (Resolved t) t := by
  have hstart : Follows strict (namexStart path) (fun ip t' => t' =
      { t with refs := ip :: t.refs }) t := by
    unfold namexStart
    split
    · exact ⟨trivial, fun _ _ => rfl⟩
    · exact ⟨hlent, fun _ _ => rfl⟩
  refine typed_then hstart ?_
  rintro ip _ rfl
  exact namexLoop_follows hlocks _ ip path

theorem namei_follows {path : List UInt8} (hlocks : t.locks = []) (hlent : t.lent = false) :
    Follows strict (namei path) (fun r t' => match r with
      | none => t' = t
      | some ip => t' = { t with refs := ip :: t.refs }) t := by
  refine typed_then (namex_follows hlocks hlent) ?_
  intro r t' hres
  cases r with
  | none => exact hres
  | some x => exact hres

end Sys

end Xv6.Kernel
