import Xv6.Kernel.Typed

/-!
# System calls follow the discipline

A call starts and ends with nothing held, whatever it does in between.
-/

namespace Xv6.Kernel

open Xv6.Verified
open Xv6.Verified.Prog

namespace Sys

variable {strict : Bool} {t : TypeState}

/-! ## Reading, writing, closing -/

/-- The call ends with nothing held. -/
abbrev Ends (strict : Bool) {α : Type} (q : Prog α) (t : TypeState) : Prop :=
  Follows strict q (fun _ t' => t'.Idle) t

theorem idle_mk (via : List Nat) : TypeState.Idle ⟨false, [], [], via, false, none⟩ :=
  ⟨rfl, rfl, rfl, rfl, rfl⟩

theorem ends_ret {α : Type} {a : α} (via : List Nat)
    (h : t = ⟨false, [], [], via, false, none⟩) : Ends strict (pure a : Prog α) t :=
  h ▸ idle_mk via

/-- An idle type-state, written out. -/
theorem Idle.cases {motive : TypeState → Prop} (h : t.Idle)
    (hmk : ∀ via, motive ⟨false, [], [], via, false, none⟩) : motive t := by
  obtain ⟨trans, locks, refs, via, lent, child⟩ := t
  obtain ⟨rfl, rfl, rfl, rfl, rfl⟩ := h
  exact hmk via

theorem fileclose_ends {fd : Nat} (h : t.Idle) : Ends strict (fileclose fd) t := by
  refine Idle.cases h fun via => ?_
  refine typed_act rfl fun r _ => ?_
  rcases r with _ | _ | ip
  · exact idle_mk []
  · exact idle_mk []
  · refine typed_act trivial fun _ _ => ?_
    refine typed_then (iput_follows List.mem_cons_self fun hmem => ?_) ?_
    · cases hmem
    · rintro _ _ rfl
      refine typed_act rfl fun _ _ => ?_
      exact ends_ret [] (by simp [discipline, TypeState.next])

theorem advance_follows {fd r : Nat} : Follows strict (advance fd r) (fun _ t' => t' = t) t := by
  unfold advance
  split
  · exact ⟨trivial, fun _ _ => rfl⟩
  · exact rfl

theorem fileread_ends {fd n : Nat} {f : File} {via : List Nat}
    (hf : f.kind = .inode → f.ip ∈ via) :
    Ends strict (fileread fd f n) ⟨false, [], [], via, false, none⟩ := by
  unfold fileread
  split
  · exact idle_mk via
  · cases hkind : f.kind with
    | none => exact follows_panic _ rfl
    | inode =>
        refine typed_act (.inr (hf hkind)) fun _ _ => ?_
        refine typed_act trivial fun off _ => ?_
        refine typed_act List.mem_cons_self fun r _ => ?_
        cases r with
        | none =>
            refine typed_act List.mem_cons_self fun _ _ => ?_
            exact ends_ret via (by simp [discipline, TypeState.next])
        | some bytes =>
            refine typed_then advance_follows ?_
            rintro _ _ rfl
            refine typed_act List.mem_cons_self fun _ _ => ?_
            exact ends_ret via (by simp [discipline, TypeState.next])

theorem writeChunk_follows {fd ip : Nat} {src : List UInt8} {via : List Nat} (hip : ip ∈ via) :
    Follows strict (writeChunk fd ip src) (fun _ t' => t' = ⟨false, [], [], via, false, none⟩)
      ⟨false, [], [], via, false, none⟩ := by
  refine typed_act trivial fun _ _ => ?_
  refine typed_act (.inr hip) fun _ _ => ?_
  refine typed_act trivial fun off _ => ?_
  refine typed_act ⟨List.mem_cons_self, rfl⟩ fun r _ => ?_
  refine typed_then advance_follows ?_
  rintro _ _ rfl
  refine typed_act List.mem_cons_self fun _ _ => ?_
  refine typed_act rfl fun _ _ => ?_
  simp [Typed, Pure.pure, discipline, TypeState.next]

theorem writeLoop_follows {fd ip : Nat} {via : List Nat} (hip : ip ∈ via) (fuel : Nat) :
    ∀ src, Follows strict (writeLoop fd ip fuel src)
      (fun _ t' => t' = ⟨false, [], [], via, false, none⟩) ⟨false, [], [], via, false, none⟩ := by
  induction fuel with
  | zero => exact fun _ => rfl
  | succ fuel ih =>
      intro src
      rw [writeLoop]
      split
      · exact rfl
      · refine typed_then (writeChunk_follows hip) ?_
        rintro r _ rfl
        split
        · exact rfl
        · split
          · exact follows_panic _ rfl
          · exact ih _

theorem filewrite_ends {fd : Nat} {f : File} {src : List UInt8} {via : List Nat}
    (hf : f.kind = .inode → f.ip ∈ via) :
    Ends strict (filewrite fd f src) ⟨false, [], [], via, false, none⟩ := by
  unfold filewrite
  split
  · exact idle_mk via
  · cases hkind : f.kind with
    | none => exact follows_panic _ rfl
    | inode =>
        refine typed_then (writeLoop_follows (hf hkind) _ _) ?_
        rintro r _ rfl
        cases r <;> exact idle_mk via

theorem sysRead_ends {fd : Nat} {n : Option Nat} (h : t.Idle) : Ends strict (sysRead fd n) t := by
  refine Idle.cases h fun via => ?_
  refine typed_act rfl fun r _ => ?_
  cases r with
  | none => exact idle_mk via
  | some f =>
      cases n with
      | none => exact idle_mk _
      | some n => exact fileread_ends fun hkind => by simp [hkind]

theorem sysWrite_ends {fd : Nat} {src : Option (List UInt8)} (h : t.Idle) :
    Ends strict (sysWrite fd src) t := by
  refine Idle.cases h fun via => ?_
  refine typed_act rfl fun r _ => ?_
  cases r with
  | none => exact idle_mk via
  | some f =>
      cases src with
      | none => exact idle_mk _
      | some src => exact filewrite_ends fun hkind => by simp [hkind]

/-! ## Links -/

theorem linkBad_ends {ip : Nat} {via : List Nat} :
    Ends strict (linkBad ip) ⟨true, [], [ip], via, false, none⟩ := by
  refine typed_act (.inl List.mem_cons_self) fun _ _ => ?_
  refine typed_act ⟨List.mem_cons_self, rfl⟩ fun _ _ => ?_
  refine typed_then (iunlockput_follows List.mem_cons_self List.mem_cons_self
    (List.nodup_singleton ip)) ?_
  rintro _ _ rfl
  refine typed_act rfl fun _ _ => ?_
  exact ends_ret via (by simp [discipline, TypeState.next])

/-- Two references, in either order. -/
theorem erase_second (a b : Nat) (l : List Nat) : (a :: b :: l).erase b = a :: l := by
  by_cases h : a = b
  · rw [h, List.erase_cons_head]
  · rw [List.erase_cons_tail (by simpa using h), List.erase_cons_head]

theorem sysLink_ends {old new : Option (List UInt8)} (h : t.Idle) :
    Ends strict (sysLink old new) t := by
  refine Idle.cases h fun via => ?_
  rcases old with _ | old
  · exact idle_mk via
  rcases new with _ | new
  · exact idle_mk via
  refine typed_then (namei_follows rfl rfl) ?_
  rintro (_ | ip) _ rfl
  · exact idle_mk via
  refine typed_act trivial fun _ _ => ?_
  refine typed_act (.inl List.mem_cons_self) fun _ _ => ?_
  refine typed_act List.mem_cons_self fun d _ => ?_
  split
  · refine typed_then (iunlockput_follows List.mem_cons_self List.mem_cons_self
      (List.nodup_singleton ip)) ?_
    rintro _ _ rfl
    refine typed_act rfl fun _ _ => ?_
    exact ends_ret via (by simp [discipline, TypeState.next])
  · refine typed_act ⟨List.mem_cons_self, rfl⟩ fun _ _ => ?_
    refine typed_act List.mem_cons_self fun _ _ => ?_
    rw [show (discipline strict).next _ (.iunlock ip) _ = ⟨true, [], [ip], via, false, none⟩ by
      simp [discipline, TypeState.next]]
    refine typed_then (namex_follows rfl rfl) ?_
    rintro (_ | ⟨dp, name⟩) _ rfl
    · exact linkBad_ends
    · refine typed_act (.inl List.mem_cons_self) fun _ _ => ?_
      refine typed_then (dirlink_follows List.mem_cons_self ?_ rfl) ?_
      · intro i hi
        rw [List.mem_singleton.1 hi]
        exact .inl List.mem_cons_self
      rintro r _ rfl
      have hput : Follows strict (iunlockput dp)
          (fun _ t' => t' = ⟨true, [], [ip], via, false, none⟩)
          ⟨true, [dp], [dp, ip], via, false, none⟩ := by
        refine typed_mono (iunlockput_follows List.mem_cons_self List.mem_cons_self
          (List.nodup_singleton dp)) ?_
        intro _ t' ht'
        simpa using ht'
      cases r with
      | true =>
          refine typed_then hput ?_
          rintro _ _ rfl
          refine typed_then (iput_follows List.mem_cons_self fun hmem => by cases hmem) ?_
          rintro _ _ rfl
          refine typed_act rfl fun _ _ => ?_
          exact ends_ret via (by simp [discipline, TypeState.next])
      | false =>
          refine typed_then hput ?_
          rintro _ _ rfl
          exact linkBad_ends

theorem isdiremptyLoop_follows {dp : Nat} (hdp : dp ∈ t.locks) (n : Nat) :
    ∀ off, Follows strict (isdiremptyLoop dp n off) (fun _ t' => t' = t) t := by
  induction n with
  | zero => exact fun _ => rfl
  | succ n ih =>
      intro off
      refine typed_then (readDirent_follows rfl hdp) ?_
      rintro de _ rfl
      split
      · exact rfl
      · exact ih _

theorem isdirempty_follows {dp : Nat} (hdp : dp ∈ t.locks) :
    Follows strict (isdirempty dp) (fun _ t' => t' = t) t :=
  typed_act hdp fun _ _ => isdiremptyLoop_follows hdp _ _

theorem unlinkBad_ends {dp : Nat} {via : List Nat} :
    Ends strict (unlinkBad dp) ⟨true, [dp], [dp], via, false, none⟩ := by
  refine typed_then (iunlockput_follows List.mem_cons_self List.mem_cons_self
    (List.nodup_singleton dp)) ?_
  rintro _ _ rfl
  refine typed_act rfl fun _ _ => ?_
  exact ends_ret via (by simp [discipline, TypeState.next])

/-- `iunlockput` of the parent, which was locked and referenced first. -/
theorem iunlockput_parent {dp ip : Nat} {refs via : List Nat} {lent : Bool}
    {child : Option (Nat × Nat)} (hne : ip ≠ dp) :
    Follows strict (iunlockput dp) (fun _ t' => t' = ⟨true, [ip], ip :: refs, via, lent, child⟩)
      ⟨true, [ip, dp], ip :: dp :: refs, via, lent, child⟩ := by
  refine typed_mono (iunlockput_follows (by simp) (by simp) (by simp [hne])) ?_
  rintro _ _ rfl
  simp [erase_second]

/-- `iunlockput` of the child, locked and referenced last. -/
theorem iunlockput_child {dp ip : Nat} {refs via : List Nat} {lent : Bool}
    {child : Option (Nat × Nat)} (hne : ip ≠ dp) :
    Follows strict (iunlockput ip) (fun _ t' => t' = ⟨true, [dp], dp :: refs, via, lent, child⟩)
      ⟨true, [ip, dp], ip :: dp :: refs, via, lent, child⟩ := by
  refine typed_mono (iunlockput_follows (by simp) (by simp) (by simp [hne])) ?_
  rintro _ _ rfl
  simp

theorem unlinkParent_follows {dp : Nat} {type : InodeType} (hdp : dp ∈ t.locks)
    (htrans : t.trans = true) : Follows strict (unlinkParent dp type) (fun _ t' => t' = t) t := by
  unfold unlinkParent
  split
  · exact ⟨⟨hdp, htrans⟩, fun _ _ => rfl⟩
  · exact rfl

theorem unlinkEntry_ends {dp ip off : Nat} {type : InodeType} {via : List Nat} (hne : ip ≠ dp) :
    Ends strict (unlinkEntry dp ip off type) ⟨true, [ip, dp], [ip, dp], via, false, none⟩ := by
  have hdp : dp ∈ [ip, dp] := by simp
  refine typed_act ⟨hdp, rfl⟩ fun r _ => ?_
  split
  · exact follows_panic _ rfl
  · refine typed_then (unlinkParent_follows hdp rfl) ?_
    rintro _ _ rfl
    refine typed_then (iunlockput_parent hne) ?_
    rintro _ _ rfl
    refine typed_act ⟨List.mem_cons_self, rfl⟩ fun _ _ => ?_
    refine typed_then (iunlockput_follows List.mem_cons_self List.mem_cons_self
      (List.nodup_singleton ip)) ?_
    rintro _ _ rfl
    refine typed_act rfl fun _ _ => ?_
    exact ends_ret via (by simp [discipline, TypeState.next])

theorem unlinkInode_ends {dp ip off : Nat} {via : List Nat} :
    Ends strict (unlinkInode dp ip off) ⟨true, [dp], [ip, dp], via, false, none⟩ := by
  refine typed_act (.inl List.mem_cons_self) fun _ hfits => ?_
  have hne : ip ≠ dp := by simpa [discipline, TypeState.fits] using hfits
  refine typed_act List.mem_cons_self fun d _ => ?_
  split
  · exact follows_panic _ rfl
  · split
    · refine typed_then (isdirempty_follows List.mem_cons_self) ?_
      rintro r _ rfl
      cases r with
      | true => exact unlinkEntry_ends hne
      | false =>
          refine typed_then (iunlockput_child hne) ?_
          rintro _ _ rfl
          exact unlinkBad_ends
    · exact unlinkEntry_ends hne

theorem sysUnlink_ends {path : Option (List UInt8)} (h : t.Idle) :
    Ends strict (sysUnlink path) t := by
  refine Idle.cases h fun via => ?_
  rcases path with _ | path
  · exact idle_mk via
  refine typed_then (namex_follows rfl rfl) ?_
  rintro (_ | ⟨dp, name⟩) _ rfl
  · exact idle_mk via
  refine typed_act trivial fun _ _ => ?_
  refine typed_act (.inl List.mem_cons_self) fun _ _ => ?_
  split
  · exact unlinkBad_ends
  · refine typed_then (dirlookup_follows List.mem_cons_self) ?_
    rintro (_ | ⟨ip, off⟩) _ rfl
    · exact unlinkBad_ends
    · exact unlinkInode_ends

/-! ## Creating -/

/-- What `create` leaves: its inode, locked. -/
def Created (via : List Nat) (r : Option Nat) (t' : TypeState) : Prop :=
  match r with
  | none => t' = ⟨true, [], [], via, false, none⟩
  | some ip => t' = ⟨true, [ip], [ip], via, false, none⟩

theorem createExisting_follows {ip : Nat} {type : InodeType} {via : List Nat} :
    Follows strict (createExisting ip type) (Created via) ⟨true, [], [ip], via, false, none⟩ := by
  refine typed_act (.inl List.mem_cons_self) fun _ _ => ?_
  refine typed_act List.mem_cons_self fun d _ => ?_
  split
  · exact rfl
  · refine typed_then (iunlockput_follows List.mem_cons_self List.mem_cons_self
      (List.nodup_singleton ip)) ?_
    rintro _ _ rfl
    simp [Typed, Pure.pure, Created, discipline, TypeState.next]

theorem covered_two {dp ip : Nat} {via : List Nat} :
    Covered ⟨true, [ip, dp], [ip, dp], via, false, none⟩ := fun _ hi => .inl hi

theorem createDots_follows {dp ip : Nat} {via : List Nat} :
    Follows strict (createDots dp ip)
      (fun _ t' => t' = ⟨true, [ip, dp], [ip, dp], via, false, none⟩)
      ⟨true, [ip, dp], [ip, dp], via, false, none⟩ := by
  have hdp : dp ∈ [ip, dp] := by simp
  refine typed_act ⟨hdp, rfl⟩ fun _ _ => ?_
  refine typed_then (dirlink_follows List.mem_cons_self covered_two rfl) ?_
  rintro r _ rfl
  cases r with
  | false => exact follows_panic _ rfl
  | true =>
      refine typed_then (dirlink_follows List.mem_cons_self covered_two rfl) ?_
      rintro r _ rfl
      cases r with
      | false => exact follows_panic _ rfl
      | true => exact rfl

theorem createEntry_follows {dp ip : Nat} {name : List UInt8} {via : List Nat} (hne : ip ≠ dp) :
    Follows strict (createEntry dp ip name) (Created via)
      ⟨true, [ip, dp], [ip, dp], via, false, none⟩ := by
  have hdp : dp ∈ [ip, dp] := by simp
  refine typed_then (dirlink_follows hdp covered_two rfl) ?_
  rintro r _ rfl
  cases r with
  | false => exact follows_panic _ rfl
  | true =>
      refine typed_then (iunlockput_parent hne) ?_
      rintro _ _ rfl
      exact rfl

theorem createNew_follows {dp : Nat} {name : List UInt8} {type : InodeType} {major minor : Int}
    {via : List Nat} :
    Follows strict (createNew dp name type major minor) (Created via)
      ⟨true, [dp], [dp], via, false, none⟩ := by
  refine typed_act rfl fun ip _ => ?_
  refine typed_act (.inl List.mem_cons_self) fun _ hfits => ?_
  have hne : ip ≠ dp := by simpa [discipline, TypeState.fits, TypeState.next] using hfits
  refine typed_act ⟨List.mem_cons_self, rfl⟩ fun _ _ => ?_
  split
  · refine typed_then createDots_follows ?_
    rintro _ _ rfl
    exact createEntry_follows hne
  · exact createEntry_follows hne

theorem create_follows {path : List UInt8} {type : InodeType} {major minor : Int}
    {via : List Nat} :
    Follows strict (create path type major minor) (Created via)
      ⟨true, [], [], via, false, none⟩ := by
  refine typed_then (namex_follows rfl rfl) ?_
  rintro (_ | ⟨dp, name⟩) _ rfl
  · exact rfl
  refine typed_act (.inl List.mem_cons_self) fun _ _ => ?_
  refine typed_then (dirlookup_follows List.mem_cons_self) ?_
  rintro (_ | ⟨ip, off⟩) _ rfl
  · exact createNew_follows
  · refine typed_then (iunlockput_follows (by simp [discipline, TypeState.next])
      List.mem_cons_self (List.nodup_singleton dp)) ?_
    rintro _ _ rfl
    rw [show ({ (discipline strict).next ⟨true, [], [dp], via, false, none⟩ (.ilock dp) () with
        locks := _
        refs := _ } : TypeState) = ⟨true, [], [ip], via, false, none⟩ by
      simp [discipline, TypeState.next, erase_second]]
    exact createExisting_follows

theorem openFile_ends {ip omode : Nat} {via : List Nat} :
    Ends strict (openFile ip omode) ⟨false, [ip], [ip], via, false, none⟩ := by
  refine typed_act List.mem_cons_self fun r _ => ?_
  cases r with
  | none =>
      refine typed_then (iunlockput_follows List.mem_cons_self List.mem_cons_self
        (List.nodup_singleton ip)) ?_
      rintro _ _ rfl
      exact ends_ret via (by simp [discipline, TypeState.next])
  | some fd =>
      refine typed_act List.mem_cons_self fun _ _ => ?_
      exact ends_ret (ip :: via) (by simp [discipline, TypeState.next])

theorem sysOpen_ends {path : Option (List UInt8)} {omode : Nat} (h : t.Idle) :
    Ends strict (sysOpen path omode) t := by
  refine Idle.cases h fun via => ?_
  rcases path with _ | path
  · exact idle_mk via
  unfold sysOpen
  dsimp only
  split
  · refine typed_act trivial fun _ _ => ?_
    refine typed_then create_follows ?_
    rintro (_ | ip) _ rfl
    · refine typed_act rfl fun _ _ => ?_
      exact idle_mk via
    · refine typed_act rfl fun _ _ => ?_
      exact openFile_ends
  · refine typed_then (namei_follows rfl rfl) ?_
    rintro (_ | ip) _ rfl
    · exact idle_mk via
    refine typed_act (.inl List.mem_cons_self) fun _ _ => ?_
    refine typed_act List.mem_cons_self fun d _ => ?_
    split
    · refine typed_then (iunlockput_follows List.mem_cons_self List.mem_cons_self
        (List.nodup_singleton ip)) ?_
      rintro _ _ rfl
      exact ends_ret via (by simp [discipline, TypeState.next])
    · exact openFile_ends

theorem mkInode_ends {path : Option (List UInt8)} {type : InodeType} {major minor : Int}
    (h : t.Idle) : Ends strict (mkInode path type major minor) t := by
  refine Idle.cases h fun via => ?_
  refine typed_act trivial fun _ _ => ?_
  rcases path with _ | path
  · refine typed_act rfl fun _ _ => ?_
    exact idle_mk via
  refine typed_then create_follows ?_
  rintro (_ | ip) _ rfl
  · refine typed_act rfl fun _ _ => ?_
    exact idle_mk via
  · refine typed_then (iunlockput_follows List.mem_cons_self List.mem_cons_self
      (List.nodup_singleton ip)) ?_
    rintro _ _ rfl
    refine typed_act rfl fun _ _ => ?_
    exact ends_ret via (by simp [discipline, TypeState.next])

/-! ## Processes -/

theorem sysChdir_ends {path : Option (List UInt8)} (h : t.Idle) :
    Ends strict (sysChdir path) t := by
  refine Idle.cases h fun via => ?_
  rcases path with _ | path
  · exact idle_mk via
  refine typed_then (namei_follows rfl rfl) ?_
  rintro (_ | ip) _ rfl
  · exact idle_mk via
  refine typed_act (.inl List.mem_cons_self) fun _ _ => ?_
  refine typed_act List.mem_cons_self fun d _ => ?_
  split
  · refine typed_then (iunlockput_follows List.mem_cons_self List.mem_cons_self
      (List.nodup_singleton ip)) ?_
    rintro _ _ rfl
    exact ends_ret via (by simp [discipline, TypeState.next])
  · refine typed_act List.mem_cons_self fun _ _ => ?_
    refine typed_act rfl fun old _ => ?_
    refine typed_then (iput_follows List.mem_cons_self fun hmem => ?_) ?_
    · simp [discipline, TypeState.next] at hmem
    rintro _ _ rfl
    refine typed_act ⟨rfl, ?_, ?_⟩ fun _ _ => ?_
    · simp [discipline, TypeState.next]
    · simp [discipline, TypeState.next]
    · exact ends_ret via (by simp [discipline, TypeState.next])

theorem exec_ends {path : Option (List UInt8)} {reads : List (Nat × Nat)} (h : t.Idle) :
    Ends strict (exec path reads) t := by
  refine Idle.cases h fun via => ?_
  rcases path with _ | path
  · exact idle_mk via
  refine typed_then (namei_follows rfl rfl) ?_
  rintro (_ | ip) _ rfl
  · exact idle_mk via
  refine typed_act (.inl List.mem_cons_self) fun _ _ => ?_
  refine typed_then (P := fun _ t' => t' = ⟨false, [ip], [ip], via, false, none⟩) ?_ ?_
  · refine typed_forEach
      (I := fun t' : TypeState => t' = ⟨false, [ip], [ip], via, false, none⟩) reads rfl ?_
    rintro ⟨off, n⟩ _ _ rfl
    exact typed_act List.mem_cons_self fun _ _ => rfl
  rintro _ _ rfl
  refine typed_then (iunlockput_follows List.mem_cons_self List.mem_cons_self
    (List.nodup_singleton ip)) ?_
  rintro _ _ rfl
  exact ends_ret via (by simp)

theorem forkFds_follows {c : Nat} {via : List Nat} (n : Nat) :
    ∀ fd, fd + n = NOFILE → Follows strict (forkFds c n fd)
      (fun _ t' => t' = ⟨false, [], [], via, false, some (c, NOFILE)⟩)
      ⟨false, [], [], via, false, some (c, fd)⟩ := by
  induction n with
  | zero =>
      intro fd hfd
      obtain rfl : fd = NOFILE := by omega
      exact rfl
  | succ n ih =>
      intro fd hfd
      refine typed_act ⟨rfl, by omega⟩ fun _ _ => ?_
      exact ih (fd + 1) (by omega)

theorem fork_ends {memory : Bool} (h : t.Idle) : Ends strict (fork memory) t := by
  refine Idle.cases h fun via => ?_
  refine typed_act rfl fun r _ => ?_
  rcases r with _ | c
  · exact idle_mk via
  dsimp only
  split
  · refine typed_then (forkFds_follows NOFILE 0 rfl) ?_
    rintro _ _ rfl
    refine typed_act ⟨rfl, rfl⟩ fun _ _ => ?_
    refine typed_act ⟨⟨NOFILE + 1, rfl⟩, .inr rfl⟩ fun _ _ => ?_
    exact idle_mk via
  · refine typed_act ⟨⟨0, rfl⟩, .inl ⟨rfl, rfl⟩⟩ fun _ _ => ?_
    exact idle_mk via

theorem exit_ends (h : t.Idle) : Ends strict exit t := by
  refine Idle.cases h fun via => ?_
  refine typed_act trivial fun _ _ => ?_
  refine typed_then (P := fun _ t' => t'.Idle) ?_ ?_
  · refine typed_forEach (I := TypeState.Idle) _ (idle_mk via) ?_
    intro fd t' _ hidle
    exact typed_then (fileclose_ends hidle) fun _ _ h => h
  intro _ t' hidle
  refine Idle.cases hidle fun via => ?_
  refine typed_act rfl fun old _ => ?_
  refine typed_then (iput_follows List.mem_cons_self fun hmem => by cases hmem) ?_
  rintro _ _ rfl
  refine typed_act rfl fun _ _ => ?_
  rw [show (discipline strict).next _ (.setCwd none) _ = ⟨false, [], [], via, false, none⟩ by
    simp [discipline, TypeState.next]]
  exact typed_act (idle_mk via) fun _ _ => idle_mk via

end Sys

/-- **Every call follows the discipline**, from holding nothing to holding
nothing. -/
theorem Call.ends (c : Call) {strict : Bool} {t : TypeState} (h : t.Idle) :
    Sys.Ends strict c.prog t := by
  cases c with
  | «open» path omode => exact Sys.sysOpen_ends h
  | read fd n => exact Sys.sysRead_ends h
  | write fd src => exact Sys.sysWrite_ends h
  | close fd => exact Sys.fileclose_ends h
  | link old new => exact Sys.sysLink_ends h
  | unlink path => exact Sys.sysUnlink_ends h
  | mkdir path => exact Sys.mkInode_ends h
  | mknod path major minor => exact Sys.mkInode_ends h
  | chdir path => exact Sys.sysChdir_ends h
  | exec path reads => exact Sys.exec_ends h
  | fork memory => exact Sys.fork_ends h
  | exit => exact Sys.exit_ends h

end Xv6.Kernel
