import Mathlib.Data.List.Induction
import Mathlib.Data.List.Nodup
import Xv6.Kernel.Log

/-!
# Crash atomicity of the redo log

A run of one transaction issues a list of sector writes; a crash keeps a prefix
of it, and `recover_from_log` then runs on what survived, possibly crashing
itself any number of times.  The argument has two disk predicates.  `Quiet T`:
the header counts no sector and the disk agrees with `T` outside the log
region.  `Pending L T`: the header lists `L`, the log slots hold `T`'s contents
for `L`, and the disk agrees with `T` everywhere else.  Recovery keeps
`Recoverable T`, their union, at every one of its own writes and ends in
`Quiet T`; each crash point of the transaction is `Quiet` for the old disk or
`Recoverable` for the new one, and the header write is what separates the two.
-/

namespace Xv6.Kernel

namespace LogDisk

open Xv6.Verified
open Xv6.Verified.CrashTrace
open Exec

/-! ## The writes each function issues -/

/-- The writes of `install_trans`: each listed sector gets its slot's data. -/
def installWrites (d : Nat → Block) (start : Nat) (lh : List Nat) : List (Nat × Block) :=
  (List.range lh.length).map fun t => (lh.getD t 0, d (start + t + 1))

/-- None of the listed sectors lies in the log region. -/
def Outside (l : Log) (lh : List Nat) : Prop := ∀ x ∈ lh, ¬l.Region x

private theorem getD_mem (lh : List Nat) {t : Nat} (h : t < lh.length) :
    lh.getD t 0 ∈ lh := by
  rw [List.getD_eq_getElem?_getD, List.getElem?_eq_getElem h, Option.getD_some]
  exact List.getElem_mem h

/-- `install_trans` always returns, having issued exactly `installWrites`. -/
theorem installTrans_run (s : LogDisk) (hout : Outside s.log s.log.lh)
    (hlen : s.log.lh.length + 1 ≤ s.log.size) :
    installTrans.run s = .ok ()
      { s with
        disk := applyWrites s.disk (installWrites s.disk s.log.start s.log.lh)
        writes := s.writes ++ installWrites s.disk s.log.start s.log.lh } := by
  -- the loop invariant: after `i` rounds the first `i` installs have been issued
  let upTo (i : Nat) : List (Nat × Block) :=
    (List.range i).map fun t => (s.log.lh.getD t 0, s.disk (s.log.start + t + 1))
  have hloop : ∀ i, i ≤ s.log.lh.length →
      (loopTo (fun tail => do
        let lbuf ← bread (s.log.start + tail + 1)
        bwrite (s.log.lh.getD tail 0) lbuf) i).run s =
      .ok () { s with
        disk := applyWrites s.disk (upTo i)
        writes := s.writes ++ upTo i } := by
    intro i
    induction i with
    | zero => intro _; simp [loopTo, upTo]
    | succ i ih =>
        intro hi
        rw [loopTo, run_bind_ok (ih (by omega))]
        have hslot : applyWrites s.disk (upTo i) (s.log.start + i + 1) =
            s.disk (s.log.start + i + 1) := by
          refine applyWrites_of_notMem fun w hw heq => ?_
          obtain ⟨t, ht, rfl⟩ := List.mem_map.1 hw
          have hmem := getD_mem s.log.lh (t := t) (by
            have := List.mem_range.1 ht
            omega)
          exact hout _ hmem ⟨by omega, by omega⟩
        have hnext : upTo (i + 1) =
            upTo i ++ [(s.log.lh.getD i 0, s.disk (s.log.start + i + 1))] := by
          simp [upTo, List.range_succ]
        simp only [bread, bwrite, run_bind, run_get, run_pure, run_modify, hslot,
          hnext, applyWrites_append, applyWrites_cons, applyWrites_nil,
          List.append_assoc]
  simpa [installTrans, installWrites, upTo] using hloop s.log.lh.length (Nat.le_refl _)

/-- The writes of `recover_from_log` on a disk. -/
def recoverWrites (l : Log) (d : Nat → Block) : List (Nat × Block) :=
  installWrites d l.start (headSectors (d l.start)) ++
    [(l.start, setHead (d l.start) [])]

/-- The machine after a reboot: an empty in-memory log over the disk the crash
left. -/
def boot (l : Log) (d : Nat → Block) : LogDisk :=
  ⟨d, { l with lh := [], busy := none }, []⟩

private theorem installWrites_off_log {l : Log} {d : Nat → Block} {lh : List Nat}
    (hout : Outside l lh) : ∀ w ∈ installWrites d l.start lh, ¬l.Region w.1 := by
  intro w hw
  obtain ⟨t, ht, rfl⟩ := List.mem_map.1 hw
  exact hout _ (getD_mem _ (List.mem_range.1 ht))

/-- Installing leaves every sector of the log region alone. -/
theorem applyWrites_installWrites_log {l : Log} {d d' : Nat → Block} {lh : List Nat}
    (hout : Outside l lh) {x : Nat} (hx : l.Region x) :
    applyWrites d' (installWrites d l.start lh) x = d' x :=
  applyWrites_of_notMem fun w hw heq =>
    installWrites_off_log hout w hw (heq ▸ hx)

/-- `recover_from_log` always returns, having issued exactly `recoverWrites`. -/
theorem recoverFromLog_run (l : Log) (d : Nat → Block)
    (hout : Outside l (headSectors (d l.start)))
    (hlen : (headSectors (d l.start)).length + 1 ≤ l.size) :
    ∃ s, recoverFromLog.run (boot l d) = .ok () s ∧
      s.disk = applyWrites d (recoverWrites l d) ∧ s.writes = recoverWrites l d := by
  let s₁ : LogDisk :=
    ⟨d, { l with lh := headSectors (d l.start), busy := none }, []⟩
  have hread : readHead.run (boot l d) = .ok () s₁ := by
    simp [readHead, bread, boot, s₁, run_bind]
  have hinst := installTrans_run s₁ hout hlen
  have hhead : applyWrites d (installWrites d l.start (headSectors (d l.start))) l.start
      = d l.start :=
    applyWrites_installWrites_log hout ⟨Nat.le_refl _, by omega⟩
  refine ⟨_, by rw [recoverFromLog, run_bind_ok hread, run_bind_ok hinst]; rfl, ?_, ?_⟩
  · simp only [s₁, recoverWrites, applyWrites_append, applyWrites_cons, applyWrites_nil, hhead]
  · simp only [s₁, recoverWrites, List.nil_append, hhead]

/-! ## What recovery keeps -/

/-- No committed transaction, and the disk is `T` outside the log. -/
def Quiet (l : Log) (T d : Nat → Block) : Prop :=
  headCount (d l.start) = 0 ∧ ∀ x, ¬l.Region x → d x = T x

/-- A committed transaction over the sectors `L`, installed or not. -/
structure Pending (l : Log) (L : List Nat) (T d : Nat → Block) : Prop where
  outside : Outside l L
  room : L.length + 1 ≤ l.size
  head : headSectors (d l.start) = L
  slots : ∀ t, t < L.length → d (l.start + t + 1) = T (L.getD t 0)
  rest : ∀ x, ¬l.Region x → x ∉ L → d x = T x

/-- The disks from which recovery reaches `T`. -/
def Recoverable (l : Log) (T d : Nat → Block) : Prop :=
  Quiet l T d ∨ ∃ L, Pending l L T d

private theorem headCount_cleared (b : Block) : headCount (setHead b []) = 0 :=
  headCount_setHead b (by simp)

/-- Clearing the header of a disk that agrees with `T` makes it quiet. -/
private theorem quiet_of_clear {l : Log} {T d : Nat → Block} {b : Block} (hsize : 0 < l.size)
    (h : ∀ x, ¬l.Region x → d x = T x) :
    Quiet l T (Function.update d l.start (setHead b [])) := by
  refine ⟨by simp [headCount_cleared], fun x hx => ?_⟩
  rw [Function.update_of_ne (fun heq => hx ⟨by omega, by omega⟩)]
  exact h x hx

/-- One install keeps a pending transaction pending. -/
theorem Pending.install {l : Log} {L : List Nat} {T d : Nat → Block}
    (h : Pending l L T d) {t : Nat} (ht : t < L.length) :
    Pending l L T (Function.update d (L.getD t 0) (T (L.getD t 0))) := by
  have hne : ∀ x, l.Region x → x ≠ L.getD t 0 := fun x hx heq =>
    h.outside _ (getD_mem _ ht) (heq ▸ hx)
  have hroom := h.room
  refine { h with head := ?_, slots := ?_, rest := ?_ }
  · rw [Function.update_of_ne (hne _ ⟨Nat.le_refl _, by omega⟩)]
    exact h.head
  · intro i hi
    rw [Function.update_of_ne (hne _ ⟨by omega, by omega⟩)]
    exact h.slots i hi
  · intro x hx hxL
    have hxt : x ≠ L.getD t 0 := fun heq => hxL (heq ▸ getD_mem _ ht)
    rw [Function.update_of_ne hxt]
    exact h.rest x hx hxL

private theorem Pending.installWrites_eq {l : Log} {L : List Nat} {T d : Nat → Block}
    (h : Pending l L T d) :
    installWrites d l.start L = (List.range L.length).map fun t => (L.getD t 0, T (L.getD t 0)) :=
  List.map_congr_left fun t ht => by rw [h.slots t (List.mem_range.1 ht)]

/-- A pending transaction stays pending at every crash point of its
installation. -/
theorem Pending.installs {l : Log} {L : List Nat} {T d : Nat → Block}
    (h : Pending l L T d) :
    AtEveryCrash (Pending l L T) d (installWrites d l.start L) := by
  rw [h.installWrites_eq]
  refine .of_step h fun w hw d' h' => ?_
  obtain ⟨t, ht, rfl⟩ := List.mem_map.1 hw
  exact h'.install (List.mem_range.1 ht)

/-- Writing the final contents of some sectors, in any order, leaves them there. -/
private theorem applyWrites_final {d T : Nat → Block} (xs : List Nat) {x : Nat}
    (h : x ∈ xs ∨ d x = T x) :
    applyWrites d (xs.map fun y => (y, T y)) x = T x := by
  induction xs generalizing d with
  | nil => simpa using h
  | cons y ys ih =>
      rw [List.map_cons, applyWrites_cons]
      refine ih ?_
      by_cases hxy : x = y
      · exact .inr (by simp [hxy])
      · rw [Function.update_of_ne hxy]
        exact h.imp_left fun hm => (List.mem_cons.1 hm).resolve_left hxy

/-- After the last install the disk agrees with `T` outside the log. -/
theorem Pending.installed {l : Log} {L : List Nat} {T d : Nat → Block}
    (h : Pending l L T d) {x : Nat} (hx : ¬l.Region x) :
    applyWrites d (installWrites d l.start L) x = T x := by
  have hL : (List.range L.length).map (fun t => (L.getD t 0, T (L.getD t 0))) =
      L.map fun y => (y, T y) := by
    refine List.ext_getElem (by simp) fun i hi hi' => ?_
    have hiL : i < L.length := by simpa using hi'
    simp [List.getElem?_eq_getElem hiL]
  rw [h.installWrites_eq, hL]
  refine applyWrites_final L ?_
  by_cases hxL : x ∈ L
  · exact .inl hxL
  · exact .inr (h.rest x hx hxL)

/-- Installing a pending transaction and clearing its header, which is both the
end of `commit_trans` and the body of `recover_from_log`. -/
theorem Pending.finish {l : Log} {L : List Nat} {T d : Nat → Block} {b : Block}
    (h : Pending l L T d) :
    AtEveryCrash (Recoverable l T) d
        (installWrites d l.start L ++ [(l.start, setHead b [])]) ∧
      Quiet l T (applyWrites d (installWrites d l.start L ++ [(l.start, setHead b [])])) := by
  have hsize : 0 < l.size := by
    have := h.room
    omega
  have hquiet : Quiet l T
      (Function.update (applyWrites d (installWrites d l.start L)) l.start (setHead b [])) :=
    quiet_of_clear hsize fun x hx => h.installed hx
  constructor
  · refine .append (h.installs.mono fun d' h' => .inr ⟨L, h'⟩) ?_
    exact .cons (.inr ⟨L, h.installs.last⟩) (.nil (.inl hquiet))
  · rw [applyWrites_append]
    exact hquiet

/-- **Recovery keeps its goal.**  From a recoverable disk every crash point of
`recover_from_log` is recoverable to the same contents, and its last write
leaves the log quiet. -/
theorem Recoverable.recover {l : Log} {T d : Nat → Block} (hsize : 0 < l.size)
    (h : Recoverable l T d) :
    AtEveryCrash (Recoverable l T) d (recoverWrites l d) ∧
      Quiet l T (applyWrites d (recoverWrites l d)) := by
  rcases h with hq | ⟨L, hp⟩
  · have hnil : headSectors (d l.start) = [] := headSectors_of_count hq.1
    have hquiet := quiet_of_clear (b := d l.start) hsize hq.2
    rw [recoverWrites, hnil]
    exact ⟨.cons (.inl hq) (.nil (.inl hquiet)), hquiet⟩
  · rw [recoverWrites, hp.head]
    exact hp.finish

/-- `recover_from_log` runs to completion from every recoverable disk. -/
theorem Recoverable.run {l : Log} {T d : Nat → Block} (hsize : 0 < l.size)
    (h : Recoverable l T d) :
    ∃ s, recoverFromLog.run (boot l d) = .ok () s ∧
      s.disk = applyWrites d (recoverWrites l d) ∧ s.writes = recoverWrites l d := by
  rcases h with hq | ⟨L, hp⟩
  · have hnil : headSectors (d l.start) = [] := headSectors_of_count hq.1
    exact recoverFromLog_run l d (by simp [hnil, Outside]) (by simp [hnil]; omega)
  · exact recoverFromLog_run l d (by rw [hp.head]; exact hp.outside)
      (by rw [hp.head]; exact hp.room)

/-- The writes a run of `recover_from_log` after a reboot issues. -/
def recoveryTrace (l : Log) (d : Nat → Block) : List (Nat × Block) :=
  match recoverFromLog.run (boot l d) with
  | .ok _ s => s.writes
  | .fail _ s => s.writes

/-- The disk after recovery has been started once for each entry of `js` and
has crashed each time, after that many of its writes. -/
def afterCrashes (l : Log) (d : Nat → Block) : List Nat → Nat → Block
  | [] => d
  | j :: js => afterCrashes l (applyWrites d ((recoveryTrace l d).take j)) js

theorem Recoverable.recoveryTrace_eq {l : Log} {T d : Nat → Block} (hsize : 0 < l.size)
    (h : Recoverable l T d) : recoveryTrace l d = recoverWrites l d := by
  obtain ⟨s, hrun, -, hw⟩ := h.run hsize
  rw [recoveryTrace, hrun]
  exact hw

theorem Recoverable.afterCrashes {l : Log} {T d : Nat → Block} (hsize : 0 < l.size)
    (h : Recoverable l T d) (js : List Nat) : Recoverable l T (afterCrashes l d js) := by
  induction js generalizing d with
  | nil => exact h
  | cons j js ih =>
      rw [LogDisk.afterCrashes, h.recoveryTrace_eq hsize]
      exact ih ((h.recover hsize).1 j)

/-- However often it is interrupted, recovery ends with `T` outside the log and
a header that counts zero. -/
theorem Recoverable.settles {l : Log} {T d : Nat → Block} (hsize : 0 < l.size)
    (h : Recoverable l T d) (js : List Nat) :
    ∃ s, recoverFromLog.run (boot l (LogDisk.afterCrashes l d js)) = .ok () s ∧
      (s.disk l.start).word 0 = 0 ∧ ∀ x, ¬l.Region x → s.disk x = T x := by
  have hr := h.afterCrashes hsize js
  obtain ⟨s, hrun, hdisk, -⟩ := hr.run hsize
  refine ⟨s, hrun, ?_, ?_⟩
  · rw [hdisk, recoverWrites, applyWrites_append, applyWrites_cons, applyWrites_nil,
      Function.update_self, setHead, setSectors, Block.word_setWord_self]
    rfl
  · rw [hdisk]
    exact (hr.recover hsize).2.2

/-! ## The logging phase -/

/-- The data last logged for sector `x`. -/
def lastLogged (bs : List Buf) (x : Nat) : Option Block :=
  bs.foldl (fun acc b => if b.sector = x then some b.data else acc) none

theorem lastLogged_append (bs : List Buf) (b : Buf) (x : Nat) :
    lastLogged (bs ++ [b]) x = if b.sector = x then some b.data else lastLogged bs x := by
  simp [lastLogged]

/-- A sector none of the buffers names has no logged data. -/
theorem lastLogged_eq_none {bs : List Buf} {x : Nat} (h : ∀ b ∈ bs, b.sector ≠ x) :
    lastLogged bs x = none := by
  induction bs using List.reverseRecOn with
  | nil => rfl
  | append_singleton bs b ih =>
      rw [lastLogged_append, if_neg (h b (by simp))]
      exact ih fun c hc => h c (by simp [hc])

/-- The contents a committed transaction leaves outside the log. -/
def committed (d : Nat → Block) (bs : List Buf) (x : Nat) : Block :=
  (lastLogged bs x).getD (d x)

/-- The machine while a transaction is logging: `bs` has been logged over the
disk `d`, only slots of the log have been written, and each slot holds the last
data logged for its sector. -/
structure Logging (l : Log) (d : Nat → Block) (bs : List Buf) (s : LogDisk) : Prop where
  start : s.log.start = l.start
  size : s.log.size = l.size
  busy : s.log.busy.isSome
  disk : s.disk = applyWrites d s.writes
  writes : ∀ w ∈ s.writes, l.start < w.1 ∧ w.1 < l.start + l.size
  nodup : s.log.lh.Nodup
  logged : ∀ x, x ∈ s.log.lh ↔ ∃ b ∈ bs, b.sector = x
  room : s.log.lh.length ≤ LOGSIZE ∧ (s.log.lh ≠ [] → s.log.lh.length + 1 ≤ l.size)
  slots : ∀ t, t < s.log.lh.length →
    some (s.disk (l.start + t + 1)) = lastLogged bs (s.log.lh.getD t 0)

private theorem getD_slot_self {l : Log} {x : Nat} :
    (l.record x).lh.getD (l.slot x) 0 = x := by
  unfold Log.record Log.slot
  split
  · rename_i h
    simp [List.getElem?_eq_getElem (List.idxOf_lt_length_iff.2 h)]
  · rename_i h
    rw [List.idxOf_eq_length h]
    simp

private theorem getD_record_old {l : Log} {x t : Nat} (ht : t < l.lh.length) :
    (l.record x).lh.getD t 0 = l.lh.getD t 0 := by
  unfold Log.record
  split
  · rfl
  · simp [List.getElem?_append_left ht]

private theorem length_record {l : Log} {x : Nat} :
    (l.record x).lh.length = max l.lh.length (l.slot x + 1) := by
  unfold Log.record Log.slot
  split
  · rename_i h
    have := List.idxOf_lt_length_iff.2 h
    omega
  · rename_i h
    rw [List.idxOf_eq_length h]
    simp

private theorem getD_inj {lh : List Nat} (h : lh.Nodup) {t u : Nat} (ht : t < lh.length)
    (hu : u < lh.length) (heq : lh.getD t 0 = lh.getD u 0) : t = u := by
  rw [List.getD_eq_getElem?_getD, List.getD_eq_getElem?_getD, List.getElem?_eq_getElem ht,
    List.getElem?_eq_getElem hu] at heq
  exact (h.getElem_inj_iff).1 (by simpa using heq)

/-- One `log_write` that passes its size check extends the logging phase. -/
theorem Logging.logWrite {l : Log} {d : Nat → Block} {bs : List Buf} {s s' : LogDisk}
    (h : Logging l d bs s) (b : Buf) (hrun : (LogDisk.logWrite b).run s = .ok () s') :
    Logging l d (bs ++ [b]) s' := by
  have hfull : ¬s.log.Full := by
    intro hf
    simp [LogDisk.logWrite, hf] at hrun
  have hbusy : s.log.busy.isNone = false := by
    rw [Option.isNone_eq_false_iff]
    exact h.busy
  have hs' : s' =
      { s with
        disk := Function.update s.disk (s.log.start + s.log.slot b.sector + 1) b.data
        writes := s.writes ++ [(s.log.start + s.log.slot b.sector + 1, b.data)]
        log := s.log.record b.sector } := by
    simp only [LogDisk.logWrite, run_get_bind, if_neg hfull, hbusy] at hrun
    cases hrun
    rfl
  have hslot := Log.slot_lt (s := b.sector) hfull
  have hlen : (s.log.record b.sector).lh.length =
      max s.log.lh.length (s.log.slot b.sector + 1) := length_record
  have hnodup := Log.record_nodup b.sector h.nodup
  rw [h.size] at hslot
  have hfull' := hfull
  simp only [Log.Full, LOGSIZE, h.size] at hfull'
  subst hs'
  refine
    { start := by simp [h.start]
      size := by simp [h.size]
      busy := by simpa using h.busy
      disk := ?_
      writes := ?_
      nodup := hnodup
      logged := ?_
      room := ?_
      slots := ?_ }
  · simp only [h.disk, applyWrites_append, applyWrites_cons, applyWrites_nil]
  · intro w hw
    rcases List.mem_append.1 hw with hw | hw
    · exact h.writes w hw
    · rw [List.mem_singleton] at hw
      subst hw
      simp only [h.start]
      exact ⟨by omega, by omega⟩
  · intro x
    rw [Log.mem_record, h.logged]
    constructor
    · rintro (⟨c, hc, hcx⟩ | rfl)
      · exact ⟨c, by simp [hc], hcx⟩
      · exact ⟨b, by simp, rfl⟩
    · rintro ⟨c, hc, hcx⟩
      rcases List.mem_append.1 hc with hc | hc
      · exact .inl ⟨c, hc, hcx⟩
      · rw [List.mem_singleton] at hc
        exact .inr (by rw [← hcx, hc])
  · have hle := s.log.slot_le b.sector
    simp only [LOGSIZE]
    refine ⟨by omega, fun _ => ?_⟩
    omega
  · -- the slot just written holds the new data; every other slot is untouched
    intro t ht
    rw [lastLogged_append]
    by_cases hts : t = s.log.slot b.sector
    · subst hts
      rw [if_pos getD_slot_self.symm, h.start]
      simp
    · have htlen : t < s.log.lh.length := by
        rw [hlen] at ht
        have := s.log.slot_le b.sector
        rcases Nat.lt_or_ge t s.log.lh.length with h1 | h1 <;> omega
      have hneq : b.sector ≠ (s.log.record b.sector).lh.getD t 0 := by
        intro heq
        refine hts (getD_inj hnodup ht (by rw [hlen]; omega) ?_)
        rw [getD_slot_self, ← heq]
      have haddr : l.start + t + 1 ≠ s.log.start + s.log.slot b.sector + 1 := by
        rw [h.start]
        omega
      rw [if_neg hneq]
      simp only [Function.update_of_ne haddr, getD_record_old htlen]
      exact h.slots t htlen

/-- A whole logging phase. -/
theorem Logging.forM {l : Log} {d : Nat → Block} (bs : List Buf) :
    ∀ {hs : List Buf} {s s' : LogDisk}, Logging l d hs s →
      (bs.forM LogDisk.logWrite).run s = .ok () s' → Logging l d (hs ++ bs) s' := by
  induction bs with
  | nil =>
      intro hs s s' h hrun
      cases hrun
      simpa using h
  | cons b bs ih =>
      intro hs s s' h hrun
      obtain ⟨_, s₁, h₁, h₂⟩ := run_bind_eq_ok hrun
      have := ih (h.logWrite b h₁) h₂
      simpa using this

/-- A machine about to run a transaction. -/
theorem Logging.init (l : Log) (d : Nat → Block) (hbusy : l.busy.isSome) (hlh : l.lh = []) :
    Logging l d [] ⟨d, l, []⟩ :=
  { start := rfl
    size := rfl
    busy := hbusy
    disk := rfl
    writes := by simp
    nodup := by simp [hlh]
    logged := by simp [hlh]
    room := by simp [hlh]
    slots := by simp [hlh] }

/-! ## The whole transaction -/

/-- During logging every crash point is the old disk, log slots apart. -/
theorem Logging.quiet {l : Log} {d : Nat → Block} {bs : List Buf} {s : LogDisk}
    (h : Logging l d bs s) (h0 : headCount (d l.start) = 0) :
    AtEveryCrash (Quiet l d) d s.writes := by
  refine .of_step ⟨h0, fun _ _ => rfl⟩ fun w hw d' hd' => ?_
  obtain ⟨hlo, hhi⟩ := h.writes w hw
  refine ⟨?_, fun x hx => ?_⟩
  · rw [Function.update_of_ne (by omega)]
    exact hd'.1
  · rw [Function.update_of_ne fun heq => hx ⟨by omega, by omega⟩]
    exact hd'.2 x hx

/-- Once the header is on the disk the transaction is pending. -/
theorem Logging.pending {l : Log} {d : Nat → Block} {bs : List Buf} {s : LogDisk}
    (h : Logging l d bs s) (hout : ∀ b ∈ bs, ¬l.Region b.sector) (hne : s.log.lh ≠ [])
    (h0 : headCount (d l.start) = 0) :
    Pending l s.log.lh (committed d bs)
      (Function.update s.disk l.start (setHead (s.disk l.start) s.log.lh)) := by
  have hroom := h.room.2 hne
  have hquiet := (h.quiet h0).last
  rw [← h.disk] at hquiet
  refine
    { outside := ?_
      room := hroom
      head := ?_
      slots := ?_
      rest := ?_ }
  · intro x hx
    obtain ⟨b, hb, rfl⟩ := (h.logged x).1 hx
    exact hout b hb
  · rw [Function.update_self]
    refine headSectors_setHead _ h.room.1 fun x hx => ?_
    obtain ⟨b, _, rfl⟩ := (h.logged x).1 hx
    exact b.sector_lt
  · intro t ht
    rw [Function.update_of_ne (by omega), committed, ← h.slots t ht]
    rfl
  · intro x hx hxl
    rw [Function.update_of_ne fun heq => hx ⟨by omega, by omega⟩, hquiet.2 x hx]
    have hnone : lastLogged bs x = none :=
      lastLogged_eq_none fun b hb hbx => hxl ((h.logged x).2 ⟨b, hb, hbx⟩)
    simp [committed, hnone]

/-- The disk once the header of a logging phase has been written. -/
def headed (l : Log) (s : LogDisk) : Nat → Block :=
  Function.update s.disk l.start (setHead (s.disk l.start) s.log.lh)

/-- What `commit_trans` writes after a logging phase that logged something: the
header, the installs, and the cleared header. -/
def commitWrites (l : Log) (s : LogDisk) : List (Nat × Block) :=
  (l.start, setHead (s.disk l.start) s.log.lh) ::
    (installWrites (headed l s) l.start s.log.lh ++
      [(l.start, setHead (applyWrites (headed l s)
        (installWrites (headed l s) l.start s.log.lh) l.start) [])])

theorem writeHead_run (s : LogDisk) :
    writeHead.run s = .ok ()
      { s with
        disk := Function.update s.disk s.log.start
          (setHead (s.disk s.log.start) s.log.lh)
        writes := s.writes ++
          [(s.log.start, setHead (s.disk s.log.start) s.log.lh)] } := rfl

theorem Logging.commit {l : Log} {d : Nat → Block} {bs : List Buf} {s s' : LogDisk}
    (h : Logging l d bs s) (hout : ∀ b ∈ bs, ¬l.Region b.sector) (hne : s.log.lh ≠ [])
    (h0 : headCount (d l.start) = 0) (hrun : commitTrans.run s = .ok () s') :
    s'.writes = s.writes ++ commitWrites l s := by
  have hp := h.pending hout hne h0
  have hinst := installTrans_run
    { s with
      disk := headed l s
      writes := s.writes ++ [(l.start, setHead (s.disk l.start) s.log.lh)] }
    (fun x hx hr => hp.outside x hx (by simpa [Log.Region, h.start, h.size] using hr))
    (by simpa [h.size] using hp.room)
  have hpos : s.log.lh.length > 0 := List.length_pos_of_ne_nil hne
  have hhead : writeHead.run s = .ok ()
      { s with
        disk := headed l s
        writes := s.writes ++ [(l.start, setHead (s.disk l.start) s.log.lh)] } := by
    rw [writeHead_run, h.start, headed]
  simp only [commitTrans, run_get_bind, if_pos hpos] at hrun
  rw [run_bind_ok hhead, run_bind_ok hinst] at hrun
  cases hrun
  simp [commitWrites, h.start]

/-- A header write with a nonzero count. -/
def IsCommit (l : Log) (w : Nat × Block) : Prop := w.1 = l.start ∧ 0 < headCount w.2

/-- Log slots are not headers. -/
theorem Logging.no_commit {l : Log} {d : Nat → Block} {bs : List Buf} {s : LogDisk}
    (h : Logging l d bs s) : ∀ w ∈ s.writes, ¬IsCommit l w := by
  intro w hw hc
  have := (h.writes w hw).1
  have := hc.1
  omega

/-- A transaction that logged nothing writes nothing at its commit. -/
private theorem commitTrans_empty {s s' : LogDisk} (hlh : s.log.lh = [])
    (hrun : commitTrans.run s = .ok () s') : s'.writes = s.writes := by
  simp only [commitTrans, run_get_bind, hlh] at hrun
  cases hrun
  rfl

/--
**Crash atomicity.**  Run one transaction from a disk whose header counts
nothing, cut its writes at any point `j`, let recovery crash any number of times
at any of its writes, and let it finally complete.  Outside the log region the
disk then holds the old contents if the counting header had not been written,
and the last logged contents of every logged sector if it had; the header counts
zero again.
-/
theorem transaction_crash_atomic (l : Log) (d : Nat → Block) (bs : List Buf) (s : LogDisk)
    (hsize : 0 < l.size) (hbusy : l.busy.isSome) (hlh : l.lh = [])
    (h0 : headCount (d l.start) = 0) (hout : ∀ b ∈ bs, ¬l.Region b.sector)
    (hrun : (transaction bs).run ⟨d, l, []⟩ = .ok () s) (j : Nat) (js : List Nat) :
    ∃ s', recoverFromLog.run
        (boot l (afterCrashes l (applyWrites d (s.writes.take j)) js)) = .ok () s' ∧
      (s'.disk l.start).word 0 = 0 ∧
      ((¬∃ w ∈ s.writes.take j, IsCommit l w) →
        ∀ x, ¬l.Region x → s'.disk x = d x) ∧
      ((∃ w ∈ s.writes.take j, IsCommit l w) →
        ∀ x, ¬l.Region x → s'.disk x = committed d bs x) := by
  obtain ⟨_, s₁, hlog, hcommit⟩ := run_bind_eq_ok hrun
  have hL : Logging l d bs s₁ := Logging.forM bs (Logging.init l d hbusy hlh) hlog
  -- the crash point is quiet for the old disk exactly before the header write
  have hcrash : (Quiet l d (applyWrites d (s.writes.take j)) ∧
        ¬∃ w ∈ s.writes.take j, IsCommit l w) ∨
      (Recoverable l (committed d bs) (applyWrites d (s.writes.take j)) ∧
        ∃ w ∈ s.writes.take j, IsCommit l w) := by
    have hbefore : ∀ i, Quiet l d (applyWrites d (s₁.writes.take i)) ∧
        ¬∃ w ∈ s₁.writes.take i, IsCommit l w := fun i =>
      ⟨hL.quiet h0 i, fun ⟨w, hw, hc⟩ => hL.no_commit w (List.mem_of_mem_take hw) hc⟩
    by_cases hne : s₁.log.lh = []
    · rw [commitTrans_empty hne hcommit]
      exact .inl (hbefore j)
    · rw [hL.commit hout hne h0 hcommit]
      rcases Nat.lt_or_ge s₁.writes.length j with hj | hj
      · -- past the header write: its count is the number of logged sectors
        right
        obtain ⟨i, rfl⟩ : ∃ i, j = s₁.writes.length + (i + 1) :=
          ⟨j - s₁.writes.length - 1, by omega⟩
        have hp := ((hL.pending hout hne h0).finish (b := applyWrites (headed l s₁)
          (installWrites (headed l s₁) l.start s₁.log.lh) l.start)).1 i
        rw [List.take_length_add_append, applyWrites_append, ← hL.disk, commitWrites,
          List.take_succ_cons, applyWrites_cons]
        refine ⟨hp, _, List.mem_append_right _ List.mem_cons_self, rfl, ?_⟩
        rw [headCount_setHead _ hL.room.1]
        exact List.length_pos_of_ne_nil hne
      · rw [List.take_append_of_le_length hj]
        exact .inl (hbefore j)
  rcases hcrash with ⟨hq, hno⟩ | ⟨hr, hyes⟩
  · obtain ⟨s', h1, h2, h3⟩ := Recoverable.settles hsize (.inl hq) js
    exact ⟨s', h1, h2, fun _ => h3, fun h => absurd h hno⟩
  · obtain ⟨s', h1, h2, h3⟩ := hr.settles hsize js
    exact ⟨s', h1, h2, fun h => absurd hyes h, fun _ => h3⟩

/-- The log `mkfs` lays out, at the end of 4026 blocks, in a transaction of
process 0. -/
def mkfsLog : Log := ⟨4016, 10, some 0, []⟩

/-- Sector 100 filled with sevens, logged over an empty disk; the crash falls
right after the header write, and recovery is interrupted once. -/
theorem transaction_crash_atomic_one_block :
    ∃ s, (transaction [⟨100, fun _ => 7, by decide⟩]).run
        ⟨fun _ => Block.zero, mkfsLog, []⟩ = .ok () s ∧
      ∃ s', recoverFromLog.run (boot mkfsLog (afterCrashes mkfsLog
          (applyWrites (fun _ => Block.zero) (s.writes.take 2)) [1])) = .ok () s' ∧
        (s'.disk 4016).word 0 = 0 ∧ s'.disk 100 = fun _ => 7 := by
  refine ⟨_, rfl, ?_⟩
  obtain ⟨s', h1, h2, -, h4⟩ := transaction_crash_atomic mkfsLog (fun _ => Block.zero)
    [⟨100, fun _ => 7, by decide⟩] _ (by decide) rfl rfl rfl (by simp [Log.Region, mkfsLog])
    rfl 2 [1]
  refine ⟨s', h1, h2, ?_⟩
  rw [h4 ⟨_, List.mem_cons_of_mem _ List.mem_cons_self, rfl, by decide⟩ 100
    (by simp [Log.Region, mkfsLog])]
  rfl

end LogDisk

end Xv6.Kernel
