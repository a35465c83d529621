import Mathlib.Data.Finset.Card
import Xv6.Kernel.Ptable

/-!
# `ps`

`get_processes_info` of `kernel/proc.c` and `main` of `user/ps.c`.  The kernel puts the record of a
process at the index of its slot and returns how many there are; `ps` prints the records from index
0 on.  The array of `ps` is on its stack and not initialised.  The number of a state that has no
name stops the model.

* `ps_lists_iff`: `ps` prints the processes exactly if the slots in use are the first ones, and all
  but that of slot 0 have a parent.
-/

namespace Xv6.User.Ps

open Xv6.Kernel.Ptable (ProcState)

/-- `NPROC`. -/
abbrev NPROC : Nat := 64

/-- `struct proc`, as far as these functions use it; a parent is a slot. -/
structure Proc where
  pid : Int
  state : ProcState
  parent : Option Nat
  sz : UInt32
  name : Fin 16 → UInt8

/-- `struct process_info`. -/
structure ProcessInfo where
  pid : Int
  ppid : Int
  state : Int
  sz : UInt32
  name : Fin 16 → UInt8

/-- The number of a state. -/
def stateNumber : ProcState → Int
  | .unused => 0
  | .embryo => 1
  | .sleeping => 2
  | .runnable => 3
  | .running => 4
  | .zombie => 5

/-- The array of the caller, the number of records, and whether a null pointer was followed. -/
structure Filled where
  table : Nat → ProcessInfo
  count : Nat
  followed : Bool

/-- A round of the loop of `get_processes_info`; `nullPid` is what is at the place of the `pid` of a
process at address 0. -/
def fillSlot (ptable : Nat → Proc) (nullPid : Int) (f : Filled) (i : Nat) : Filled :=
  let p := ptable i
  if p.state = .unused then f
  else
    let ppid := if i = 0 then 0 else
      match p.parent with
      | some q => (ptable q).pid
      | none => nullPid
    { table := Function.update f.table i ⟨p.pid, ppid, stateNumber p.state, p.sz, p.name⟩
      count := f.count + 1
      followed := f.followed || (decide (i ≠ 0) && p.parent.isNone) }

/-- `get_processes_info`. -/
def getProcessesInfo (ptable : Nat → Proc) (nullPid : Int) (table : Nat → ProcessInfo) : Filled :=
  (List.range NPROC).foldl (fillSlot ptable nullPid) ⟨table, 0, false⟩

/-- `states`. -/
def states : List String := ["UNUSED", "EMBRYO", "BLOCKED", "READY", "ACTIVE", "ZOMBIE"]

/-- What `ps` gives to `printf` for a process. -/
structure Record where
  pid : Int
  state : String
  sz : UInt32
  name : Fin 16 → UInt8

/-- The line of a process. -/
def printInfo (info : ProcessInfo) : Option Record := do
  if info.state < 0 then none
  else
    let state ← states[info.state.toNat]?
    return ⟨info.pid, state, info.sz, info.name⟩

/-- The loop of `ps`, over the first `numbers` records. -/
def printInfos (table : Nat → ProcessInfo) : List Nat → Option (List Record)
  | [] => some []
  | i :: is => do
      let record ← printInfo (table i)
      let records ← printInfos table is
      return record :: records

/-- `main` of `ps`: the lines. -/
def ps (ptable : Nat → Proc) (nullPid : Int) (table : Nat → ProcessInfo) : Option (List Record) :=
  let f := getProcessesInfo ptable nullPid table
  printInfos f.table (List.range f.count)

/-- A slot of the table that is in use. -/
abbrev Used (ptable : Nat → Proc) (i : Nat) : Prop := (ptable i).state ≠ .unused

/-- The name that `ps` has for a state. -/
def stateName : ProcState → String
  | .unused => "UNUSED"
  | .embryo => "EMBRYO"
  | .sleeping => "BLOCKED"
  | .runnable => "READY"
  | .running => "ACTIVE"
  | .zombie => "ZOMBIE"

/-- The record of a process. -/
def recordOf (p : Proc) : Record := ⟨p.pid, stateName p.state, p.sz, p.name⟩

/-- Whatever is on the stack of `ps` and at address 0, the lines are those of the slots in use, and
no null pointer is followed. -/
def Lists (ptable : Nat → Proc) : Prop :=
  ∀ (nullPid : Int) (table : Nat → ProcessInfo),
    ps ptable nullPid table =
      some (((List.range NPROC).filter fun i => Used ptable i).map fun i => recordOf (ptable i)) ∧
    (getProcessesInfo ptable nullPid table).followed = false

section Lists

variable {ptable : Nat → Proc} {nullPid : Int} {table : Nat → ProcessInfo} {n i j : Nat}

/-- The slots in use below `n`. -/
def usedBelow (ptable : Nat → Proc) (n : Nat) : Finset Nat :=
  (Finset.range n).filter fun i => Used ptable i

theorem mem_usedBelow : i ∈ usedBelow ptable n ↔ i < n ∧ Used ptable i := by
  rw [usedBelow, Finset.mem_filter, Finset.mem_range]

/-- After the rounds for the slots below `n`. -/
structure Progress (ptable : Nat → Proc) (table : Nat → ProcessInfo) (n : Nat) (f : Filled) :
    Prop where
  count : f.count = (usedBelow ptable n).card
  used : ∀ i < n, Used ptable i → printInfo (f.table i) = some (recordOf (ptable i))
  unused : ∀ i, ¬(i < n ∧ Used ptable i) → f.table i = table i
  followed : f.followed = true ↔ ∃ i < n, Used ptable i ∧ i ≠ 0 ∧ (ptable i).parent = none

theorem printInfo_state (p : Proc) (ppid : Int) :
    printInfo ⟨p.pid, ppid, stateNumber p.state, p.sz, p.name⟩ = some (recordOf p) := by
  cases h : p.state <;> simp [printInfo, recordOf, stateNumber, stateName, states, h]

theorem usedBelow_succ : usedBelow ptable (n + 1) =
    if Used ptable n then insert n (usedBelow ptable n) else usedBelow ptable n := by
  rw [usedBelow, Finset.range_add_one, Finset.filter_insert]
  rfl

theorem Progress.step {f : Filled} (h : Progress ptable table n f) :
    Progress ptable table (n + 1) (fillSlot ptable nullPid f n) := by
  have hself : n ∉ usedBelow ptable n := fun hmem => absurd (mem_usedBelow.1 hmem).1 (by omega)
  unfold fillSlot
  by_cases hused : Used ptable n
  · simp only [if_neg hused]
    refine ⟨?_, fun i hi hu => ?_, fun i hi => ?_, ?_⟩
    · rw [usedBelow_succ, if_pos hused, Finset.card_insert_of_notMem hself, h.count]
    · by_cases hin : i = n
      · subst hin
        dsimp only
        rw [Function.update_self, printInfo_state]
      · dsimp only
        rw [Function.update_of_ne hin]
        exact h.used i (by omega) hu
    · have hin : i ≠ n := fun heq => hi ⟨by omega, heq ▸ hused⟩
      dsimp only
      rw [Function.update_of_ne hin]
      exact h.unused i fun hlt => hi ⟨by omega, hlt.2⟩
    · rw [Bool.or_eq_true, h.followed, Bool.and_eq_true, decide_eq_true_iff,
        Option.isNone_iff_eq_none]
      constructor
      · rintro (⟨i, hi, hrest⟩ | ⟨hn, hparent⟩)
        · exact ⟨i, by omega, hrest⟩
        · exact ⟨n, by omega, hused, hn, hparent⟩
      · rintro ⟨i, hi, hu, hrest⟩
        by_cases hin : i = n
        · exact .inr (hin ▸ hrest)
        · exact .inl ⟨i, by omega, hu, hrest⟩
  · have hunused : (ptable n).state = .unused := not_not.1 hused
    have hlt : ∀ i, i < n + 1 ∧ Used ptable i ↔ i < n ∧ Used ptable i := by
      intro i
      constructor
      · rintro ⟨hi, hu⟩
        have hin : i ≠ n := fun heq => hused (heq ▸ hu)
        exact ⟨by omega, hu⟩
      · exact fun hi => ⟨by omega, hi.2⟩
    simp only [if_pos hunused]
    refine ⟨?_, fun i hi hu => ?_, fun i hi => ?_, ?_⟩
    · rw [usedBelow_succ, if_neg hused, h.count]
    · exact h.used i ((hlt i).1 ⟨hi, hu⟩).1 hu
    · exact h.unused i fun hi' => hi ((hlt i).2 hi')
    · rw [h.followed]
      refine exists_congr fun i => ?_
      rw [← and_assoc, ← and_assoc (a := i < n + 1), hlt i]

theorem progress (nullPid : Int) (table : Nat → ProcessInfo) (n : Nat) :
    Progress ptable table n
      ((List.range n).foldl (fillSlot ptable nullPid) ⟨table, 0, false⟩) := by
  induction n with
  | zero => exact ⟨rfl, by simp, fun _ _ => rfl, by simp⟩
  | succ n ih =>
      rw [List.range_succ, List.foldl_append]
      exact ih.step

theorem printInfos_some {is : List Nat} {records : List Record} {t : Nat → ProcessInfo}
    (h : printInfos t is = some records) : ∀ i ∈ is, printInfo (t i) ≠ none := by
  induction is generalizing records with
  | nil => simp
  | cons i is ih =>
      rw [printInfos] at h
      cases hi : printInfo (t i) with
      | none =>
          rw [hi] at h
          cases h
      | some record =>
          cases his : printInfos t is with
          | none =>
              rw [hi, his] at h
              cases h
          | some records => exact List.forall_mem_cons.2 ⟨by simp [hi], ih his⟩

theorem printInfos_eq {is : List Nat} {t : Nat → ProcessInfo}
    (h : ∀ i ∈ is, printInfo (t i) = some (recordOf (ptable i))) :
    printInfos t is = some (is.map fun i => recordOf (ptable i)) := by
  induction is with
  | nil => rfl
  | cons i is ih =>
      obtain ⟨hi, his⟩ := List.forall_mem_cons.1 h
      rw [printInfos, hi, ih his]
      rfl

/-- The slots in use come first. -/
def Dense (ptable : Nat → Proc) : Prop := ∀ i j, i < j → j < NPROC → Used ptable j → Used ptable i

/-- The slots in use come first exactly if they are the ones below their number. -/
theorem dense_iff : Dense ptable ↔
    usedBelow ptable NPROC = Finset.range (usedBelow ptable NPROC).card := by
  constructor
  · intro h
    refine Finset.eq_of_subset_of_card_le (fun i hi => ?_) (by rw [Finset.card_range])
    obtain ⟨hlt, hused⟩ := mem_usedBelow.1 hi
    have hsub : Finset.range (i + 1) ⊆ usedBelow ptable NPROC := by
      intro k hk
      have hki : k < i + 1 := Finset.mem_range.1 hk
      refine mem_usedBelow.2 ⟨by omega, ?_⟩
      by_cases heq : k = i
      · exact heq ▸ hused
      · exact h k i (by omega) hlt hused
    have hcard := Finset.card_le_card hsub
    rw [Finset.card_range] at hcard
    exact Finset.mem_range.2 (by omega)
  · intro h i j hij hj hused
    have hmem : j ∈ usedBelow ptable NPROC := mem_usedBelow.2 ⟨hj, hused⟩
    rw [h, Finset.mem_range] at hmem
    have hi : i ∈ usedBelow ptable NPROC := by
      rw [h, Finset.mem_range]
      omega
    exact (mem_usedBelow.1 hi).2

theorem usedBelow_card_le : (usedBelow ptable n).card ≤ n := by
  have := Finset.card_filter_le (Finset.range n) fun i => Used ptable i
  rwa [Finset.card_range] at this

theorem filter_range_lt {c : Nat} (h : c ≤ n) :
    (List.range n).filter (fun i => i < c) = List.range c := by
  obtain ⟨d, rfl⟩ := Nat.exists_eq_add_of_le h
  rw [List.range_add, List.filter_append, List.filter_eq_self.2, List.filter_eq_nil_iff.2,
    List.append_nil]
  · intro i hi
    obtain ⟨k, -, rfl⟩ := List.mem_map.1 hi
    simp
  · intro i hi
    exact decide_eq_true (List.mem_range.1 hi)

/-- An entry of the array whose state has no name. -/
def junk : ProcessInfo := ⟨0, 0, 6, 0, fun _ => 0⟩

theorem Lists.dense (h : Lists ptable) : Dense ptable := by
  obtain ⟨hps, -⟩ := h 0 fun _ => junk
  have hprog := @progress ptable 0 (fun _ => junk) NPROC
  have hsub : Finset.range (usedBelow ptable NPROC).card ⊆ usedBelow ptable NPROC := by
    intro i hi
    by_contra hunused
    rw [mem_usedBelow] at hunused
    refine printInfos_some hps i ?_ ?_
    · rw [List.mem_range]
      exact hprog.count ▸ Finset.mem_range.1 hi
    · rw [getProcessesInfo, hprog.unused i hunused]
      decide
  exact dense_iff.2 (Finset.eq_of_subset_of_card_le hsub (by rw [Finset.card_range])).symm

theorem Lists.parent (h : Lists ptable) (hpos : 0 < i) (hi : i < NPROC) (hused : Used ptable i) :
    (ptable i).parent ≠ none := by
  intro hparent
  have hprog := @progress ptable 0 (fun _ => junk) NPROC
  have hfollowed := hprog.followed.2 ⟨i, hi, hused, by omega, hparent⟩
  rw [← getProcessesInfo, (h 0 fun _ => junk).2] at hfollowed
  cases hfollowed

/-- `ps` prints the processes exactly if the slots in use are the first ones, and each of them but
slot 0 has a parent. -/
theorem ps_lists_iff (ptable : Nat → Proc) :
    Lists ptable ↔ Dense ptable ∧
      ∀ i, 0 < i → i < NPROC → Used ptable i → (ptable i).parent ≠ none := by
  constructor
  · exact fun h => ⟨h.dense, fun i hpos hi hused => h.parent hpos hi hused⟩
  · rintro ⟨hdense, hparents⟩ nullPid table
    have hprog := @progress ptable nullPid table NPROC
    rw [← getProcessesInfo] at hprog
    have hiff : ∀ i < NPROC, Used ptable i ↔ i < (usedBelow ptable NPROC).card := by
      intro i hi
      rw [← Finset.mem_range, ← dense_iff.1 hdense, mem_usedBelow, and_iff_right hi]
    constructor
    · have hfilter : (List.range NPROC).filter (fun i => Used ptable i) =
          List.range (usedBelow ptable NPROC).card := by
        rw [← filter_range_lt usedBelow_card_le]
        refine List.filter_congr fun i hi => ?_
        rw [decide_eq_decide]
        exact hiff i (List.mem_range.1 hi)
      rw [ps, hfilter, hprog.count]
      refine printInfos_eq fun i hi => ?_
      have hlt : i < NPROC := lt_of_lt_of_le (List.mem_range.1 hi) usedBelow_card_le
      exact hprog.used i hlt ((hiff i hlt).2 (List.mem_range.1 hi))
    · rw [Bool.eq_false_iff]
      intro hfollowed
      obtain ⟨i, hi, hused, hne, hparent⟩ := hprog.followed.1 hfollowed
      exact hparents i (by omega) hi hused hparent

/-- Slots 0 and 2 are in use. -/
def withHole (i : Nat) : Proc :=
  ⟨i + 1, if i = 0 ∨ i = 2 then .sleeping else .unused, some 0, 4096, fun _ => 0⟩

/-- A process has exited, and that in the next slot has not. -/
theorem ps_misses_process : ¬Lists withHole := by
  intro h
  exact h.dense 1 2 (by decide) (by decide) (by decide) rfl

end Lists

end Xv6.User.Ps
