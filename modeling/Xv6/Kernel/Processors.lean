import Mathlib.Logic.Function.Basic
import Xv6.Verified.Walks

/-!
# The tables of the processors

`acpi_config_smp` of `kernel/acpi.c` and `mpinit` of `kernel/mp.c`: two loops over tables of the
firmware, which put the processors they find into `cpus`.  A read behind the table and a store
behind `cpus` stop the loop; one that does not come to an end has no result, whatever the fuel.

* `scans_robust_iff`: the loops do what they should exactly if no entry is empty or unknown, none is
  cut off before what is read of it, the processors have room, and those of the second table are all
  enabled.
-/

namespace Xv6.Kernel.Processors

open Xv6.Verified.Walks

/-- `NCPU`. -/
abbrev NCPU : Nat := 8

/-- `struct cpu`, as far as these functions set it. -/
structure Cpu where
  id : Nat
  apicid : UInt8

/-- The global variables, and `nioapic`. -/
structure State where
  cpus : Nat → Cpu
  ncpu : Nat
  ismp : Bool
  ioapicid : UInt8
  bcpu : Nat
  nioapic : Nat

/-- Before both. -/
def boot (cpus : Nat → Cpu) : State := ⟨cpus, 0, false, 0, 0, 0⟩

/-- A processor is put into `cpus`. -/
def State.addCpu (s : State) (apicid : UInt8) : Option State :=
  if s.ncpu < NCPU then
    some { s with cpus := Function.update s.cpus s.ncpu ⟨s.ncpu, apicid⟩, ncpu := s.ncpu + 1 }
  else none

/-- Is bit 0 of the byte set? -/
def lowBit (b : UInt8) : Bool := b.toNat % 2 = 1

/-! ## ACPI -/

/-- `TYPE_LAPIC` and `TYPE_IOAPIC`. -/
abbrev TYPE_LAPIC : UInt8 := 0
@[inherit_doc TYPE_LAPIC] abbrev TYPE_IOAPIC : UInt8 := 1

/-- `sizeof(struct acpi_madt)`. -/
abbrev MADT_HEADER : Nat := 44

/-- `len`, where there is an entry. -/
def madtSize (t : List UInt8) : Option Nat :=
  if t.length < 2 ∨ t.length < (t.getD 1 0).toNat then none else some (t.getD 1 0).toNat

/-- A round of the loop of `acpi_config_smp`. -/
def visitMadt (s : State) (t : List UInt8) : Option State :=
  let len := (t.getD 1 0).toNat
  if t.getD 0 0 = TYPE_LAPIC then
    if len < 8 then some s
    else if ¬lowBit (t.getD 4 0) then some s
    else s.addCpu (t.getD 3 0)
  else if t.getD 0 0 = TYPE_IOAPIC then
    if len < 12 then some s
    else some { s with
      ioapicid := if s.nioapic = 0 then t.getD 2 0 else s.ioapicid
      nioapic := s.nioapic + 1 }
  else some s

/-- `acpi_config_smp`, for the bytes of the table: what it returns, and the state. -/
def acpiConfigSmp (fuel : Nat) (madt : Option (List UInt8)) (s : State) :
    Option (Option (Int × State)) :=
  match madt with
  | none => some (some (-1, s))
  | some bytes =>
      if bytes.length < MADT_HEADER then some (some (-1, s))
      else
        match walk madtSize visitMadt fuel (bytes.drop MADT_HEADER) s with
        | none => none
        | some none => some none
        | some (some s) =>
            if s.ncpu ≠ 0 then some (some (0, { s with ismp := true }))
            else some (some (-1, s))

/-- The entry of a processor that is enabled. -/
def MadtEnabled (t : List UInt8) : Bool :=
  t.getD 0 0 = TYPE_LAPIC && 8 ≤ (t.getD 1 0).toNat && lowBit (t.getD 4 0)

/-- The entries of the table. -/
def madtEntries (bytes : List UInt8) : Option (List (List UInt8)) :=
  places madtSize (bytes.drop MADT_HEADER)

/-! ## The MP configuration table -/

/-- The types of entries. -/
abbrev MPPROC : UInt8 := 0
@[inherit_doc MPPROC] abbrev MPBUS : UInt8 := 1
@[inherit_doc MPPROC] abbrev MPIOAPIC : UInt8 := 2
@[inherit_doc MPPROC] abbrev MPIOINTR : UInt8 := 3
@[inherit_doc MPPROC] abbrev MPLINTR : UInt8 := 4

/-- `sizeof(struct mpconf)`. -/
abbrev MPCONF : Nat := 44

/-- By how much `p` moves on at an entry. -/
def mpSize : List UInt8 → Option Nat
  | [] => none
  | type :: _ =>
      some (if type = MPPROC then 20
        else if type = MPIOAPIC ∨ type = MPBUS ∨ type = MPIOINTR ∨ type = MPLINTR then 8
        else 0)

/-- A round of the loop of `mpinit`. -/
def visitMp (s : State) (t : List UInt8) : Option State :=
  if t.getD 0 0 = MPPROC then
    match t[1]?, t[3]? with
    | some apicid, some flags =>
        ({ s with bcpu := if flags.toNat / 2 % 2 = 1 then s.ncpu else s.bcpu }).addCpu apicid
    | _, _ => none
  else if t.getD 0 0 = MPIOAPIC then
    match t[1]? with
    | some apicno => some { s with ioapicid := apicno }
    | none => none
  else if t.getD 0 0 = MPBUS ∨ t.getD 0 0 = MPIOINTR ∨ t.getD 0 0 = MPLINTR then some s
  else some { s with ismp := false }

/-- The checks of `mpconfig`: the signature, the version and the sum of the bytes. -/
def mpconfig (conf : List UInt8) : Bool :=
  conf.take 4 = [80, 67, 77, 80] && (conf.getD 6 0 = 1 || conf.getD 6 0 = 4) &&
    conf.foldl (· + ·) 0 = 0

/-- `mpinit`, for the bytes that are found at the address of the table. -/
def mpinit (fuel : Nat) (conf : Option (List UInt8)) (s : State) : Option (Option State) :=
  match conf with
  | none => some (some { s with bcpu := 0 })
  | some bytes =>
      if ¬mpconfig bytes then some (some { s with bcpu := 0 })
      else
        match walk mpSize visitMp fuel (bytes.drop MPCONF) { s with bcpu := 0, ismp := true } with
        | none => none
        | some none => some none
        | some (some s) =>
            if ¬s.ismp then some (some { s with ncpu := 1, ioapicid := 0 })
            else some (some s)

/-- The entry of a processor. -/
def MpProcessor (t : List UInt8) : Bool := t.getD 0 0 = MPPROC

/-- The entry of a processor that is enabled. -/
def MpEnabled (t : List UInt8) : Bool := MpProcessor t && lowBit (t.getD 3 0)

/-- The entries of the table. -/
def mpEntries (bytes : List UInt8) : Option (List (List UInt8)) :=
  places mpSize (bytes.drop MPCONF)

/-! ## What they should do -/

/-- `acpi_config_smp` ends without leaving its table or `cpus`; on success the enabled processors
are counted. -/
def AcpiRobust (madt : Option (List UInt8)) (cpus : Nat → Cpu) : Prop :=
  ∃ fuel r s, acpiConfigSmp fuel madt (boot cpus) = some (some (r, s)) ∧
    (r = 0 → ∀ bytes, madt = some bytes →
      s.ncpu = ((madtEntries bytes).getD []).countP MadtEnabled ∧ s.ncpu ≤ NCPU)

/-- `mpinit` ends without leaving its table or `cpus`; on success the enabled processors are
counted. -/
def MpRobust (conf : Option (List UInt8)) (cpus : Nat → Cpu) : Prop :=
  ∃ fuel s, mpinit fuel conf (boot cpus) = some (some s) ∧
    (s.ismp = true → ∀ bytes, conf = some bytes →
      s.ncpu = ((mpEntries bytes).getD []).countP MpEnabled ∧ s.ncpu ≤ NCPU)

/-- No entry of the table is empty, and the enabled processors have room. -/
def MadtFine (bytes : List UInt8) : Prop :=
  ∃ entries, madtEntries bytes = some entries ∧ entries.countP MadtEnabled ≤ NCPU

/-- What is read of an entry is there. -/
def MpWhole (t : List UInt8) : Prop :=
  (t.getD 0 0 = MPPROC → 4 ≤ t.length) ∧ (t.getD 0 0 = MPIOAPIC → 2 ≤ t.length)

/-- Each entry of the table has a type that is known, and is there as far as it is read; the
processors have room and are enabled. -/
def MpFine (bytes : List UInt8) : Prop :=
  ∃ entries, mpEntries bytes = some entries ∧ (∀ t ∈ entries, MpWhole t) ∧
    entries.countP MpProcessor ≤ NCPU ∧ ∀ t ∈ entries, MpProcessor t = true → MpEnabled t = true

section Scans

variable {s s' : State} {t : List UInt8} {apicid : UInt8} {entries : List (List UInt8)}

theorem addCpu_some : (∃ s', s.addCpu apicid = some s') ↔ s.ncpu < NCPU := by
  unfold State.addCpu
  split
  · rename_i h
    exact iff_of_true ⟨_, rfl⟩ h
  · rename_i h
    exact iff_of_false (by rintro ⟨_, ⟨⟩⟩) h

theorem addCpu_count (h : s.addCpu apicid = some s') :
    s'.ncpu = s.ncpu + 1 ∧ s'.ismp = s.ismp := by
  unfold State.addCpu at h
  split at h
  · cases h
    exact ⟨rfl, rfl⟩
  · cases h

theorem madtEnabled_iff : MadtEnabled t = true ↔
    t.getD 0 0 = TYPE_LAPIC ∧ 8 ≤ (t.getD 1 0).toNat ∧ lowBit (t.getD 4 0) = true := by
  rw [MadtEnabled, Bool.and_eq_true, Bool.and_eq_true, decide_eq_true_iff, decide_eq_true_iff,
    and_assoc]

/-- One entry of the first table. -/
theorem visitMadt_enabled (h : MadtEnabled t = true) : visitMadt s t = s.addCpu (t.getD 3 0) := by
  obtain ⟨htype, hlen, hlow⟩ := madtEnabled_iff.1 h
  simp only [visitMadt]
  rw [if_pos htype, if_neg (by omega), if_neg (not_not.2 hlow)]

theorem visitMadt_other (h : MadtEnabled t ≠ true) :
    ∃ s', visitMadt s t = some s' ∧ s'.ncpu = s.ncpu := by
  rw [Ne, madtEnabled_iff] at h
  simp only [visitMadt]
  split
  · rename_i htype
    split
    · exact ⟨s, rfl, rfl⟩
    · rename_i hlen
      rw [if_pos fun hlow => h ⟨htype, by omega, hlow⟩]
      exact ⟨s, rfl, rfl⟩
  · split
    · split <;> exact ⟨_, rfl, rfl⟩
    · exact ⟨s, rfl, rfl⟩

theorem visitMadt_count (s : State) (t : List UInt8) (s' : State) (h : visitMadt s t = some s') :
    s'.ncpu = s.ncpu + if MadtEnabled t then 1 else 0 := by
  split
  · rename_i hen
    rw [visitMadt_enabled hen] at h
    exact (addCpu_count h).1
  · rename_i hen
    obtain ⟨s₁, hs₁, hcount⟩ := visitMadt_other (s := s) hen
    rw [hs₁] at h
    cases h
    exact hcount

theorem visitMadt_some (s : State) (t : List UInt8) : (∃ s', visitMadt s t = some s') ↔
    True ∧ (MadtEnabled t = true → s.ncpu < NCPU) := by
  rw [true_and]
  by_cases hen : MadtEnabled t = true
  · rw [visitMadt_enabled hen, addCpu_some]
    exact ⟨fun h _ => h, fun h => h hen⟩
  · obtain ⟨s₁, hs₁, -⟩ := visitMadt_other (s := s) hen
    exact iff_of_true ⟨s₁, hs₁⟩ fun h => absurd h hen

/-- One entry of the second. -/
theorem visitMp_count (s : State) (t : List UInt8) (s' : State) (h : visitMp s t = some s') :
    s'.ncpu = s.ncpu + if MpProcessor t then 1 else 0 := by
  unfold visitMp at h
  unfold MpProcessor
  by_cases hproc : t.getD 0 0 = MPPROC
  · rw [if_pos hproc] at h
    rw [if_pos (decide_eq_true hproc)]
    split at h
    · exact (addCpu_count h).1
    · cases h
  · rw [if_neg hproc] at h
    rw [if_neg (by simpa using hproc)]
    split at h
    · split at h
      · cases h
        rfl
      · cases h
    · split at h <;> cases h <;> rfl

theorem visitMp_some (s : State) (t : List UInt8) : (∃ s', visitMp s t = some s') ↔
    MpWhole t ∧ (MpProcessor t = true → s.ncpu < NCPU) := by
  unfold visitMp MpProcessor MpWhole
  by_cases hproc : t.getD 0 0 = MPPROC
  · have hioapic : t.getD 0 0 ≠ MPIOAPIC := by
      rw [hproc]
      decide
    rw [if_pos hproc]
    by_cases hlen : 4 ≤ t.length
    · rw [List.getElem?_eq_getElem (by omega : 1 < t.length),
        List.getElem?_eq_getElem (by omega : 3 < t.length)]
      change (∃ s', State.addCpu _ _ = some s') ↔ _
      rw [addCpu_some]
      exact ⟨fun h => ⟨⟨fun _ => hlen, fun h => absurd h hioapic⟩, fun _ => h⟩,
        fun h => h.2 (decide_eq_true hproc)⟩
    · rw [List.getElem?_eq_none (by omega : t.length ≤ 3)]
      refine iff_of_false ?_ fun h => hlen (h.1.1 hproc)
      rintro ⟨s', h⟩
      split at h
      · rename_i hnone
        cases hnone
      · cases h
  · rw [if_neg hproc]
    have hnot : decide (t.getD 0 0 = MPPROC) ≠ true := by simpa using hproc
    by_cases hioapic : t.getD 0 0 = MPIOAPIC
    · rw [if_pos hioapic]
      by_cases hlen : 2 ≤ t.length
      · rw [List.getElem?_eq_getElem (by omega : 1 < t.length)]
        exact iff_of_true ⟨_, rfl⟩ ⟨⟨fun h => absurd h hproc, fun _ => hlen⟩,
          fun h => absurd h hnot⟩
      · rw [List.getElem?_eq_none (by omega : t.length ≤ 1)]
        exact iff_of_false (by rintro ⟨_, ⟨⟩⟩) fun h => hlen (h.1.2 hioapic)
    · rw [if_neg hioapic]
      refine iff_of_true ?_ ⟨⟨fun h => absurd h hproc, fun h => absurd h hioapic⟩,
        fun h => absurd h hnot⟩
      split <;> exact ⟨_, rfl⟩

/-- A type that is known leaves `ismp`. -/
theorem visitMp_ismp {n : Nat} (hn : 0 < n) (hsize : mpSize t = some n)
    (h : visitMp s t = some s') (hs : s.ismp = true) : s'.ismp = true := by
  cases t with
  | nil => cases hsize
  | cons type t =>
      rw [mpSize, Option.some_inj] at hsize
      unfold visitMp at h
      rw [List.getD_cons_zero] at h
      split at h
      · split at h
        · exact (addCpu_count h).2.trans hs
        · cases h
      · split at h
        · split at h
          · cases h
            exact hs
          · cases h
        · split at h
          · cases h
            exact hs
          · rename_i hproc hioapic hother
            rw [if_neg hproc, if_neg (by tauto)] at hsize
            omega

/-- The entries, visited one after the other. -/
theorem visitMadts_iff {ps : List (List UInt8)} (hs : s.ncpu ≤ NCPU) :
    (∃ s', ps.foldlM visitMadt s = some s') ↔
      (∀ t ∈ ps, True) ∧ s.ncpu + ps.countP MadtEnabled ≤ NCPU :=
  foldlM_some_iff visitMadt_count visitMadt_some hs

theorem visitMadts_count {ps : List (List UInt8)} (h : ps.foldlM visitMadt s = some s') :
    s'.ncpu = s.ncpu + ps.countP MadtEnabled :=
  foldlM_count visitMadt_count h

theorem visitMps_iff {ps : List (List UInt8)} (hs : s.ncpu ≤ NCPU) :
    (∃ s', ps.foldlM visitMp s = some s') ↔
      (∀ t ∈ ps, MpWhole t) ∧ s.ncpu + ps.countP MpProcessor ≤ NCPU :=
  foldlM_some_iff visitMp_count visitMp_some hs

theorem visitMps_count {ps : List (List UInt8)} (h : ps.foldlM visitMp s = some s') :
    s'.ncpu = s.ncpu + ps.countP MpProcessor :=
  foldlM_count visitMp_count h

/-- The loop of `acpi_config_smp` ends. -/
theorem madtWalk_iff {cpus : Nat → Cpu} {bytes : List UInt8} :
    (∃ fuel s, walk madtSize visitMadt fuel (bytes.drop MADT_HEADER) (boot cpus) = some (some s)) ↔
      MadtFine bytes := by
  constructor
  · rintro ⟨fuel, s, hwalk⟩
    obtain ⟨ps, hps, hfold⟩ := walk_places rfl hwalk
    have hsome := (visitMadts_iff (Nat.zero_le NCPU)).1 ⟨s, hfold⟩
    exact ⟨ps, hps, le_of_eq_of_le (Nat.zero_add _).symm hsome.2⟩
  · rintro ⟨ps, hps, hle⟩
    obtain ⟨s, hfold⟩ : ∃ s, ps.foldlM visitMadt (boot cpus) = some s :=
      (visitMadts_iff (Nat.zero_le NCPU)).2
        ⟨fun _ _ => trivial, le_of_eq_of_le (Nat.zero_add _) hle⟩
    exact ⟨_, s, walk_of_places hps hfold (Nat.lt_succ_self _)⟩

theorem acpiRobust_iff {madt : Option (List UInt8)} {cpus : Nat → Cpu} :
    AcpiRobust madt cpus ↔
      ∀ bytes, madt = some bytes → MADT_HEADER ≤ bytes.length → MadtFine bytes := by
  cases madt with
  | none => exact iff_of_true ⟨0, -1, boot cpus, rfl, by simp⟩ (by simp)
  | some bytes =>
      by_cases hshort : bytes.length < MADT_HEADER
      · refine iff_of_true ⟨0, -1, boot cpus, if_pos hshort, by simp⟩ fun b hb hlen => ?_
        cases hb
        omega
      · have hfine : (∀ b, some bytes = some b → MADT_HEADER ≤ b.length → MadtFine b) ↔
            MadtFine bytes := by
          refine ⟨fun h => h bytes rfl (Nat.le_of_not_lt hshort), fun h b hb _ => ?_⟩
          cases hb
          exact h
        rw [hfine, ← @madtWalk_iff cpus]
        constructor
        · rintro ⟨fuel, r, s, hrun, -⟩
          rw [acpiConfigSmp, if_neg hshort] at hrun
          split at hrun
          · cases hrun
          · cases hrun
          · rename_i s₁ hwalk
            exact ⟨fuel, s₁, hwalk⟩
        · rintro ⟨fuel, s, hwalk⟩
          obtain ⟨ps, hps, hfold⟩ := walk_places rfl hwalk
          have hcount := visitMadts_count hfold
          have hle := ((visitMadts_iff (Nat.zero_le NCPU)).1 ⟨s, hfold⟩).2
          rw [← hcount] at hle
          rw [AcpiRobust]
          refine ⟨fuel, if s.ncpu ≠ 0 then 0 else -1,
            if s.ncpu ≠ 0 then { s with ismp := true } else s, ?_, ?_⟩
          · rw [acpiConfigSmp, if_neg hshort, hwalk]
            dsimp only
            split <;> rfl
          · intro _ b hb
            cases hb
            have hsame : (if s.ncpu ≠ 0 then { s with ismp := true } else s).ncpu = s.ncpu := by
              split <;> rfl
            rw [hsame, madtEntries, hps, Option.getD_some]
            exact ⟨hcount.trans (Nat.zero_add _), hle⟩

/-- The loop of `mpinit` ends. -/
theorem mpWalk_iff {s : State} {bytes : List UInt8} (hs : s.ncpu = 0) :
    (∃ fuel s', walk mpSize visitMp fuel (bytes.drop MPCONF) s = some (some s')) ↔
      ∃ ps, mpEntries bytes = some ps ∧ (∀ t ∈ ps, MpWhole t) ∧ ps.countP MpProcessor ≤ NCPU := by
  have hiff : ∀ ps : List (List UInt8), (∃ s', ps.foldlM visitMp s = some s') ↔
      (∀ t ∈ ps, MpWhole t) ∧ ps.countP MpProcessor ≤ NCPU := by
    intro ps
    rw [visitMps_iff (by rw [hs]; exact Nat.zero_le _), hs, Nat.zero_add]
  constructor
  · rintro ⟨fuel, s', hwalk⟩
    obtain ⟨ps, hps, hfold⟩ := walk_places rfl hwalk
    exact ⟨ps, hps, (hiff ps).1 ⟨s', hfold⟩⟩
  · rintro ⟨ps, hps, hfine⟩
    obtain ⟨s', hfold⟩ := (hiff ps).2 hfine
    exact ⟨_, s', walk_of_places hps hfold (Nat.lt_succ_self _)⟩

/-- Where the loop of `mpinit` has ended: it has found no unknown type, and counted the
processors. -/
theorem mpWalk_end {s s' : State} {bytes : List UInt8} {fuel : Nat} {ps : List (List UInt8)}
    (hwalk : walk mpSize visitMp fuel (bytes.drop MPCONF) s = some (some s'))
    (hps : mpEntries bytes = some ps) (hs : s.ncpu = 0) (hismp : s.ismp = true) :
    s'.ismp = true ∧ s'.ncpu = ps.countP MpProcessor := by
  obtain ⟨ps', hps', hfold⟩ := walk_places rfl hwalk
  obtain rfl : ps = ps' := Option.some_inj.1 (hps.symm.trans hps')
  constructor
  · refine foldlM_keeps (I := fun s => s.ismp = true) (fun t ht s s' hvisit h => ?_) hfold hismp
    obtain ⟨n, hn, hsize⟩ := places_size hps t ht
    exact visitMp_ismp hn hsize hvisit h
  · rw [visitMps_count hfold, hs, Nat.zero_add]

/-- All processors are enabled, if as many are enabled as there are. -/
theorem enabled_of_count (h : entries.countP MpProcessor = entries.countP MpEnabled) :
    ∀ t ∈ entries, MpProcessor t = true → MpEnabled t = true := by
  induction entries with
  | nil => simp
  | cons t entries ih =>
      have hle : entries.countP MpEnabled ≤ entries.countP MpProcessor :=
        List.countP_mono_left fun u _ hu => (Bool.and_eq_true_iff.1 hu).1
      rw [List.countP_cons, List.countP_cons] at h
      by_cases hproc : MpProcessor t = true
      · have hen : MpEnabled t = true := by
          by_contra hen
          rw [if_pos hproc, if_neg hen] at h
          omega
        rw [if_pos hproc, if_pos hen] at h
        exact List.forall_mem_cons.2 ⟨fun _ => hen, ih (by omega)⟩
      · have hen : MpEnabled t ≠ true := fun hen => hproc (Bool.and_eq_true_iff.1 hen).1
        rw [if_neg hproc, if_neg hen] at h
        exact List.forall_mem_cons.2 ⟨fun hp => absurd hp hproc, ih (by omega)⟩

theorem mpRobust_iff {conf : Option (List UInt8)} {cpus : Nat → Cpu} :
    MpRobust conf cpus ↔ ∀ bytes, conf = some bytes → mpconfig bytes = true → MpFine bytes := by
  cases conf with
  | none => exact iff_of_true ⟨0, _, rfl, by simp⟩ (by simp)
  | some bytes =>
      by_cases hconf : mpconfig bytes = true
      · have hfine : (∀ b, some bytes = some b → mpconfig b = true → MpFine b) ↔ MpFine bytes := by
          refine ⟨fun h => h bytes rfl hconf, fun h b hb _ => ?_⟩
          cases hb
          exact h
        rw [hfine]
        constructor
        · rintro ⟨fuel, s, hrun, hcount⟩
          rw [mpinit, if_neg (not_not.2 hconf)] at hrun
          split at hrun
          · cases hrun
          · cases hrun
          · rename_i s₁ hwalk
            obtain ⟨ps, hps, hwhole, hle⟩ := (mpWalk_iff rfl).1 ⟨fuel, s₁, hwalk⟩
            obtain ⟨hismp, hncpu⟩ := mpWalk_end hwalk hps rfl rfl
            rw [if_neg (not_not.2 hismp)] at hrun
            cases hrun
            refine ⟨ps, hps, hwhole, hle, enabled_of_count ?_⟩
            have := (hcount hismp bytes rfl).1
            rwa [hps, Option.getD_some, hncpu] at this
        · rintro ⟨ps, hps, hwhole, hle, henabled⟩
          obtain ⟨fuel, s, hwalk⟩ := (mpWalk_iff (s := { boot cpus with bcpu := 0, ismp := true })
            rfl).2 ⟨ps, hps, hwhole, hle⟩
          obtain ⟨hismp, hncpu⟩ := mpWalk_end hwalk hps rfl rfl
          refine ⟨fuel, s, ?_, fun _ b hb => ?_⟩
          · rw [mpinit, if_neg (not_not.2 hconf), hwalk]
            exact if_neg (not_not.2 hismp)
          · cases hb
            rw [hps, Option.getD_some, hncpu]
            refine ⟨List.countP_congr fun t ht => ⟨henabled t ht, fun h => ?_⟩, hle⟩
            exact (Bool.and_eq_true_iff.1 h).1
      · refine iff_of_true ⟨0, { boot cpus with bcpu := 0 }, ?_, ?_⟩ fun b hb h => ?_
        · rw [mpinit, if_pos hconf]
        · rintro ⟨⟩
        · cases hb
          exact absurd h hconf

/-- The two loops do what they should exactly if their tables are fine. -/
theorem scans_robust_iff (madt conf : Option (List UInt8)) (cpus : Nat → Cpu) :
    AcpiRobust madt cpus ∧ MpRobust conf cpus ↔
      (∀ bytes, madt = some bytes → MADT_HEADER ≤ bytes.length → MadtFine bytes) ∧
      ∀ bytes, conf = some bytes → mpconfig bytes = true → MpFine bytes := by
  rw [acpiRobust_iff, mpRobust_iff]

/-- A table of 46 bytes, as its header says, with one entry, of length 0. -/
def emptyEntry : List UInt8 := (List.replicate 46 0).set 4 46

theorem acpi_empty_entry : ¬(AcpiRobust (some emptyEntry) (fun _ => ⟨0, 0⟩) ∧
    MpRobust none fun _ => ⟨0, 0⟩) := by
  rintro ⟨h, -⟩
  obtain ⟨ps, hps, -⟩ := acpiRobust_iff.1 h _ rfl (by decide)
  have hnone : madtEntries emptyEntry = none := by
    rw [madtEntries, places_stuck (n := 0) rfl (by simp [emptyEntry])]
  rw [hnone] at hps
  cases hps

end Scans

end Xv6.Kernel.Processors
