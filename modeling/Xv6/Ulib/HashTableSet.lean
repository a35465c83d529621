import Xv6.Ulib.HashTable

/-!
# `ht_set` when memory is short

`ht_set` of `ulib/libc/stdlib/hashtable.c` makes at most two allocations: the entries of the larger
table, and the copy of a new key.  Each of them may fail.  A call comes to a fault where it would
store through a null pointer or behind the 128 bytes of a value.  The value is the string that
`strcpy` finds, and it does not point into the entries of the table.

## Main results

* `set_all_or_nothing_iff`: when a call leaves the table as it was and returns a null pointer, or
  sets its key and nothing else.
-/

namespace Xv6.Ulib.HashTable

open Xv6.Verified
open Probing

/-! ## The functions -/

/-- The size of the memory.  The entries of a table are in it. -/
abbrev MEMORY_SIZE : Nat := 0xE000000

/-- What goes wrong. -/
inductive Fault where
  /-- `strdup` stores the key through a null pointer. -/
  | nullStore
  /-- `strcpy` stores behind `value`. -/
  | outside
  /-- The search does not end. -/
  | endless
  deriving DecidableEq

/-- `strdup`, when `malloc` succeeds or not. -/
def strdup (malloc : Bool) (src : CString) : Except Fault CString :=
  if malloc then .ok src else .error .nullStore

/-- `strcpy` to `value`. -/
def strcpy (src : CString) : Except Fault CString :=
  if src.1.length < VALUE_SIZE then .ok src else .error .outside

/-- `ht_set_entry` with a length, when `malloc` succeeds or not: the entries and whether the key is
a new one. -/
def setEntry (malloc : Bool) (entries : Entries) (capacity : Nat) (key value : CString) :
    Except Fault (Entries × Bool) :=
  match search entries capacity key capacity (index capacity key) with
  | none => .error .endless
  | some i =>
      match entries i with
      | some entry => do
          let value ← strcpy value
          return (Function.update entries i (some (entry.1, value)), false)
      | none => do
          let key ← strdup malloc key
          let value ← strcpy value
          return (Function.update entries i (some (key, value)), true)

/-- `ht_expand`, when the `malloc` of `calloc` succeeds or not.  It does not if there is less memory
than the new entries need. -/
def expand (malloc : Bool) (table : Ht) : Option (Ht × Bool) :=
  if malloc ∧ table.capacity * 2 * ENTRY_SIZE ≤ MEMORY_SIZE then htExpand table
  else some (table, false)

/-- `ht_set`, when the entries of the larger table and the key can be allocated or not. -/
def set (newEntries newKey : Bool) (table : Ht) (key : CString) (value : Option CString) :
    Except Fault (Ht × Option CString) :=
  match value with
  | none => .ok (table, none)
  | some value =>
      match if table.capacity / 2 ≤ table.length then expand newEntries table
        else some (table, true) with
      | none => .error .endless
      | some (table, false) => .ok (table, none)
      | some (table, true) => do
          let (entries, new) ← setEntry newKey table.entries table.capacity key value
          return ({ table with entries, length := table.length + new.toNat }, some key)

/-- The tables that are made by `ht_create` and calls of `ht_set` that come to no fault. -/
inductive Reachable : Ht → Prop
  | create {table : Ht} (h : htCreate = some table) : Reachable table
  | set {table table' : Ht} {newEntries newKey : Bool} {key : CString} {value r : Option CString}
      (h : Reachable table)
      (hset : HashTable.set newEntries newKey table key value = .ok (table', r)) : Reachable table'

/-! ## One call -/

variable {entries : Entries} {capacity : Nat} {key value : CString} {table : Ht}
  {newEntries newKey : Bool}

/-- A table that is at most half full, with values that fit. -/
structure Valid (table : Ht) : Prop where
  power : ∃ e, table.capacity = 2 ^ (e + 1)
  memory : table.capacity * ENTRY_SIZE ≤ MEMORY_SIZE
  probed : Probed (index table.capacity) table.capacity table.entries
  length : table.length = (contents table.entries table.capacity).length
  load : table.length ≤ table.capacity / 2
  values : ∀ p ∈ contents table.entries table.capacity, p.2.1.length < VALUE_SIZE

theorem Valid.small (h : Valid table) : 2 ≤ table.capacity ∧ table.capacity * 136 ≤ 234881024 := by
  obtain ⟨e, he⟩ := h.power
  have hpos := Nat.two_pow_pos e
  refine ⟨?_, h.memory⟩
  rw [he, Nat.pow_succ]
  omega

theorem Valid.sound (h : Valid table) : Sound table.entries table.capacity := by
  obtain ⟨htwo, hmax⟩ := h.small
  have hload := h.load
  rw [h.length] at hload
  exact ⟨by omega, by omega, h.probed, by omega⟩

theorem valid_create : ∃ table, htCreate = some table ∧ Valid table :=
  ⟨_, rfl, ⟨3, rfl⟩, by decide, probed_empty, by simp [contents], by simp,
    by simp [contents]⟩

/-- `ht_set_entry` succeeds if the value fits and a new key can be copied. -/
theorem setEntry_ok_iff (h : Sound entries capacity) (r : Entries × Bool) :
    setEntry newKey entries capacity key value = .ok r ↔
      htSetEntry entries capacity key value = some r ∧ (r.2 = true → newKey = true) := by
  obtain ⟨d, -, hsearch, -⟩ := h.search key
  rw [setEntry, htSetEntry, hsearch]
  simp only [Option.bind_eq_bind, Option.bind_some]
  cases hslot : entries ((index capacity key + d) % capacity) with
  | some entry =>
      by_cases hlen : value.1.length < VALUE_SIZE
      · simp only [strcpy, if_pos hlen, if_neg (Nat.not_le.2 hlen)]
        constructor
        · intro heq
          cases heq
          exact ⟨rfl, nofun⟩
        · rintro ⟨heq, -⟩
          cases heq
          rfl
      · simp only [strcpy, if_neg hlen, if_pos (Nat.le_of_not_lt hlen)]
        exact iff_of_false nofun fun hfalse => nomatch hfalse.1
  | none =>
      by_cases hlen : value.1.length < VALUE_SIZE
      · cases newKey with
        | true =>
            simp only [strcpy, strdup, if_pos hlen, if_neg (Nat.not_le.2 hlen), if_true]
            constructor
            · intro heq
              cases heq
              exact ⟨rfl, fun _ => trivial⟩
            · rintro ⟨heq, -⟩
              cases heq
              rfl
        | false =>
            simp only [strdup, if_neg (Nat.not_le.2 hlen), Bool.false_eq_true, if_false]
            refine iff_of_false nofun ?_
            rintro ⟨heq, hnew⟩
            cases heq
            exact hnew rfl
      · simp only [if_pos (Nat.le_of_not_lt hlen)]
        refine iff_of_false (fun heq => ?_) fun hfalse => nomatch hfalse.1
        cases newKey with
        | true =>
            simp only [strdup, if_true, strcpy, if_neg hlen] at heq
            cases heq
        | false => cases heq

theorem htSetEntry_fits (h : Sound entries capacity) {r : Entries × Bool}
    (hset : htSetEntry entries capacity key value = some r) : value.1.length < VALUE_SIZE := by
  by_contra hlong
  obtain ⟨d, -, hsearch, -⟩ := h.search key
  rw [htSetEntry, hsearch] at hset
  simp only [Option.bind_eq_bind, Option.bind_some, if_pos (Nat.le_of_not_lt hlong)] at hset
  cases hset

/-- Which key is new. -/
theorem htSetEntry_new (h : Sound entries capacity) {r : Entries × Bool}
    (hset : htSetEntry entries capacity key value = some r) :
    r.2 = false ↔ ∃ v, (key, v) ∈ contents entries capacity := by
  obtain ⟨d, -, hsearch, hpassed, hend⟩ := h.search key
  rw [htSetEntry, hsearch] at hset
  simp only [Option.bind_eq_bind, Option.bind_some] at hset
  split at hset
  · cases hset
  · cases hslot : entries ((index capacity key + d) % capacity) with
    | some entry =>
        rw [hslot] at hset
        cases hset
        obtain ⟨k, v⟩ := entry
        obtain rfl : k = key := hend _ hslot
        exact iff_of_true rfl ⟨v, (mem_contents h.probed).2 ⟨_, hslot⟩⟩
    | none =>
        rw [hslot] at hset
        cases hset
        refine iff_of_false (by simp) ?_
        rintro ⟨v, hv⟩
        obtain ⟨i, hi⟩ := (mem_contents h.probed).1 hv
        exact h.probed.absent hpassed hslot i v hi

theorem htGet_congr {table' : Ht} (h : Sound table.entries table.capacity)
    (h' : Sound table'.entries table'.capacity) {k : CString}
    (hmem : ∀ v, (k, v) ∈ contents table'.entries table'.capacity ↔
      (k, v) ∈ contents table.entries table.capacity) : htGet table' k = htGet table k := by
  obtain ⟨r, hget, hr⟩ := htGet_spec h k
  obtain ⟨r', hget', hr'⟩ := htGet_spec h' k
  rw [hget, hget', Option.some.injEq]
  refine Option.ext fun v => ?_
  rw [hr, hr', hmem]

/-- `ht_expand`: the table as it was, or a larger one with the same pairs. -/
theorem Valid.expand (h : Valid table) (newEntries : Bool) :
    if newEntries ∧ table.capacity * 2 * ENTRY_SIZE ≤ MEMORY_SIZE then
      ∃ table', HashTable.expand newEntries table = some (table', true) ∧ Valid table' ∧
        table'.length < table'.capacity / 2 ∧ table'.length = table.length ∧
        (contents table'.entries table'.capacity).Perm (contents table.entries table.capacity)
    else HashTable.expand newEntries table = some (table, false) := by
  rw [HashTable.expand]
  split
  · rename_i hroom
    obtain ⟨htwo, hmax⟩ := h.small
    obtain ⟨e, he⟩ := h.power
    have hload := h.load
    have hsize : table.capacity * 2 * ENTRY_SIZE ≤ 234881024 := hroom.2
    obtain ⟨table', hexpand, hcap, hlen, hsound, hperm⟩ := htExpand_spec h.sound h.values (by omega)
    refine ⟨table', hexpand, ⟨⟨e + 1, by rw [hcap, he, Nat.pow_succ _ (e + 1)]⟩,
      by rw [hcap]; exact hsize, hsound.probed, ?_, ?_, fun p hp => ?_⟩, by omega, hlen, hperm⟩
    · rw [hlen, hperm.length_eq, h.length]
    · omega
    · exact h.values p (hperm.mem_iff.1 hp)
  · rfl

/-- A pair is stored in a table that has room for it. -/
theorem Valid.setEntry (h : Valid table) (hroom : table.length < table.capacity / 2)
    {r : Entries × Bool}
    (hset : HashTable.setEntry newKey table.entries table.capacity key value = .ok r) :
    Valid { table with entries := r.1, length := table.length + r.2.toNat } ∧
      htGet { table with entries := r.1, length := table.length + r.2.toNat } key =
        some (some value) ∧
      ∀ k ≠ key, htGet { table with entries := r.1, length := table.length + r.2.toNat } k =
        htGet table k := by
  obtain ⟨hok, -⟩ := (setEntry_ok_iff h.sound r).1 hset
  have hvalue := htSetEntry_fits h.sound hok
  obtain ⟨entries', new, hset', hstored⟩ := htSetEntry_spec key value h.sound hvalue
  obtain rfl : r = (entries', new) := Option.some.inj (hok.symm.trans hset')
  have hnew := Bool.toNat_le new
  have hvalid : Valid { table with entries := entries', length := table.length + new.toNat } := by
    refine ⟨h.power, h.memory, hstored.probed, ?_, ?_, fun p hp => ?_⟩
    · rw [hstored.length, h.length]
    · dsimp only
      omega
    · rcases (hstored.mem p).1 hp with rfl | ⟨-, hp⟩
      · exact hvalue
      · exact h.values p hp
  refine ⟨hvalid, ?_, fun k hk => ?_⟩
  · obtain ⟨r, hget, hr⟩ := htGet_spec hvalid.sound key
    rw [hget, (hr value).2 ((hstored.mem _).2 (.inl rfl))]
  · refine htGet_congr h.sound hvalid.sound fun v => ?_
    rw [hstored.mem]
    constructor
    · rintro (heq | ⟨-, hv⟩)
      · exact absurd (Prod.mk.inj heq).1 hk
      · exact hv
    · exact fun hv => .inr ⟨hk, hv⟩

/-- A call leaves the table as it was and returns a null pointer, or sets its key alone. -/
def AllOrNothing (table : Ht) (key : CString) (value : Option CString) (table' : Ht)
    (r : Option CString) : Prop :=
  (r = none ∧ (∀ k, htGet table' k = htGet table k) ∧ htLength table' = htLength table) ∨
  (r = some key ∧ htGet table' key = some value ∧ ∀ k ≠ key, htGet table' k = htGet table k)

/-- The larger table that a call needs cannot be allocated. -/
def CannotGrow (newEntries : Bool) (table : Ht) : Prop :=
  table.capacity / 2 ≤ table.length ∧
    ¬(newEntries = true ∧ table.capacity * 2 * ENTRY_SIZE ≤ MEMORY_SIZE)

/-- The value fits, and the key is there already or can be copied. -/
def CanStore (newKey : Bool) (table : Ht) (key value : CString) : Prop :=
  value.1.length < VALUE_SIZE ∧ ((∃ v, htGet table key = some (some v)) ∨ newKey = true)

variable {table₁ : Ht}

/-- Storing a pair in a table that has room and the pairs of `table`. -/
theorem Valid.store (h : Valid table) (h₁ : Valid table₁) (newKey : Bool) (key value : CString)
    (hroom : table₁.length < table₁.capacity / 2)
    (hperm : (contents table₁.entries table₁.capacity).Perm
      (contents table.entries table.capacity)) :
    (∀ r, HashTable.setEntry newKey table₁.entries table₁.capacity key value = .ok r →
      Valid { table₁ with entries := r.1, length := table₁.length + r.2.toNat } ∧
      AllOrNothing table key (some value)
        { table₁ with entries := r.1, length := table₁.length + r.2.toNat } (some key)) ∧
    ((∃ r, HashTable.setEntry newKey table₁.entries table₁.capacity key value = .ok r) ↔
      CanStore newKey table key value) := by
  refine ⟨fun r hr => ?_, ?_⟩
  · obtain ⟨hvalid, hkey, hother⟩ := h₁.setEntry hroom hr
    refine ⟨hvalid, .inr ⟨rfl, hkey, fun k hk => (hother k hk).trans ?_⟩⟩
    exact htGet_congr h.sound h₁.sound fun v => hperm.mem_iff
  · have hpresent : (∃ v, htGet table key = some (some v)) ↔
        ∃ v, (key, v) ∈ contents table₁.entries table₁.capacity := by
      obtain ⟨r, hget, hr⟩ := htGet_spec h.sound key
      simp only [hget, Option.some.injEq, hr, hperm.mem_iff]
    rw [CanStore, hpresent]
    constructor
    · rintro ⟨r, hr⟩
      obtain ⟨hok, hnew⟩ := (setEntry_ok_iff h₁.sound r).1 hr
      refine ⟨htSetEntry_fits h₁.sound hok, ?_⟩
      rw [← htSetEntry_new h₁.sound hok]
      cases hr2 : r.2 with
      | false => exact .inl rfl
      | true => exact .inr (hnew hr2)
    · rintro ⟨hlen, hcopy⟩
      obtain ⟨entries', new, hset, -⟩ := htSetEntry_spec key value h₁.sound hlen
      refine ⟨(entries', new), (setEntry_ok_iff h₁.sound _).2 ⟨hset, fun hnew => ?_⟩⟩
      rw [← htSetEntry_new h₁.sound hset] at hcopy
      refine hcopy.resolve_left fun hold => ?_
      rw [hnew] at hold
      cases hold

/-- A call on a table that has grown to `table₁`, or need not grow and is `table₁` itself. -/
theorem Valid.set_grown (h : Valid table) (h₁ : Valid table₁)
    (hroom : table₁.length < table₁.capacity / 2)
    (hperm : (contents table₁.entries table₁.capacity).Perm
      (contents table.entries table.capacity))
    (hstep : (if table.capacity / 2 ≤ table.length then HashTable.expand newEntries table
      else some (table, true)) = some (table₁, true)) :
    (∀ table' r, HashTable.set newEntries newKey table key (some value) = .ok (table', r) →
      Valid table' ∧ AllOrNothing table key (some value) table' r) ∧
    ((∃ table' r, HashTable.set newEntries newKey table key (some value) = .ok (table', r)) ↔
      CanStore newKey table key value) := by
  obtain ⟨hall, hcan⟩ := h.store h₁ newKey key value hroom hperm
  have hset : HashTable.set newEntries newKey table key (some value) =
      (HashTable.setEntry newKey table₁.entries table₁.capacity key value).map fun r =>
        ({ table₁ with entries := r.1, length := table₁.length + r.2.toNat }, some key) := by
    rw [HashTable.set, hstep]
    dsimp only
    cases HashTable.setEntry newKey table₁.entries table₁.capacity key value <;> rfl
  rw [hset, ← hcan]
  cases hr : HashTable.setEntry newKey table₁.entries table₁.capacity key value with
  | error e =>
      refine ⟨fun table' r heq => (nomatch heq), iff_of_false ?_ nofun⟩
      rintro ⟨table', r, heq⟩
      cases heq
  | ok q =>
      refine ⟨fun table' r heq => ?_, iff_of_true ⟨_, _, rfl⟩ ⟨q, rfl⟩⟩
      cases heq
      exact hall q hr

/-- A call comes to no fault if and only if nothing is to be set, or the table cannot grow, or the
pair can be stored. -/
theorem Valid.set (h : Valid table) (newEntries newKey : Bool) (key : CString)
    (value : Option CString) :
    (∀ table' r, HashTable.set newEntries newKey table key value = .ok (table', r) →
      Valid table' ∧ AllOrNothing table key value table' r) ∧
    ((∃ table' r, HashTable.set newEntries newKey table key value = .ok (table', r)) ↔
      value = none ∨ CannotGrow newEntries table ∨
        ∃ v, value = some v ∧ CanStore newKey table key v) := by
  cases value with
  | none =>
      refine ⟨fun table' r heq => ?_, iff_of_true ⟨_, _, rfl⟩ (.inl rfl)⟩
      cases heq
      exact ⟨h, .inl ⟨rfl, fun _ => rfl, rfl⟩⟩
  | some value =>
      by_cases hgrow : CannotGrow newEntries table
      · have hexpand := h.expand newEntries
        rw [if_neg hgrow.2] at hexpand
        have hset : HashTable.set newEntries newKey table key (some value) =
            .ok (table, none) := by
          rw [HashTable.set, if_pos hgrow.1, hexpand]
        rw [hset]
        refine ⟨fun table' r heq => ?_, iff_of_true ⟨_, _, rfl⟩ (.inr (.inl hgrow))⟩
        cases heq
        exact ⟨h, .inl ⟨rfl, fun _ => rfl, rfl⟩⟩
      · simp only [reduceCtorEq, hgrow, false_or, Option.some.injEq, exists_eq_left']
        by_cases hfull : table.capacity / 2 ≤ table.length
        · have hexpand := h.expand newEntries
          rw [if_pos (Classical.not_not.1 fun hno => hgrow ⟨hfull, hno⟩)] at hexpand
          obtain ⟨table₁, hstep, h₁, hroom, -, hperm⟩ := hexpand
          exact h.set_grown h₁ hroom hperm (by rw [if_pos hfull, hstep])
        · exact h.set_grown h (by omega) (.refl _) (if_neg hfull)

theorem Reachable.valid (h : Reachable table) : Valid table := by
  induction h with
  | create h =>
      obtain ⟨table, hcreate, hvalid⟩ := valid_create
      obtain rfl := Option.some.inj (hcreate.symm.trans h)
      exact hvalid
  | set _ hset ih => exact ((ih.set _ _ _ _).1 _ _ hset).1

/-- On every table, for every key and value, and whatever allocations fail, `ht_set` comes to no
fault and either returns a null pointer with the table as it was or sets its key alone, if and only
if nothing is to be set, or the table has to grow and cannot, or the value has at most 127 bytes and
the key is there already or can be copied. -/
theorem set_all_or_nothing_iff (table : Ht) (h : Reachable table) (key : CString)
    (value : Option CString) (newEntries newKey : Bool) :
    (∃ table' r, set newEntries newKey table key value = .ok (table', r) ∧
      AllOrNothing table key value table' r) ↔
    value = none ∨ CannotGrow newEntries table ∨
      ∃ v, value = some v ∧ CanStore newKey table key v := by
  obtain ⟨hall, hiff⟩ := h.valid.set newEntries newKey key value
  rw [← hiff]
  constructor
  · rintro ⟨table', r, hset, -⟩
    exact ⟨table', r, hset⟩
  · rintro ⟨table', r, hset⟩
    exact ⟨table', r, hset, (hall table' r hset).2⟩

/-- An empty table. -/
def emptyTable : Ht := ⟨fun _ => none, INITIAL_CAPACITY, 0⟩

/-- `A` is set to `1` in it. -/
theorem set_empty_table : ∃ table' r,
    set true true emptyTable ⟨[65], by decide⟩ (some ⟨[49], by decide⟩) = .ok (table', r) ∧
      AllOrNothing emptyTable ⟨[65], by decide⟩ (some ⟨[49], by decide⟩) table' r :=
  (set_all_or_nothing_iff emptyTable (.create rfl) ⟨[65], by decide⟩ (some ⟨[49], by decide⟩)
    true true).2 (.inr (.inr ⟨_, rfl, by decide, .inr rfl⟩))

/-- The key cannot be copied. -/
theorem set_stores_through_null :
    Reachable emptyTable ∧
      set true false emptyTable ⟨[65], by decide⟩ (some ⟨[49], by decide⟩) = .error .nullStore :=
  ⟨.create rfl, by rfl⟩

end Xv6.Ulib.HashTable
