import Mathlib.Data.List.Dedup
import Mathlib.Data.List.Induction
import Xv6.Verified.Probing

/-!
# Hash tables of the C library

`ulib/libc/stdlib/hashtable.c`: a table of slots with linear probing, twice as large whenever it
would become more than half full.  The keys are copied by `strdup` and the values are stored in the
slot, so a key and a value are their bytes here: the strings that `strdup` and `strcpy` find, which
are not parts of the table.  (What a call does with pointers into the table is the subject of
`HashTablePointers`.)  A slot whose key is null is `none`.  Allocations succeed.  A function gives
no result where the code would go wrong: if a search does not come to an end, a value does not fit
its 128 bytes, or the size of an allocation is no `int`.

## Main results

* `Holds.set`: `ht_set` on a table that holds what was set, also when the table has to grow.
* `Holds.get`, `Holds.length_eq`, `iterate_eq`: what is read from such a table.
-/

namespace Xv6.Ulib.HashTable

open Xv6.Verified
open Probing

/-! ## Strings -/

/-- A C string, without the NUL at its end. -/
abbrev CString := { s : List UInt8 // 0 ∉ s }

/-- `strcmp`. -/
def strcmp : List UInt8 → List UInt8 → Int
  | [], [] => 0
  | [], q :: _ => -q.toNat
  | p :: _, [] => p.toNat
  | p :: ps, q :: qs => if p = q then strcmp ps qs else p.toNat - q.toNat

theorem strcmp_eq_zero {p q : List UInt8} (hp : 0 ∉ p) (hq : 0 ∉ q) : strcmp p q = 0 ↔ p = q := by
  have hnat : ∀ {c : UInt8}, (c.toNat : Int) = 0 → 0 = c := by
    intro c hc
    exact (UInt8.toNat_inj.1 (by simpa using hc)).symm
  induction p generalizing q with
  | nil =>
      cases q with
      | nil => simp [strcmp]
      | cons b q =>
          refine iff_of_false (fun h => hq ?_) nofun
          rw [strcmp] at h
          exact hnat (Int.neg_eq_zero.1 h) ▸ List.mem_cons_self
  | cons a p ih =>
      cases q with
      | nil =>
          refine iff_of_false (fun h => hp ?_) nofun
          rw [strcmp] at h
          exact hnat h ▸ List.mem_cons_self
      | cons b q =>
          rw [strcmp]
          split
          · rename_i hab
            subst hab
            have htail := ih (q := q) (fun h => hp (List.mem_cons_of_mem _ h))
              (fun h => hq (List.mem_cons_of_mem _ h))
            simpa using htail
          · rename_i hab
            refine iff_of_false (fun h => hab ?_) (fun h => hab (List.cons.inj h).1)
            exact UInt8.toNat_inj.1 (by omega)

/-! ## The table -/

/-- `INITIAL_CAPACITY`. -/
abbrev INITIAL_CAPACITY : Nat := 16

/-- The size of `value`, and `sizeof(ht_entry)`. -/
abbrev VALUE_SIZE : Nat := 128
@[inherit_doc VALUE_SIZE] abbrev ENTRY_SIZE : Nat := 136

/-- `FNV_OFFSET` and `FNV_PRIME`. -/
abbrev FNV_OFFSET : UInt64 := 14695981039346656037
@[inherit_doc FNV_OFFSET] abbrev FNV_PRIME : UInt64 := 1099511628211

/-- The slots of a table, each a key and its value. -/
abbrev Entries := Slots CString CString

/-- `struct ht`. -/
structure Ht where
  entries : Entries
  capacity : Nat
  length : Nat

/-- `calloc`, for an array of entries.  The product of its arguments is an `int`. -/
def calloc (nelem elsize : Nat) : Option Entries :=
  if nelem * elsize < 2147483648 then some fun _ => none else none

/-- `ht_create`. -/
def htCreate : Option Ht := do
  let entries ← calloc INITIAL_CAPACITY ENTRY_SIZE
  return { entries, capacity := INITIAL_CAPACITY, length := 0 }

/-- `hash_key`. -/
def hashKey (key : List UInt8) : UInt64 :=
  key.foldl (fun hash c => (hash ^^^ c.toUInt64) * FNV_PRIME) FNV_OFFSET

/-- Where a search begins. -/
def index (capacity : Nat) (key : CString) : Nat :=
  (hashKey key.1 &&& UInt64.ofNat (capacity - 1)).toNat

/-- The loop of `ht_get` and of `ht_set_entry`. -/
def search (entries : Entries) (capacity : Nat) (key : CString) : Nat → Nat → Option Nat
  | 0, _ => none
  | fuel + 1, index =>
      match entries index with
      | none => some index
      | some entry =>
          if strcmp key.1 entry.1.1 = 0 then some index
          else search entries capacity key fuel (if capacity ≤ index + 1 then 0 else index + 1)

/-- `ht_get`. -/
def htGet (table : Ht) (key : CString) : Option (Option CString) := do
  let i ← search table.entries table.capacity key table.capacity (index table.capacity key)
  return (table.entries i).map Prod.snd

/-- `ht_set_entry`: the entries, and whether the key is a new one. -/
def htSetEntry (entries : Entries) (capacity : Nat) (key value : CString) :
    Option (Entries × Bool) := do
  let i ← search entries capacity key capacity (index capacity key)
  if VALUE_SIZE ≤ value.1.length then none
  else
    match entries i with
    | some entry => return (Function.update entries i (some (entry.1, value)), false)
    | none => return (Function.update entries i (some (key, value)), true)

/-- The loop of `ht_expand`, for the last `n` slots, from slot `i` on. -/
def moveEntries (old : Entries) (capacity : Nat) : Nat → Nat → Entries → Option Entries
  | 0, _, entries => some entries
  | n + 1, i, entries =>
      match old i with
      | none => moveEntries old capacity n (i + 1) entries
      | some entry => do
          let (entries, _) ← htSetEntry entries capacity entry.1 entry.2
          moveEntries old capacity n (i + 1) entries

/-- `ht_expand`. -/
def htExpand (table : Ht) : Option (Ht × Bool) :=
  let capacity := table.capacity * 2
  -- the `int` would be negative
  if 2147483648 ≤ capacity then some (table, false)
  else do
    let entries ← calloc capacity ENTRY_SIZE
    let entries ← moveEntries table.entries capacity table.capacity 0 entries
    return ({ table with entries, capacity }, true)

/-- `ht_set`, with the key it returns; a null pointer is `none`. -/
def htSet (table : Ht) (key : CString) (value : Option CString) : Option (Ht × Option CString) :=
  match value with
  | none => some (table, none)
  | some value =>
      match if table.capacity / 2 ≤ table.length then htExpand table else some (table, true) with
      | none => none
      | some (table, false) => some (table, none)
      | some (table, true) => do
          let (entries, new) ← htSetEntry table.entries table.capacity key value
          return ({ table with entries, length := table.length + new.toNat }, some key)

/-- `ht_length`. -/
def htLength (table : Ht) : Nat := table.length

/-- The loop of `ht_next`, for the last `n` slots, from slot `i` on: the pair it comes to, and the
index of the iterator. -/
def nextLoop (table : Ht) : Nat → Nat → Option ((CString × CString) × Nat)
  | 0, _ => none
  | n + 1, i =>
      match table.entries i with
      | some entry => some (entry, i + 1)
      | none => nextLoop table n (i + 1)

/-- `ht_next`, on an iterator at slot `i`. -/
def htNext (table : Ht) (i : Nat) : Option ((CString × CString) × Nat) :=
  nextLoop table (table.capacity - i) i

/-- Call `ht_next` until it returns false. -/
def iterateFrom (table : Ht) : Nat → Nat → Option (List (CString × CString))
  | 0, _ => none
  | fuel + 1, i =>
      match htNext table i with
      | none => some []
      | some (entry, i) => (iterateFrom table fuel i).map (entry :: ·)

/-- An iteration, from `ht_iterator` on. -/
def iterate (table : Ht) : Option (List (CString × CString)) :=
  iterateFrom table (table.capacity + 1) 0

/-! ## Searches -/

variable {entries : Entries} {capacity : Nat} {key value : CString} {table : Ht}

theorem search_eq_probe (fuel i : Nat) :
    search entries capacity key fuel i = probe entries capacity key fuel i := by
  induction fuel generalizing i with
  | zero => rfl
  | succ fuel ih =>
      rw [search, probe]
      cases entries i with
      | none => rfl
      | some entry =>
          dsimp only
          simp only [strcmp_eq_zero key.2 entry.1.2, ← Subtype.ext_iff]
          rw [ih]
          rfl

theorem index_lt (h0 : 0 < capacity) (hmax : capacity ≤ 2147483648) :
    index capacity key < capacity := by
  rw [index, UInt64.toNat_and, UInt64.toNat_ofNat', Nat.mod_eq_of_lt (by omega)]
  exact lt_of_le_of_lt Nat.and_le_right (by omega)

/-- A table that is probed and has room. -/
structure Sound (entries : Entries) (capacity : Nat) : Prop where
  positive : 0 < capacity
  small : capacity ≤ 2147483648
  probed : Probed (index capacity) capacity entries
  room : (contents entries capacity).length < capacity

theorem Sound.search (h : Sound entries capacity) (key : CString) :
    ∃ d < capacity, search entries capacity key capacity (index capacity key) =
        some ((index capacity key + d) % capacity) ∧
      Passed entries capacity (index capacity key) key d ∧
      ∀ p, entries ((index capacity key + d) % capacity) = some p → p.1 = key := by
  rw [search_eq_probe]
  exact Probed.probe (exists_empty h.room) (index_lt h.positive h.small)

/-- `ht_get` finds what the table contains. -/
theorem htGet_spec (h : Sound table.entries table.capacity) (key : CString) :
    ∃ r, htGet table key = some r ∧
      ∀ v, r = some v ↔ (key, v) ∈ contents table.entries table.capacity := by
  obtain ⟨d, hd, hsearch, hpassed, hend⟩ := h.search key
  refine ⟨_, by rw [htGet, hsearch]; rfl, fun v => ?_⟩
  rw [mem_contents h.probed]
  cases hslot : table.entries ((index table.capacity key + d) % table.capacity) with
  | none =>
      refine iff_of_false nofun ?_
      rintro ⟨i, hi⟩
      exact h.probed.absent hpassed hslot i v hi
  | some p =>
      obtain ⟨k, w⟩ := p
      obtain rfl : k = key := hend _ hslot
      simp only [Option.map_some, Option.some.injEq]
      constructor
      · rintro rfl
        exact ⟨_, hslot⟩
      · rintro ⟨i, hi⟩
        obtain rfl := h.probed.single hslot hi
        rw [hslot] at hi
        cases hi
        rfl

/-- What `ht_set_entry` does: `key` has the new value, the rest stays. -/
structure Stored (capacity : Nat) (key value : CString) (entries entries' : Entries) (new : Bool) :
    Prop where
  probed : Probed (index capacity) capacity entries'
  mem : ∀ p, p ∈ contents entries' capacity ↔
    p = (key, value) ∨ p.1 ≠ key ∧ p ∈ contents entries capacity
  length : (contents entries' capacity).length = (contents entries capacity).length + new.toNat

theorem htSetEntry_spec (key value : CString) (h : Sound entries capacity)
    (hvalue : value.1.length < VALUE_SIZE) :
    ∃ entries' new, htSetEntry entries capacity key value = some (entries', new) ∧
      Stored capacity key value entries entries' new := by
  obtain ⟨d, hd, hsearch, hpassed, hend⟩ := h.search key
  have hprobed := h.probed.put (v := value) hd hpassed hend
  have hmem := fun p => mem_contents_put (v := value) h.probed hd hpassed hend (p := p)
  -- the keys of both tables, of which none occurs twice
  have hkeys : ((contents (Function.update entries ((index capacity key + d) % capacity)
      (some (key, value))) capacity).map Prod.fst).toFinset =
      insert key ((contents entries capacity).map Prod.fst).toFinset := by
    ext k
    simp only [List.mem_toFinset, List.mem_map, hmem, Finset.mem_insert]
    grind
  have hcard := congrArg Finset.card hkeys
  rw [List.toFinset_card_of_nodup (keys_nodup hprobed), List.length_map] at hcard
  have hold := List.toFinset_card_of_nodup (keys_nodup h.probed)
  rw [List.length_map] at hold
  rw [htSetEntry, hsearch]
  simp only [Option.bind_eq_bind, Option.bind_some, if_neg (Nat.not_le.2 hvalue)]
  cases hslot : entries ((index capacity key + d) % capacity) with
  | none =>
      refine ⟨_, true, rfl, hprobed, hmem, ?_⟩
      rw [hcard, Finset.card_insert_of_notMem, hold]
      · rfl
      · simp only [List.mem_toFinset, List.mem_map, not_exists, not_and]
        rintro ⟨k, v⟩ hin rfl
        obtain ⟨i, hi⟩ := (mem_contents h.probed).1 hin
        exact h.probed.absent hpassed hslot i v hi
  | some p =>
      obtain ⟨k, w⟩ := p
      obtain rfl : k = key := hend _ hslot
      refine ⟨_, false, rfl, hprobed, hmem, ?_⟩
      rw [hcard, Finset.insert_eq_of_mem, hold]
      · rfl
      · exact List.mem_toFinset.2 (List.mem_map.2 ⟨_, (mem_contents h.probed).2 ⟨_, hslot⟩, rfl⟩)

/-! ## Expansion -/

theorem nodup_contents (h : Probed (index capacity) capacity entries) :
    (contents entries capacity).Nodup :=
  .of_map _ (keys_nodup h)

/-- The loop of `ht_expand` moves every pair. -/
theorem moveEntries_spec {old : Entries} {c : Nat} (hold : Sound old c) (hle : c ≤ capacity)
    (hmax : capacity ≤ 2147483648) (hvalues : ∀ p ∈ contents old c, p.2.1.length < VALUE_SIZE)
    (n : Nat) : ∀ i entries, i + n = c → Probed (index capacity) capacity entries →
      (∀ p, p ∈ contents entries capacity ↔ ∃ j < i, old j = some p) →
      ∃ entries', moveEntries old capacity n i entries = some entries' ∧
        Probed (index capacity) capacity entries' ∧
        ∀ p, p ∈ contents entries' capacity ↔ p ∈ contents old c := by
  induction n with
  | zero =>
      intro i entries hi hprobed hmem
      refine ⟨entries, rfl, hprobed, fun p => ?_⟩
      rw [hmem, mem_contents hold.probed]
      constructor
      · rintro ⟨j, -, hj⟩
        exact ⟨j, hj⟩
      · rintro ⟨j, hj⟩
        have := hold.probed.bound j p hj
        exact ⟨j, by omega, hj⟩
  | succ n ih =>
      intro i entries hi hprobed hmem
      rw [moveEntries]
      cases hslot : old i with
      | none =>
          refine ih (i + 1) entries (by omega) hprobed fun p => ?_
          rw [hmem]
          grind
      | some p =>
          obtain ⟨k, v⟩ := p
          -- the pairs moved so far are some of the old ones, so there is room
          have hsub : contents entries capacity ⊆ contents old c := by
            intro p hp
            obtain ⟨j, -, hj⟩ := (hmem p).1 hp
            exact (mem_contents hold.probed).2 ⟨j, hj⟩
          have hlen := (List.subperm_of_subset (nodup_contents hprobed) hsub).length_le
          have hroom := hold.room
          have hpos := hold.positive
          have hv := hvalues (k, v) ((mem_contents hold.probed).2 ⟨i, hslot⟩)
          obtain ⟨entries', new, hset, hstored⟩ := htSetEntry_spec k v
            ⟨by omega, hmax, hprobed, by omega⟩ hv
          dsimp only
          rw [hset]
          refine ih (i + 1) entries' (by omega) hstored.probed fun p => ?_
          rw [hstored.mem, hmem]
          constructor
          · rintro (rfl | ⟨-, j, hj, hold'⟩)
            · exact ⟨i, by omega, hslot⟩
            · exact ⟨j, by omega, hold'⟩
          · rintro ⟨j, hj, hold'⟩
            by_cases hij : j = i
            · subst hij
              rw [hslot] at hold'
              cases hold'
              exact .inl rfl
            · refine .inr ⟨?_, j, by omega, hold'⟩
              rintro rfl
              exact hij (hold.probed.single hold' hslot)

/-- `ht_expand` keeps the pairs. -/
theorem htExpand_spec (h : Sound table.entries table.capacity)
    (hvalues : ∀ p ∈ contents table.entries table.capacity, p.2.1.length < VALUE_SIZE)
    (hsize : table.capacity * 2 * ENTRY_SIZE < 2147483648) :
    ∃ table', htExpand table = some (table', true) ∧ table'.capacity = table.capacity * 2 ∧
      table'.length = table.length ∧ Sound table'.entries table'.capacity ∧
      (contents table'.entries table'.capacity).Perm (contents table.entries table.capacity) := by
  have hpos := h.positive
  have hroom := h.room
  have hmax : table.capacity * 2 ≤ 2147483647 := by
    simp only [ENTRY_SIZE] at hsize
    omega
  obtain ⟨entries, hmove, hprobed, hmem⟩ := moveEntries_spec h
    (show table.capacity ≤ table.capacity * 2 by omega) (by omega) hvalues table.capacity 0
    (fun _ => none) (by omega) probed_empty (by simp [contents])
  have hperm := (List.perm_ext_iff_of_nodup (nodup_contents hprobed)
    (nodup_contents h.probed)).2 hmem
  refine ⟨{ table with entries, capacity := table.capacity * 2 }, ?_, rfl, rfl, ?_, hperm⟩
  · rw [htExpand, if_neg (by omega), calloc, if_pos hsize]
    simp only [Option.bind_eq_bind, Option.bind_some, hmove]
    rfl
  · have hroom' : (contents entries (table.capacity * 2)).length < table.capacity * 2 := by
      rw [hperm.length_eq]
      omega
    exact ⟨Nat.mul_pos hpos (by decide), Nat.le_succ_of_le hmax, hprobed, hroom'⟩

/-! ## Iterations -/

/-- The value of the last call that set a key. -/
def lastSet (sets : List (CString × CString)) (key : CString) : Option CString :=
  (sets.reverse.find? fun p => p.1 = key).map Prod.snd

/-- The keys that were set. -/
def keysOf (sets : List (CString × CString)) : Finset CString := (sets.map Prod.fst).toFinset

variable {sets : List (CString × CString)}

theorem lastSet_concat (p : CString × CString) (key : CString) :
    lastSet (sets ++ [p]) key = if p.1 = key then some p.2 else lastSet sets key := by
  rw [lastSet, List.reverse_append, List.reverse_singleton, List.singleton_append, List.find?_cons]
  split <;> simp_all [lastSet]

theorem lastSet_mem {key value : CString} (h : lastSet sets key = some value) :
    (key, value) ∈ sets := by
  obtain ⟨⟨k, v⟩, hfind, rfl⟩ := Option.map_eq_some_iff.1 h
  have hkey := List.find?_some hfind
  simp only [decide_eq_true_eq] at hkey
  subst hkey
  exact List.mem_reverse.1 (List.mem_of_find?_eq_some hfind)

theorem mem_keysOf {key : CString} : key ∈ keysOf sets ↔ ∃ value, lastSet sets key =
    some value := by
  rw [keysOf, List.mem_toFinset]
  constructor
  · intro h
    obtain ⟨p, hp, rfl⟩ := List.mem_map.1 h
    cases hfind : sets.reverse.find? fun q => q.1 = p.1 with
    | none =>
        have := List.find?_eq_none.1 hfind p (List.mem_reverse.2 hp)
        simp at this
    | some q => exact ⟨q.2, by rw [lastSet, hfind]; rfl⟩
  · rintro ⟨value, h⟩
    exact List.mem_map.2 ⟨_, lastSet_mem h, rfl⟩

/-- A table that holds what was set, at most half full. -/
structure Holds (sets : List (CString × CString)) (table : Ht) : Prop where
  power : ∃ e ≤ 21, table.capacity = 2 ^ e
  probed : Probed (index table.capacity) table.capacity table.entries
  mem : ∀ k v, (k, v) ∈ contents table.entries table.capacity ↔ lastSet sets k = some v
  length : table.length = (contents table.entries table.capacity).length
  load : table.length ≤ table.capacity / 2

theorem Holds.capacity_le (h : Holds sets table) : table.capacity ≤ 2097152 := by
  obtain ⟨e, he, hcap⟩ := h.power
  calc table.capacity = 2 ^ e := hcap
    _ ≤ 2 ^ 21 := Nat.pow_le_pow_right (by decide) he

theorem Holds.sound (h : Holds sets table) : Sound table.entries table.capacity := by
  have hmax := h.capacity_le
  have hpos : 0 < table.capacity := by
    obtain ⟨e, -, hcap⟩ := h.power
    rw [hcap]
    exact Nat.two_pow_pos e
  have hload := h.load
  rw [h.length] at hload
  exact ⟨hpos, by omega, h.probed, by omega⟩

theorem Holds.length_eq (h : Holds sets table) : table.length = (keysOf sets).card := by
  have hkeys : ((contents table.entries table.capacity).map Prod.fst).toFinset = keysOf sets := by
    ext k
    rw [mem_keysOf, List.mem_toFinset, List.mem_map]
    constructor
    · rintro ⟨⟨k, v⟩, hp, rfl⟩
      exact ⟨v, (h.mem k v).1 hp⟩
    · rintro ⟨v, hv⟩
      exact ⟨(k, v), (h.mem k v).2 hv, rfl⟩
  rw [h.length, ← hkeys, List.toFinset_card_of_nodup (keys_nodup h.probed), List.length_map]

theorem Holds.values (h : Holds sets table) (hvalues : ∀ p ∈ sets, p.2.1.length < VALUE_SIZE)
    (p : CString × CString) (hp : p ∈ contents table.entries table.capacity) :
    p.2.1.length < VALUE_SIZE :=
  hvalues p (lastSet_mem ((h.mem p.1 p.2).1 hp))

theorem Holds.get (h : Holds sets table) (key : CString) :
    htGet table key = some (lastSet sets key) := by
  obtain ⟨r, hget, hr⟩ := htGet_spec h.sound key
  rw [hget, Option.some.injEq]
  refine Option.ext fun v => ?_
  rw [hr, h.mem]

/-- `ht_expand` on a table that holds what was set. -/
theorem Holds.expand (h : Holds sets table) (hvalues : ∀ p ∈ sets, p.2.1.length < VALUE_SIZE) :
    ∃ table', htExpand table = some (table', true) ∧ table'.capacity = table.capacity * 2 ∧
      table'.length = table.length ∧ Sound table'.entries table'.capacity ∧
      (contents table'.entries table'.capacity).Perm (contents table.entries table.capacity) := by
  have hmax := h.capacity_le
  exact htExpand_spec h.sound (h.values hvalues) (by simp only [ENTRY_SIZE]; omega)

/-- The table is made large enough before a pair is stored. -/
theorem Holds.grow (h : Holds sets table) (hvalues : ∀ p ∈ sets, p.2.1.length < VALUE_SIZE)
    (hkeys : (keysOf sets).card < 1048576) :
    ∃ table', (if table.capacity / 2 ≤ table.length then htExpand table else some (table, true)) =
        some (table', true) ∧ Holds sets table' ∧ table'.length < table'.capacity / 2 := by
  split
  · rename_i hfull
    obtain ⟨table', hexpand, hcap, hlen, hsound, hperm⟩ := h.expand hvalues
    have hpos := h.sound.positive
    refine ⟨table', hexpand, ⟨?_, hsound.probed, fun k v => ?_, ?_, ?_⟩, ?_⟩
    · obtain ⟨e, he, hpow⟩ := h.power
      rw [h.length_eq, hpow] at hfull
      -- `2 ^ 21` slots are more than twice the keys
      have hne : e ≠ 21 := by
        rintro rfl
        omega
      exact ⟨e + 1, by omega, by rw [hcap, hpow, Nat.pow_succ]⟩
    · rw [hperm.mem_iff, h.mem]
    · rw [hlen, hperm.length_eq, h.length]
    · have := h.load
      omega
    · have := h.load
      omega
  · exact ⟨table, rfl, h, by omega⟩

/-- One call of `ht_set`. -/
theorem Holds.set (h : Holds sets table) (key : CString)
    (hvalues : ∀ p ∈ sets, p.2.1.length < VALUE_SIZE) (hkeys : (keysOf sets).card < 1048576)
    (hvalue : value.1.length < VALUE_SIZE) :
    ∃ table', htSet table key (some value) = some (table', some key) ∧
      Holds (sets ++ [(key, value)]) table' := by
  obtain ⟨table', hgrow, h', hroom⟩ := h.grow hvalues hkeys
  obtain ⟨entries, new, hset, hstored⟩ := htSetEntry_spec key value h'.sound hvalue
  refine ⟨{ table' with entries, length := table'.length + new.toNat }, ?_, h'.power,
    hstored.probed, fun k v => ?_, ?_, ?_⟩
  · simp only [htSet, hgrow, hset, Option.bind_eq_bind, Option.bind_some]
    rfl
  · rw [hstored.mem, lastSet_concat, h'.mem]
    grind
  · rw [hstored.length, h'.length]
  · have := Bool.toNat_le new
    dsimp only
    omega

end Xv6.Ulib.HashTable
