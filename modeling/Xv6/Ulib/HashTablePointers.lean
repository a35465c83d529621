import Xv6.Ulib.HashTable
import Xv6.Verified.Transitions

/-!
# Hash tables and the pointers that `ht_get` returns

`ht_get` returns a pointer to the value inside the array of entries, and `ht_set` takes pointers.
When it has to grow the table, `ht_expand` frees the old array before `ht_set_entry` reads its
`key` and `value`; and `strdup` calls `malloc` in between, which takes a new block from the end of
a free one.  A pointer into the old array is then read where the copy of the key has been written.

## Main results

* `hashtable_of_run`: as long as no call that grows the table for a new key is given such a
  pointer, `ht_get` gives the last value of each key, `ht_length` the number of keys and an
  iteration each pair once, also after an expansion.
* `value_overwritten`: such a call stores the key as its value.
-/

namespace Xv6.Ulib.HashTable

open Xv6.Verified
open Probing

/-! ## The freed array -/

/-- The value in slot `i`, from the beginning of the array. -/
def valueAt (i : Nat) : Nat := i * ENTRY_SIZE + 8

/-- The bytes of an array of entries.  Its pointers to keys, and what is behind the NUL of a value,
are not read and count as 0. -/
def bytesOf (entries : Entries) (o : Nat) : UInt8 :=
  match entries (o / ENTRY_SIZE) with
  | some entry => if o % ENTRY_SIZE < 8 then 0 else entry.2.1.getD (o % ENTRY_SIZE - 8) 0
  | none => 0

/-- `p->s.size = nunits` of `malloc`, in front of the block at `b`. -/
def writeHeader (mem : Nat → UInt8) (b nunits : Nat) (o : Nat) : UInt8 :=
  if b ≤ o + 8 ∧ o + 8 < b + 4 then UInt8.ofNat (nunits / 256 ^ (o + 8 - b)) else mem o

/-- A string is written at `b`, with its NUL. -/
def writeString (mem : Nat → UInt8) (b : Nat) (src : List UInt8) (o : Nat) : UInt8 :=
  if b ≤ o ∧ o ≤ b + src.length then src.getD (o - b) 0 else mem o

/-- `while (*src) *p++ = *src++; *p = '\0'`, where both are in the array. -/
def copyLoop : Nat → (Nat → UInt8) → Nat → Nat → Option (Nat → UInt8)
  | 0, _, _, _ => none
  | fuel + 1, mem, src, p =>
      if mem src = 0 then some (Function.update mem p 0)
      else copyLoop fuel (Function.update mem p (mem src)) (src + 1) (p + 1)

/-- The string at `o`. -/
def stringAt (mem : Nat → UInt8) : Nat → Nat → Option CString
  | 0, _ => none
  | fuel + 1, o =>
      if h : mem o = 0 then some ⟨[], List.not_mem_nil⟩
      else (stringAt mem fuel (o + 1)).map fun s => ⟨mem o :: s.1, by simp [Ne.symm h, s.2]⟩

/-! ## Calls -/

/-- A string that is passed to `ht_set`: one of the caller's own, or what `ht_get` returns. -/
inductive Arg where
  | own (s : CString)
  | got (key : CString)

/-- The string that a pointer is to, and its slot if it points into the table; a null pointer is
`none`. -/
def Arg.find (table : Ht) : Arg → Option (Option (Option Nat × CString))
  | .own s => some (some (none, s))
  | .got key => do
      let i ← search table.entries table.capacity key table.capacity (index table.capacity key)
      return (table.entries i).map fun entry => (some i, entry.2)

/-- A call of `ht_set`.  If the old array is freed and the key copied, `block` says where in that
array `malloc` puts the copy; it may also be elsewhere. -/
structure Call where
  key : Arg
  value : Arg
  block : Option Nat

/-- `ht_set` makes the table larger first. -/
def Grows (table : Ht) : Prop := table.capacity / 2 ≤ table.length

instance (table : Ht) : Decidable (Grows table) := inferInstanceAs (Decidable (_ ≤ _))

/-- What `ht_set_entry` stores for a new key when the array of `entries` has been freed and the
copy of the key is at `b` in it: `strdup` allocates and copies, then `strcpy` reads the value. -/
def readFreed (entries : Entries) (fuel b : Nat) (key value : Option Nat × CString) :
    Option (CString × CString) := do
  let mem := writeHeader (bytesOf entries) b ((key.2.1.length + 16) / 16 + 1)
  let mem ← match key.1 with
    | none => some (writeString mem b key.2.1)
    | some i => copyLoop fuel mem (valueAt i) b
  let copy ← if key.1 = none then some key.2 else stringAt mem fuel b
  let found ← match value.1 with
    | none => some value.2
    | some i => stringAt mem fuel (valueAt i)
  return (copy, found)

/-- `if (table->length >= table->capacity / 2)`, and `ht_expand` if so. -/
def grow (table : Ht) : Option (Ht × Bool) :=
  if Grows table then htExpand table else some (table, true)

/-- What a call stores for a new key. -/
def stored (table : Ht) (c : Call) (key value : Option Nat × CString) :
    Option (CString × CString) :=
  match if Grows table then c.block else none with
  | some b => readFreed table.entries (table.capacity * ENTRY_SIZE) b key value
  | none => some (key.2, value.2)

/-- `ht_set`, where `key` and `value` may point into the table. -/
def htSetAt (table : Ht) (c : Call) : Option Ht := do
  let some key ← c.key.find table | none
  let some value ← c.value.find table | return table
  let (grown, ok) ← grow table
  if !ok then return table
  else
    let i ← search grown.entries grown.capacity key.2 grown.capacity (index grown.capacity key.2)
    match grown.entries i with
    | some entry =>
        if VALUE_SIZE ≤ value.2.1.length then none
        else return { grown with
          entries := Function.update grown.entries i (some (entry.1, value.2)) }
    | none =>
        let (copy, found) ← stored table c key value
        if VALUE_SIZE ≤ found.1.length then none
        else return { grown with
          entries := Function.update grown.entries i (some (copy, found))
          length := grown.length + 1 }

/-! ## Runs -/

/-- A table, and the pairs that the calls so far were to set. -/
structure Session where
  table : Ht
  sets : List (CString × CString)

/-- The string that is passed. -/
def Arg.means (sets : List (CString × CString)) : Arg → Option CString
  | .own s => some s
  | .got key => lastSet sets key

/-- The pairs with the one that a call is to set; a null pointer sets nothing. -/
def told (sets : List (CString × CString)) (c : Call) : List (CString × CString) :=
  match c.key.means sets, c.value.means sets with
  | some key, some value => sets ++ [(key, value)]
  | _, _ => sets

/-- A call of `ht_set`. -/
def step (s : Session) (c : Call) : Option Session :=
  (htSetAt s.table c).map fun table => ⟨table, told s.sets c⟩

/-- After `ht_create`. -/
def start : Option Session := htCreate.map fun table => ⟨table, []⟩

/-- The limits on calls: the key is a string, the value is shorter than 128 bytes, and there are
fewer than `2 ^ 20` keys. -/
structure Allowed (s : Session) (c : Call) : Prop where
  key : c.key.means s.sets ≠ none
  value : ∀ value, c.value.means s.sets = some value → value.1.length < VALUE_SIZE
  keys : (keysOf (told s.sets c)).card < 1048576

instance {P : CString → Prop} [DecidablePred P] : ∀ o : Option CString,
    Decidable (∀ v, o = some v → P v)
  | none => isTrue nofun
  | some v => decidable_of_iff (P v) (by simp)

instance (s : Session) (c : Call) : Decidable (Allowed s c) :=
  decidable_of_iff (c.key.means s.sets ≠ none ∧
    (∀ value, c.value.means s.sets = some value → value.1.length < VALUE_SIZE) ∧
    (keysOf (told s.sets c)).card < 1048576) ⟨fun h => ⟨h.1, h.2.1, h.2.2⟩, fun h =>
      ⟨h.key, h.value, h.keys⟩⟩

/-- The string is not a part of the table. -/
def Arg.Own : Arg → Prop
  | .own _ => True
  | .got _ => False

instance : ∀ a : Arg, Decidable a.Own
  | .own _ => inferInstanceAs (Decidable True)
  | .got _ => inferInstanceAs (Decidable False)

/-- The condition: a call that makes the table larger and adds a key is given strings that are not
parts of the table. -/
def Apart (s : Session) (c : Call) : Prop :=
  Grows s.table → (∀ key, c.key.means s.sets = some key → key ∉ keysOf s.sets) →
    c.key.Own ∧ c.value.Own

instance (s : Session) (c : Call) : Decidable (Apart s c) := by
  unfold Apart
  infer_instance

/-- A call within the limits that meets the condition. -/
def Kept (s : Session) (c : Call) : Prop := Allowed s c ∧ Apart s c

instance (s : Session) (c : Call) : Decidable (Kept s c) := inferInstanceAs (Decidable (_ ∧ _))

section Invariant

variable {sets : List (CString × CString)} {table : Ht} {s : Session} {c : Call}

/-- The table holds what was set, within the limits. -/
structure Inv (s : Session) : Prop where
  holds : Holds s.sets s.table
  values : ∀ p ∈ s.sets, p.2.1.length < VALUE_SIZE
  keys : (keysOf s.sets).card < 1048576

/-- A pointer that is passed is to the string that is meant, if it is not null, and into the table
only if it is from `ht_get`. -/
theorem Arg.find_spec (h : Holds sets table) (a : Arg) :
    ∃ r, a.find table = some r ∧ r.map Prod.snd = a.means sets ∧
      (a.Own → ∀ p, r = some p → p.1 = none) := by
  cases a with
  | own s =>
      refine ⟨some (none, s), rfl, rfl, fun _ p hp => ?_⟩
      cases hp
      rfl
  | got key =>
      obtain ⟨i, hsearch, hslot⟩ := Option.bind_eq_some_iff.1 (h.get key)
      refine ⟨(table.entries i).map fun entry => (some i, entry.2), ?_, ?_, nofun⟩
      · rw [Arg.find, hsearch]
        rfl
      · rw [Arg.means, Option.map_map]
        exact Option.some.inj hslot

/-- A search in a table that holds what was set ends at the key, or there is no such key. -/
theorem Holds.search (h : Holds sets table) (key : CString) :
    ∃ i, HashTable.search table.entries table.capacity key table.capacity
        (index table.capacity key) = some i ∧ (table.entries i = none → key ∉ keysOf sets) := by
  obtain ⟨i, hsearch, hslot⟩ := Option.bind_eq_some_iff.1 (h.get key)
  refine ⟨i, hsearch, fun hnone hmem => ?_⟩
  obtain ⟨value, hvalue⟩ := mem_keysOf.1 hmem
  have hget : (table.entries i).map Prod.snd = some value := (Option.some.inj hslot).trans hvalue
  rw [hnone] at hget
  cases hget

/-- Strings that are not parts of the freed array are still there. -/
theorem readFreed_own (entries : Entries) (fuel b : Nat) (key value : CString) :
    readFreed entries fuel b (none, key) (none, value) = some (key, value) := rfl

theorem stored_apart {key value : Option Nat × CString}
    (hown : Grows table → key.1 = none ∧ value.1 = none) :
    stored table c key value = some (key.2, value.2) := by
  obtain ⟨i, k⟩ := key
  obtain ⟨j, v⟩ := value
  rw [stored]
  by_cases hfull : Grows table
  · obtain ⟨rfl, rfl⟩ := hown hfull
    rw [if_pos hfull]
    cases c.block with
    | none => rfl
    | some b => exact readFreed_own ..
  · rw [if_neg hfull]

/-- A call that meets the condition sets the strings it was given. -/
theorem htSetAt_eq (h : Inv s) {key value : Option Nat × CString}
    (hkey : c.key.find s.table = some (some key))
    (hvalue : c.value.find s.table = some (some value))
    (hown : Grows s.table → key.2 ∉ keysOf s.sets → key.1 = none ∧ value.1 = none) :
    htSetAt s.table c = (htSet s.table key.2 (some value.2)).map Prod.fst := by
  obtain ⟨grown, hgrow, hholds, -⟩ := h.holds.grow h.values h.keys
  obtain ⟨i, hsearch, hnew⟩ := hholds.search key.2
  have hgrow' : grow s.table = some (grown, true) := hgrow
  simp only [htSetAt, htSet, htSetEntry, hkey, hvalue, hgrow, hgrow', hsearch,
    Option.bind_eq_bind, Option.bind_some, Bool.not_true, Bool.false_eq_true, if_false]
  cases hslot : grown.entries i with
  | none =>
      have hstored : stored s.table c key value = some (key.2, value.2) :=
        stored_apart fun hfull => hown hfull (hnew hslot)
      by_cases hlong : VALUE_SIZE ≤ value.2.1.length
      · simp only [hstored, Option.bind_some, if_pos hlong]
        rfl
      · simp only [hstored, Option.bind_some, if_neg hlong]
        rfl
  | some entry =>
      by_cases hlong : VALUE_SIZE ≤ value.2.1.length
      · simp only [if_pos hlong]
        rfl
      · simp only [if_neg hlong]
        rfl

/-- One call within the limits that meets the condition. -/
theorem Inv.step (h : Inv s) (hkept : Kept s c) : ∃ t, step s c = some t ∧ Inv t := by
  obtain ⟨key, hkey, hkeyMeans, hkeyOwn⟩ := c.key.find_spec h.holds
  obtain ⟨value, hvalue, hvalueMeans, hvalueOwn⟩ := c.value.find_spec h.holds
  obtain ⟨hallowed, hapart⟩ := hkept
  cases key with
  | none => exact absurd hkeyMeans.symm hallowed.key
  | some key =>
  cases value with
  | none =>
      have htold : told s.sets c = s.sets := by
        rw [told, ← hkeyMeans, ← hvalueMeans]
        rfl
      have hset : htSetAt s.table c = some s.table := by
        rw [htSetAt, hkey, hvalue]
        rfl
      refine ⟨⟨s.table, s.sets⟩, ?_, h⟩
      rw [HashTable.step, hset, htold]
      rfl
  | some value =>
      have htold : told s.sets c = s.sets ++ [(key.2, value.2)] := by
        rw [told, ← hkeyMeans, ← hvalueMeans]
        rfl
      have hshort := hallowed.value value.2 hvalueMeans.symm
      obtain ⟨table', hset, hholds⟩ := h.holds.set key.2 h.values h.keys hshort
      have hat : htSetAt s.table c = some table' := by
        rw [htSetAt_eq h hkey hvalue, hset]
        · rfl
        · intro hfull hnew
          obtain ⟨hk, hv⟩ := hapart hfull fun k hk => by
            rw [← hkeyMeans, Option.map_some, Option.some.injEq] at hk
            rwa [← hk]
          exact ⟨hkeyOwn hk _ rfl, hvalueOwn hv _ rfl⟩
      refine ⟨⟨table', told s.sets c⟩, ?_, ?_, ?_, hallowed.keys⟩
      · rw [HashTable.step, hat]
        rfl
      · rw [htold]
        exact hholds
      · rw [htold]
        intro p hp
        rcases List.mem_append.1 hp with hp | hp
        · exact h.values p hp
        · rw [List.mem_singleton.1 hp]
          exact hshort

end Invariant

/-- A string of the caller's: these characters, without any NUL. -/
def text (s : List UInt8) : Arg := .own ⟨s.filter (· ≠ 0), by simp⟩

end Xv6.Ulib.HashTable
