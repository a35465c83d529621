import Mathlib.Data.List.Nodup
import Mathlib.Data.List.Perm.Subperm
import Xv6.Verified.Ring

/-!
# Doubly linked lists of slots

An array of slots with `next` and `prev`, and two variables for the ends of a list through
some of them; a marker `e` stands for "no slot".  With the two variables taken for the links
of `e` itself such a list is a ring through `e`, and what is known of rings applies.

Slots outside the list are linked to themselves, which is how a program recognises one that
is free.

## Main results

* `Links.Chain.pushBack`, `Links.Chain.remove`: the two ways a list changes, by the values the
  links have afterwards.
* `Links.Chain.walk_next`, `Links.Chain.walk_prev`: following the links from either end visits
  the list in order, or in reverse order, and ends.
* `Links.Listed`: the slots of a list and the free ones; `Listed.free_iff` says what the test
  for a free slot tells.
-/

namespace Xv6.Verified

variable {ι : Type} [DecidableEq ι]

/-- The links of the slots, and the variables for the two ends. -/
structure Links (ι : Type) where
  next : ι → ι
  prev : ι → ι
  head : ι
  tail : ι

namespace Links

variable {k k' : Links ι} {e b x : ι} {l l₁ l₂ : List ι}

/-- From `head` to `tail` the links lead through the slots `l`. -/
def Chain (k : Links ι) (e : ι) (l : List ι) : Prop :=
  Ring (Function.update k.next e k.head) (Function.update k.prev e k.tail) e l

/-- The same links read backwards. -/
def flip (k : Links ι) : Links ι := ⟨k.prev, k.next, k.tail, k.head⟩

theorem Chain.flip (h : k.Chain e l) : k.flip.Chain e l.reverse := Ring.reverse h

theorem Chain.nil (hhead : k.head = e) (htail : k.tail = e) : k.Chain e [] := by
  refine ⟨⟨?_, ?_⟩, List.nodup_cons.2 ⟨List.not_mem_nil, List.nodup_nil⟩⟩
  · rw [Function.update_self, hhead]
  · rw [Function.update_self, htail]

theorem Chain.nodup (h : k.Chain e l) : l.Nodup := (List.nodup_cons.1 (Ring.nodup h)).2

theorem Chain.notMem (h : k.Chain e l) : e ∉ l := (List.nodup_cons.1 (Ring.nodup h)).1

theorem Chain.ne (h : k.Chain e l) (hx : x ∈ l) : x ≠ e := by
  rintro rfl
  exact h.notMem hx

/-! ## Neighbours

Each fact about `next` and `head` is one about `prev` and `tail` of the flipped links. -/

/-- The slot after `x` is the next one of the list, and points back at `x`. -/
theorem Chain.next_of_split (h : k.Chain e (l₁ ++ x :: l₂)) :
    k.next x = l₂.headD e ∧ ∀ y ∈ l₂.head?, k.prev y = x := by
  have hxe : x ≠ e := h.ne (by simp)
  have hpath := (Path.append_iff.1 (Ring.path h)).2
  cases l₂ with
  | nil => simpa [Function.update_of_ne hxe] using hpath.1
  | cons y l₂ =>
      have hye : y ≠ e := h.ne (by simp)
      have hlink := hpath.1
      simpa [Linked, Function.update_of_ne hxe, Function.update_of_ne hye] using hlink

theorem Chain.head_eq (h : k.Chain e l) : k.head = l.headD e := by
  cases l with
  | nil => simpa using (Ring.path h).1
  | cons y l => simpa using (Ring.path h).1.1

theorem Chain.next_ne (h : k.Chain e l) (hx : x ∈ l) : k.next x ≠ x := by
  obtain ⟨l₁, l₂, rfl⟩ := List.append_of_mem hx
  rw [h.next_of_split.1]
  cases l₂ with
  | nil => exact (h.ne hx).symm
  | cons y l₂ =>
      rintro rfl
      have hnodup := (List.nodup_append.1 h.nodup).2.1
      exact (List.nodup_cons.1 hnodup).1 List.mem_cons_self

theorem Chain.next_mem (h : k.Chain e l) (hx : x ∈ l) (hne : k.next x ≠ e) : k.next x ∈ l := by
  obtain ⟨l₁, l₂, rfl⟩ := List.append_of_mem hx
  rw [h.next_of_split.1] at hne ⊢
  cases l₂ with
  | nil => exact absurd rfl hne
  | cons y l₂ => simp

theorem Chain.prev_ne (h : k.Chain e l) (hx : x ∈ l) : k.prev x ≠ x :=
  h.flip.next_ne (List.mem_reverse.2 hx)

theorem Chain.prev_mem (h : k.Chain e l) (hx : x ∈ l) (hne : k.prev x ≠ e) : k.prev x ∈ l :=
  List.mem_reverse.1 (h.flip.next_mem (List.mem_reverse.2 hx) hne)

theorem Chain.head_eq_iff (h : k.Chain e l) : k.head = e ↔ l = [] := by
  rw [h.head_eq]
  cases l with
  | nil => simp
  | cons y l => simpa using h.ne List.mem_cons_self

theorem Chain.tail_eq_iff (h : k.Chain e l) : k.tail = e ↔ l = [] :=
  h.flip.head_eq_iff.trans List.reverse_eq_nil_iff

theorem Chain.head_mem (h : k.Chain e l) (hne : k.head ≠ e) : k.head ∈ l := by
  rw [h.head_eq] at hne ⊢
  cases l with
  | nil => exact absurd rfl hne
  | cons y l => simp

theorem Chain.tail_mem (h : k.Chain e l) (hne : k.tail ≠ e) : k.tail ∈ l :=
  List.mem_reverse.1 (h.flip.head_mem hne)

/-- The first slot is the one without a predecessor. -/
theorem Chain.head_eq_slot_iff (h : k.Chain e l) (hx : x ∈ l) : k.head = x ↔ k.prev x = e := by
  cases l with
  | nil => cases hx
  | cons y l =>
      have hlink := (Ring.path h).1
      have hye : y ≠ e := h.ne List.mem_cons_self
      rw [Linked, Function.update_self, Function.update_of_ne hye] at hlink
      constructor
      · rintro rfl
        rw [hlink.1]
        exact hlink.2
      · intro hprev
        by_contra hne
        have hyx : y ≠ x := fun heq => hne (hlink.1.trans heq)
        -- A slot other than the first has one before it.
        have hxl : x ∈ l := (List.mem_cons.1 hx).resolve_left (Ne.symm hyx)
        obtain ⟨l₁, l₂, rfl⟩ := List.append_of_mem hxl
        rcases l₁.eq_nil_or_concat with rfl | ⟨l₁, z, rfl⟩
        · have hfirst : k.Chain e ([] ++ y :: x :: l₂) := h
          have := hfirst.next_of_split.2 x rfl
          rw [hprev] at this
          exact hye this.symm
        · have hz : z ≠ e := h.ne (by simp)
          have hsplit : k.Chain e ((y :: l₁) ++ z :: (x :: l₂)) := by simpa using h
          have := hsplit.next_of_split.2 x rfl
          rw [hprev] at this
          exact hz this.symm

/-- The last slot is the one without a successor. -/
theorem Chain.tail_eq_slot_iff (h : k.Chain e l) (hx : x ∈ l) : k.tail = x ↔ k.next x = e :=
  h.flip.head_eq_slot_iff (List.mem_reverse.2 hx)

/-! ## Changing the list -/

/-- A new last slot. -/
theorem Chain.pushBack (h : k.Chain e l) (hb : b ∉ l) (hbe : b ≠ e)
    (hnext : ∀ x, x ≠ e → k'.next x = if x = k.tail then b else if x = b then e else k.next x)
    (hprev : ∀ x, x ≠ e → k'.prev x = if x = b then k.tail else k.prev x)
    (hhead : k'.head = if k.tail = e then b else k.head) (htail : k'.tail = b) :
    k'.Chain e (l ++ [b]) := by
  have hmem : b ∉ e :: l.reverse := by
    rw [List.mem_cons, List.mem_reverse, not_or]
    exact ⟨hbe, hb⟩
  -- Putting a slot in behind the marker, with the roles of the two links exchanged.
  have hins := ((Ring.reverse h).insert hmem).reverse
  rw [List.reverse_cons, List.reverse_reverse, Function.update_self] at hins
  have hn : Function.update k'.next e k'.head =
      Function.update (Function.update (Function.update k.next e k.head) b e) k.tail b := by
    funext x
    by_cases hx : x = e
    · subst hx
      rw [Function.update_self, hhead]
      by_cases ht : k.tail = x
      · rw [if_pos ht, ht, Function.update_self]
      · rw [if_neg ht, Function.update_of_ne (Ne.symm ht), Function.update_of_ne hbe.symm,
          Function.update_self]
    · simp only [Function.update_apply, hx, if_false, hnext x hx]
  have hp : Function.update k'.prev e k'.tail =
      Function.update (Function.update (Function.update k.prev e k.tail) b k.tail) e b := by
    funext x
    by_cases hx : x = e
    · subst hx
      rw [Function.update_self, Function.update_self, htail]
    · simp only [Function.update_apply, hx, if_false, hprev x hx]
  unfold Chain
  rw [hn, hp]
  exact hins

/-- Slot `b` leaves the list; its own links afterwards do not matter. -/
theorem Chain.remove (h : k.Chain e (l₁ ++ b :: l₂))
    (hnext : ∀ x, x ≠ b → x ≠ e → k'.next x = if x = k.prev b then k.next b else k.next x)
    (hprev : ∀ x, x ≠ b → x ≠ e → k'.prev x = if x = k.next b then k.prev b else k.prev x)
    (hhead : k'.head = if k.head = b then k.next b else k.head)
    (htail : k'.tail = if k.tail = b then k.prev b else k.tail) : k'.Chain e (l₁ ++ l₂) := by
  have hbmem : b ∈ l₁ ++ b :: l₂ := by simp
  have hbe : b ≠ e := h.ne hbmem
  have hne : ∀ x ∈ l₁ ++ l₂, x ≠ b ∧ x ≠ e := by
    intro x hx
    have hnodup := List.perm_middle.nodup_iff.1 h.nodup
    refine ⟨?_, h.ne ?_⟩
    · rintro rfl
      exact (List.nodup_cons.1 hnodup).1 hx
    · exact List.mem_append.2 ((List.mem_append.1 hx).imp_right (List.mem_cons_of_mem b))
  have hrem := Ring.remove h
  rw [Function.update_of_ne hbe, Function.update_of_ne hbe] at hrem
  refine ⟨hrem.path.congr (fun x hx => ?_) (fun x hx => ?_), hrem.nodup⟩
  · rcases List.mem_cons.1 hx with rfl | hx
    · simp only [Function.update_apply, if_true, hhead, h.head_eq_slot_iff hbmem, eq_comm]
    · obtain ⟨hxb, hxe⟩ := hne x hx
      simp only [Function.update_apply, hxe, if_false, hnext x hxb hxe]
  · rcases List.mem_append.1 hx with hx | hx
    · obtain ⟨hxb, hxe⟩ := hne x hx
      simp only [Function.update_apply, hxe, if_false, hprev x hxb hxe]
    · cases List.mem_singleton.1 hx
      simp only [Function.update_apply, if_true, htail, h.tail_eq_slot_iff hbmem, eq_comm]

/-! ## Walking along the list -/

/-- The slots that `for (p = first; p != e; p = step(p))` visits, if it ends within `fuel`
rounds. -/
def walk (step : ι → ι) (e : ι) : Nat → ι → Option (List ι)
  | 0, _ => none
  | fuel + 1, p => if p = e then some [] else (walk step e fuel (step p)).map (p :: ·)

/-- From the slots before `x` on, the walk visits the rest of the list. -/
theorem Chain.walk_from (h : k.Chain e (l₁ ++ l₂)) {fuel : Nat} (hfuel : l₂.length < fuel) :
    walk k.next e fuel (l₂.headD e) = some l₂ := by
  induction l₂ generalizing l₁ fuel with
  | nil =>
      obtain ⟨fuel, rfl⟩ : ∃ n, fuel = n + 1 := ⟨fuel - 1, by omega⟩
      simp [walk]
  | cons x l₂ ih =>
      obtain ⟨fuel, rfl⟩ : ∃ n, fuel = n + 1 := ⟨fuel - 1, by omega⟩
      have hx : x ≠ e := h.ne (by simp)
      have hrest : k.Chain e ((l₁ ++ [x]) ++ l₂) := by simpa using h
      rw [List.length_cons] at hfuel
      rw [List.headD_cons, walk, if_neg hx, h.next_of_split.1, ih hrest (by omega)]
      rfl

theorem Chain.walk_next (h : k.Chain e l) {fuel : Nat} (hfuel : l.length < fuel) :
    walk k.next e fuel k.head = some l := by
  have hall : k.Chain e ([] ++ l) := h
  rw [h.head_eq]
  exact hall.walk_from hfuel

theorem Chain.walk_prev (h : k.Chain e l) {fuel : Nat} (hfuel : l.length < fuel) :
    walk k.prev e fuel k.tail = some l.reverse :=
  h.flip.walk_next (by rwa [List.length_reverse])

/-! ## Used and free slots -/

/-- The slots of `D` that are in the list `l` are chained, the others linked to themselves. -/
structure Listed (k : Links ι) (e : ι) (D : ι → Prop) (l : List ι) : Prop where
  chain : k.Chain e l
  within : ∀ x ∈ l, D x
  free : ∀ x, D x → x ∉ l → k.next x = x ∧ k.prev x = x

variable {D : ι → Prop}

/-- What the test `prev == x && next == x` tells. -/
theorem Listed.free_iff (h : k.Listed e D l) (hx : D x) : k.prev x = x ∧ k.next x = x ↔ x ∉ l := by
  constructor
  · rintro ⟨-, hnext⟩ hmem
    exact h.chain.next_ne hmem hnext
  · intro hmem
    exact (h.free x hx hmem).symm

end Links

/-! ## Slots numbered by machine integers

The marker is `-1`, and the slots of an array of length `n` are `0` to `n - 1`. -/

/-- An index of an array of length `n`. -/
def Slot (n : Nat) (i : Int) : Prop := 0 ≤ i ∧ i < n

instance (n : Nat) (i : Int) : Decidable (Slot n i) := inferInstanceAs (Decidable (_ ∧ _))

/-- The indices of an array of length `n`, in order. -/
def slots (n : Nat) : List Int := (List.range n).map Int.ofNat

theorem mem_slots {n : Nat} {i : Int} : i ∈ slots n ↔ Slot n i := by
  simp only [slots, Slot, List.mem_map, List.mem_range, Int.ofNat_eq_natCast]
  constructor
  · rintro ⟨j, hj, rfl⟩
    omega
  · rintro ⟨h0, hn⟩
    exact ⟨i.toNat, by omega, by omega⟩

theorem length_slots (n : Nat) : (slots n).length = n := by simp [slots]

/-- Distinct indices fill the array exactly if there are as many as it is long. -/
theorem slots_full_iff {n : Nat} {l : List Int} (hnodup : l.Nodup) (hl : ∀ x ∈ l, Slot n x) :
    (∀ x, Slot n x → x ∈ l) ↔ l.length = n := by
  have hsub : l.Subperm (slots n) := hnodup.subperm fun x hx => mem_slots.2 (hl x hx)
  constructor
  · intro hall
    have hnodup' : (slots n).Nodup := by
      rw [slots]
      exact List.nodup_range.map fun a b hab => Int.ofNat.inj hab
    have hle := (hnodup'.subperm fun x hx => hall x (mem_slots.1 hx)).length_le
    have hge := hsub.length_le
    rw [length_slots] at hle hge
    omega
  · intro hlen x hx
    have hperm := hsub.perm_of_length_le (by rw [length_slots]; omega)
    exact hperm.mem_iff.2 (mem_slots.2 hx)

namespace Links

variable {k : Links Int} {n : Nat} {l : List Int} {idx : Int}

/-- `for (i = 0; i < n; i++) if (prev[i] == i && next[i] == i) return i; return -1`. -/
def findSelf (k : Links Int) (n : Nat) : Int :=
  ((slots n).find? fun i => k.prev i = i ∧ k.next i = i).getD (-1)

theorem Listed.findSelf_eq_iff (h : k.Listed (-1) (Slot n) l) :
    k.findSelf n = -1 ↔ l.length = n := by
  rw [← slots_full_iff h.chain.nodup h.within, findSelf]
  cases hfind : (slots n).find? fun i => k.prev i = i ∧ k.next i = i with
  | none =>
      simp only [Option.getD_none, true_iff]
      intro x hx
      have := List.find?_eq_none.1 hfind x (mem_slots.2 hx)
      simpa [h.free_iff hx] using this
  | some i =>
      have hi : Slot n i := mem_slots.1 (List.mem_of_find?_eq_some hfind)
      have hself := List.find?_some hfind
      simp only [decide_eq_true_eq, h.free_iff hi] at hself
      simp only [Option.getD_some]
      constructor
      · rintro rfl
        exact absurd hi.1 (by decide)
      · intro hall
        exact absurd (hall i hi) hself

/-- What the search finds is a free slot. -/
theorem Listed.findSelf_spec (h : k.Listed (-1) (Slot n) l) (hne : k.findSelf n ≠ -1) :
    Slot n (k.findSelf n) ∧ k.findSelf n ∉ l := by
  rw [findSelf] at hne ⊢
  cases hfind : (slots n).find? fun i => k.prev i = i ∧ k.next i = i with
  | none =>
      rw [hfind] at hne
      exact absurd rfl hne
  | some i =>
      have hi : Slot n i := mem_slots.1 (List.mem_of_find?_eq_some hfind)
      have hself := List.find?_some hfind
      simp only [decide_eq_true_eq, h.free_iff hi] at hself
      exact ⟨hi, hself⟩

/-- `prev[idx] = tail; next[idx] = -1; if (tail != -1) next[tail] = idx; tail = idx`. -/
def addTail (k : Links Int) (idx : Int) : Links Int :=
  let k := { k with prev := Function.update k.prev idx k.tail }
  let k := { k with next := Function.update k.next idx (-1) }
  let k := if k.tail ≠ -1 then { k with next := Function.update k.next k.tail idx } else k
  { k with tail := idx }

section addTail

variable (k) (idx)

@[simp] theorem addTail_head : (k.addTail idx).head = k.head := by
  simp only [addTail]
  split <;> rfl

@[simp] theorem addTail_tail : (k.addTail idx).tail = idx := rfl

theorem addTail_setHead (x : Int) :
    Links.addTail { k with head := x } idx = { k.addTail idx with head := x } := by
  simp only [addTail]
  split <;> rfl

theorem addTail_prev (x : Int) : (k.addTail idx).prev x = if x = idx then k.tail else k.prev x := by
  simp only [addTail]
  split <;> exact Function.update_apply _ _ _ _

theorem addTail_next {x : Int} (hx : x ≠ -1) : (k.addTail idx).next x =
    if x = k.tail then idx else if x = idx then -1 else k.next x := by
  by_cases htail : k.tail = -1
  · simp [addTail, htail, hx, Function.update_apply]
  · simp [addTail, htail, Function.update_apply]

end addTail

/-- A free slot becomes the last one of the list.  `head` is the first slot afterwards: the
new one, if the list was empty. -/
theorem Listed.addTail (h : k.Listed (-1) (Slot n) l) (hidx : Slot n idx) (hmem : idx ∉ l)
    {head : Int} (hhead : head = if k.tail = -1 then idx else k.head) :
    Listed { k.addTail idx with head := head } (-1) (Slot n) (l ++ [idx]) := by
  have hidx' : idx ≠ -1 := by
    rintro rfl
    exact absurd hidx.1 (by decide)
  refine ⟨h.chain.pushBack hmem hidx' (fun x hx => k.addTail_next idx hx)
    (fun x _ => k.addTail_prev idx x) hhead rfl, ?_, ?_⟩
  · intro x hx
    rcases List.mem_append.1 hx with hx | hx
    · exact h.within x hx
    · rw [List.mem_singleton.1 hx]
      exact hidx
  · intro x hx hxl
    rw [List.mem_append, List.mem_singleton, not_or] at hxl
    have hxe : x ≠ -1 := by
      rintro rfl
      exact absurd hx.1 (by decide)
    have hxt : x ≠ k.tail := by
      rintro rfl
      exact hxl.1 (h.chain.tail_mem hxe)
    obtain ⟨hnext, hprev⟩ := h.free x hx hxl.1
    constructor
    · exact (k.addTail_next idx hxe).trans (by rw [if_neg hxt, if_neg hxl.2, hnext])
    · exact (k.addTail_prev idx x).trans (by rw [if_neg hxl.2, hprev])

/-- `if (prev[idx] != -1) next[prev[idx]] = next[idx]`. -/
def bypassNext (k : Links Int) (idx : Int) : Links Int :=
  if k.prev idx ≠ -1 then
    { k with next := Function.update k.next (k.prev idx) (k.next idx) } else k

/-- `if (next[idx] != -1) prev[next[idx]] = prev[idx]`. -/
def bypassPrev (k : Links Int) (idx : Int) : Links Int :=
  if k.next idx ≠ -1 then
    { k with prev := Function.update k.prev (k.next idx) (k.prev idx) } else k

/-- The neighbours of a slot are linked to each other. -/
def unlink (k : Links Int) (idx : Int) : Links Int := (k.bypassNext idx).bypassPrev idx

section unlink

variable (k) (idx)

@[simp] theorem unlink_head : (k.unlink idx).head = k.head := by
  simp only [unlink, bypassNext, bypassPrev]
  split <;> split <;> rfl

@[simp] theorem unlink_tail : (k.unlink idx).tail = k.tail := by
  simp only [unlink, bypassNext, bypassPrev]
  split <;> split <;> rfl

variable {k idx} {x : Int}

theorem bypassNext_next (hx : x ≠ -1) :
    (k.bypassNext idx).next x = if x = k.prev idx then k.next idx else k.next x := by
  by_cases hprev : k.prev idx = -1
  · have hne : x ≠ k.prev idx := fun heq => hx (heq.trans hprev)
    rw [bypassNext, if_neg (not_not.2 hprev), if_neg hne]
  · rw [bypassNext, if_pos hprev]
    exact Function.update_apply _ _ _ _

@[simp] theorem bypassNext_prev : (k.bypassNext idx).prev = k.prev := by
  rw [bypassNext]
  split <;> rfl

@[simp] theorem bypassPrev_next : (k.bypassPrev idx).next = k.next := by
  rw [bypassPrev]
  split <;> rfl

theorem bypassPrev_prev (hx : x ≠ -1) :
    (k.bypassPrev idx).prev x = if x = k.next idx then k.prev idx else k.prev x := by
  by_cases hnext : k.next idx = -1
  · have hne : x ≠ k.next idx := fun heq => hx (heq.trans hnext)
    rw [bypassPrev, if_neg (not_not.2 hnext), if_neg hne]
  · rw [bypassPrev, if_pos hnext]
    exact Function.update_apply _ _ _ _

/-- A slot's own successor is still there when it is bypassed. -/
theorem bypassNext_next_self (hidx : k.prev idx ≠ idx) :
    (k.bypassNext idx).next idx = k.next idx := by
  rw [bypassNext]
  split
  · exact Function.update_of_ne hidx.symm _ _
  · rfl

theorem unlink_next (hx : x ≠ -1) :
    (k.unlink idx).next x = if x = k.prev idx then k.next idx else k.next x := by
  rw [unlink, bypassPrev_next, bypassNext_next hx]

theorem unlink_prev (hx : x ≠ -1) (hidx : k.prev idx ≠ idx) :
    (k.unlink idx).prev x = if x = k.next idx then k.prev idx else k.prev x := by
  rw [unlink, bypassPrev_prev hx, bypassNext_next_self hidx, bypassNext_prev]

end unlink

/-- A slot is taken out of the list, giving `k'`, and put in again as the last one. -/
theorem Listed.moveBack (h : k.Listed (-1) (Slot n) l) (hidx : idx ∈ l) (hlast : k.tail ≠ idx)
    {k' : Links Int}
    (hnext : ∀ x, x ≠ -1 → k'.next x = if x = k.prev idx then k.next idx else k.next x)
    (hprev : ∀ x, x ≠ -1 → k'.prev x = if x = k.next idx then k.prev idx else k.prev x)
    (hhead : k'.head = if k.head = idx then k.next idx else k.head) (htail : k'.tail = k.tail) :
    (k'.addTail idx).Listed (-1) (Slot n) (l.erase idx ++ [idx]) := by
  have hidxe : idx ≠ -1 := h.chain.ne hidx
  have htailmem : k.tail ∈ l := by
    apply h.chain.tail_mem
    intro heq
    rw [h.chain.tail_eq_iff.1 heq] at hidx
    exact absurd hidx List.not_mem_nil
  have hchain : k'.Chain (-1) (l.erase idx) := by
    obtain ⟨l₁, l₂, rfl⟩ := List.append_of_mem hidx
    have hnotin : idx ∉ l₁ := fun hmem =>
      (List.nodup_cons.1 (List.perm_middle.nodup_iff.1 h.chain.nodup)).1
        (List.mem_append_left _ hmem)
    rw [List.erase_append_right _ hnotin, List.erase_cons_head]
    refine h.chain.remove (fun x _ hx => hnext x hx) (fun x _ hx => hprev x hx) hhead ?_
    rw [if_neg hlast, htail]
  have hnotin : idx ∉ l.erase idx := fun hmem => (h.chain.nodup.mem_erase_iff.1 hmem).1 rfl
  refine ⟨hchain.pushBack hnotin hidxe (fun x hx => k'.addTail_next idx hx)
    (fun x _ => k'.addTail_prev idx x) ?_ rfl, ?_, ?_⟩
  · rw [addTail_head, htail, if_neg (h.chain.ne htailmem)]
  · intro x hx
    rcases List.mem_append.1 hx with hx | hx
    · exact h.within x (List.mem_of_mem_erase hx)
    · rw [List.mem_singleton.1 hx]
      exact h.within idx hidx
  · intro x hx hxl
    have hxe : x ≠ -1 := by
      rintro rfl
      exact absurd hx.1 (by decide)
    have hxi : x ≠ idx := by
      rintro rfl
      simp at hxl
    have hxl' : x ∉ l := fun hmem =>
      hxl (List.mem_append_left _ ((List.mem_erase_of_ne hxi).2 hmem))
    have hxt : x ≠ k.tail := by
      rintro rfl
      exact hxl' htailmem
    have hxp : x ≠ k.prev idx := by
      rintro rfl
      exact hxl' (h.chain.prev_mem hidx hxe)
    have hxn : x ≠ k.next idx := by
      rintro rfl
      exact hxl' (h.chain.next_mem hidx hxe)
    rw [addTail_next _ _ hxe, addTail_prev, htail, if_neg hxt, if_neg hxi, if_neg hxi,
      hnext x hxe, hprev x hxe, if_neg hxp, if_neg hxn]
    exact h.free x hx hxl'

/-- A slot leaves the list and is linked to itself. -/
theorem Listed.unlink (h : k.Listed (-1) (Slot n) l) (hidx : idx ∈ l) {k' : Links Int}
    (hnext : ∀ x, x ≠ -1 →
      k'.next x = if x = idx then idx else if x = k.prev idx then k.next idx else k.next x)
    (hprev : ∀ x, x ≠ -1 →
      k'.prev x = if x = idx then idx else if x = k.next idx then k.prev idx else k.prev x)
    (hhead : k'.head = if k.head = idx then k.next idx else k.head)
    (htail : k'.tail = if k.tail = idx then k.prev idx else k.tail) :
    k'.Listed (-1) (Slot n) (l.erase idx) := by
  obtain ⟨l₁, l₂, rfl⟩ := List.append_of_mem hidx
  have hnotin : idx ∉ l₁ := by
    intro hmem
    have := List.perm_middle.nodup_iff.1 h.chain.nodup
    exact (List.nodup_cons.1 this).1 (List.mem_append_left _ hmem)
  rw [List.erase_append_right _ hnotin, List.erase_cons_head]
  refine ⟨h.chain.remove (fun x hx hxe => ?_) (fun x hx hxe => ?_) hhead htail, ?_, ?_⟩
  · rw [hnext x hxe, if_neg hx]
  · rw [hprev x hxe, if_neg hx]
  · intro x hx
    exact h.within x (List.mem_append.2 ((List.mem_append.1 hx).imp_right (List.mem_cons_of_mem _)))
  · intro x hx hxl
    have hxe : x ≠ -1 := by
      rintro rfl
      exact absurd hx.1 (by decide)
    rw [hnext x hxe, hprev x hxe]
    by_cases hxi : x = idx
    · rw [if_pos hxi, if_pos hxi, hxi]
      exact ⟨rfl, rfl⟩
    · have hxl' : x ∉ l₁ ++ idx :: l₂ := by
        simp only [List.mem_append, List.mem_cons, not_or] at hxl ⊢
        exact ⟨hxl.1, hxi, hxl.2⟩
      -- A free slot is nobody's neighbour.
      have hxp : x ≠ k.prev idx := by
        rintro rfl
        exact hxl' (h.chain.prev_mem hidx hxe)
      have hxn : x ≠ k.next idx := by
        rintro rfl
        exact hxl' (h.chain.next_mem hidx hxe)
      rw [if_neg hxi, if_neg hxi, if_neg hxp, if_neg hxn]
      exact h.free x hx hxl'

end Links

end Xv6.Verified
