import Mathlib.Data.List.Basic
import Mathlib.Logic.Function.Basic
import Mathlib.Tactic.Ring

/-!
# Doubly linked rings

A ring through `h` with the nodes `l` behind it, in the order of `next`: every two
neighbours point at each other.  Two operations keep it a ring: taking a node out,
and putting one in behind `h`.

## Main results

* `Ring.remove`, `Ring.insert`: the two operations, by the four assignments a
  program makes.
* `Path.scan_next`: following the pointers from `h` visits `l` in order;
  `Path.reverse` gives the same for `prev`.
-/

namespace Xv6.Verified

variable {ι : Type} {next prev next' prev' : ι → ι} {a b c h : ι} {l l₁ l₂ : List ι}

/-- `a` and `b` point at each other. -/
def Linked (next prev : ι → ι) (a b : ι) : Prop := next a = b ∧ prev b = a

/-- The nodes `l` lead from `a` to `c`. -/
def Path (next prev : ι → ι) : ι → List ι → ι → Prop
  | a, [], c => Linked next prev a c
  | a, b :: l, c => Linked next prev a b ∧ Path next prev b l c

/-- The ring of `h` and `l`. -/
structure Ring (next prev : ι → ι) (h : ι) (l : List ι) : Prop where
  path : Path next prev h l h
  nodup : (h :: l).Nodup

theorem Path.append_iff :
    Path next prev a (l₁ ++ b :: l₂) c ↔ Path next prev a l₁ b ∧ Path next prev b l₂ c := by
  induction l₁ generalizing a with
  | nil => exact Iff.rfl
  | cons d l₁ ih => simp only [List.cons_append, Path, ih, and_assoc]

/-- A path depends on `next` of its nodes but the last, and on `prev` of its nodes but
the first. -/
theorem Path.congr (hp : Path next prev a l c) (hnext : ∀ x, x ∈ a :: l → next' x = next x)
    (hprev : ∀ x, x ∈ l ++ [c] → prev' x = prev x) : Path next' prev' a l c := by
  induction l generalizing a with
  | nil => exact ⟨(hnext a (by simp)).trans hp.1, (hprev c (by simp)).trans hp.2⟩
  | cons b l ih =>
      refine ⟨⟨(hnext a (by simp)).trans hp.1.1, (hprev b (by simp)).trans hp.1.2⟩, ?_⟩
      exact ih hp.2 (fun x hx => hnext x (by simp [List.mem_cons.1 hx]))
        fun x hx => hprev x (by rw [List.cons_append]; exact List.mem_cons_of_mem _ hx)

/-- The first node after `a`. -/
theorem Path.next_mem (hp : Path next prev a l c) : next a ∈ l ++ [c] := by
  cases l with
  | nil => simp [hp.1]
  | cons b l => simp [hp.1.1]

/-- The last node before `c`. -/
theorem Path.prev_mem (hp : Path next prev a l c) : prev c ∈ a :: l := by
  induction l generalizing a with
  | nil => simp [hp.2]
  | cons b l ih => exact List.mem_cons_of_mem _ (ih hp.2)

/-- A path read backwards. -/
theorem Path.reverse (hp : Path next prev a l c) : Path prev next c l.reverse a := by
  induction l generalizing a with
  | nil => exact ⟨hp.2, hp.1⟩
  | cons b l ih =>
      rw [List.reverse_cons]
      exact Path.append_iff.2 ⟨ih hp.2, hp.1.2, hp.1.1⟩

variable [DecidableEq ι]

/-- Leave `b` out of a path. -/
theorem Path.remove (h₁ : Path next prev a l₁ b) (h₂ : Path next prev b l₂ c)
    (hsrc : (a :: (l₁ ++ l₂)).Nodup) (htgt : (l₁ ++ l₂ ++ [c]).Nodup) :
    Path (Function.update next (prev b) (next b)) (Function.update prev (next b) (prev b))
      a (l₁ ++ l₂) c := by
  induction l₁ generalizing a with
  | nil =>
      obtain ⟨-, hprev⟩ := h₁
      rw [hprev]
      cases l₂ with
      | nil =>
          obtain ⟨hnext, -⟩ := h₂
          rw [hnext]
          exact ⟨Function.update_self _ _ _, Function.update_self _ _ _⟩
      | cons d l₂ =>
          obtain ⟨⟨hnext, -⟩, h₂⟩ := h₂
          rw [hnext]
          refine ⟨⟨Function.update_self _ _ _, Function.update_self _ _ _⟩,
            h₂.congr (fun x hx => ?_) fun x hx => ?_⟩
          · apply Function.update_of_ne
            rintro rfl
            exact (List.nodup_cons.1 hsrc).1 hx
          · apply Function.update_of_ne
            rintro rfl
            exact (List.nodup_cons.1 htgt).1 hx
  | cons d l₁ ih =>
      obtain ⟨hlink, h₁⟩ := h₁
      refine ⟨⟨?_, ?_⟩, ih h₁ (List.nodup_cons.1 hsrc).2 (List.nodup_cons.1 htgt).2⟩
      · rw [Function.update_of_ne]
        · exact hlink.1
        · intro heq
          have hmem := h₁.prev_mem
          rw [← heq] at hmem
          exact (List.nodup_cons.1 hsrc).1 (List.mem_append_left l₂ hmem)
      · rw [Function.update_of_ne]
        · exact hlink.2
        · intro heq
          have hmem := h₂.next_mem
          rw [← heq] at hmem
          rw [List.append_assoc, List.cons_append] at htgt
          exact (List.nodup_cons.1 htgt).1 (List.mem_append_right _ hmem)

/-- `b->next->prev = b->prev; b->prev->next = b->next`. -/
theorem Ring.remove (hr : Ring next prev h (l₁ ++ b :: l₂)) :
    Ring (Function.update next (prev b) (next b)) (Function.update prev (next b) (prev b))
      h (l₁ ++ l₂) := by
  obtain ⟨h₁, h₂⟩ := Path.append_iff.1 hr.path
  have hsub : (l₁ ++ l₂).Sublist (l₁ ++ b :: l₂) :=
    (List.Sublist.refl _).append (List.sublist_cons_self b l₂)
  have hsrc : (h :: (l₁ ++ l₂)).Nodup := hr.nodup.sublist (hsub.cons_cons h)
  have htgt : (l₁ ++ l₂ ++ [h]).Nodup := (List.perm_append_singleton h _).nodup_iff.2 hsrc
  exact ⟨h₁.remove h₂ hsrc htgt, hsrc⟩

/-- `b->next = h->next; b->prev = h; h->next->prev = b; h->next = b`. -/
theorem Ring.insert (hr : Ring next prev h l) (hb : b ∉ h :: l) :
    Ring (Function.update (Function.update next b (next h)) h b)
      (Function.update (Function.update prev b h) (next h) b) h (b :: l) := by
  have hbh : b ≠ h := fun heq => hb (heq ▸ List.mem_cons_self)
  obtain ⟨hhl, hl⟩ := List.nodup_cons.1 hr.nodup
  have hpath := hr.path
  have hne : next h ≠ b := by
    rintro rfl
    have := hpath.next_mem
    rw [List.mem_append, List.mem_singleton] at this
    rcases this with hmem | heq
    · exact hb (List.mem_cons_of_mem _ hmem)
    · exact hbh heq
  refine ⟨⟨⟨Function.update_self _ _ _, ?_⟩, ?_⟩, List.nodup_cons.2 ⟨?_, ?_⟩⟩
  · rw [Function.update_of_ne hne.symm, Function.update_self]
  · have hlink : Function.update (Function.update next b (next h)) h b b = next h := by
      rw [Function.update_of_ne hbh, Function.update_self]
    cases l with
    | nil =>
        have hself : next h = h := hpath.1
        exact ⟨hlink.trans hself, by rw [hself, Function.update_self]⟩
    | cons d l =>
        obtain ⟨⟨hnext, -⟩, hrest⟩ := hpath
        refine ⟨⟨hlink.trans hnext, by rw [hnext, Function.update_self]⟩,
          hrest.congr (fun x hx => ?_) fun x hx => ?_⟩
        · have hxh : x ≠ h := by
            rintro rfl
            exact hhl hx
          have hxb : x ≠ b := by
            rintro rfl
            exact hb (List.mem_cons_of_mem _ hx)
          rw [Function.update_of_ne hxh, Function.update_of_ne hxb]
        · have hxd : x ≠ d := by
            rintro rfl
            rw [List.mem_append, List.mem_singleton] at hx
            rcases hx with hx | rfl
            · exact (List.nodup_cons.1 hl).1 hx
            · exact hhl List.mem_cons_self
          have hxb : x ≠ b := by
            rintro rfl
            rw [List.mem_append, List.mem_singleton] at hx
            rcases hx with hx | rfl
            · exact hb (List.mem_cons_of_mem _ (List.mem_cons_of_mem _ hx))
            · exact hbh rfl
          rw [hnext, Function.update_of_ne hxd, Function.update_of_ne hxb]
  · rw [List.mem_cons]
    rintro (rfl | hmem)
    · exact hbh rfl
    · exact hhl hmem
  · exact List.nodup_cons.2 ⟨fun hmem => hb (List.mem_cons_of_mem _ hmem), hl⟩

omit [DecidableEq ι] in
/-- A ring read backwards. -/
theorem Ring.reverse (hr : Ring next prev h l) : Ring prev next h l.reverse := by
  refine ⟨hr.path.reverse, ?_⟩
  exact ((List.reverse_perm l).cons h).nodup_iff.2 hr.nodup

/-! ## Scanning -/

/-- `for (b = first; b != h; b = step(b)) if (P(b)) return b`, for at most `fuel`
rounds. -/
def scan (step : ι → ι) (h : ι) (P : ι → Bool) : Nat → ι → Option ι
  | 0, _ => none
  | fuel + 1, b => if b = h then none else if P b then some b else scan step h P fuel (step b)

/-- Following `next` from `a` to `h` visits the nodes between them. -/
theorem Path.scan_next (hp : Path next prev a l h) (hh : h ∉ l) (P : ι → Bool) {fuel : Nat}
    (hfuel : l.length < fuel) : scan next h P fuel (next a) = l.find? P := by
  induction l generalizing a fuel with
  | nil =>
      obtain ⟨fuel, rfl⟩ : ∃ n, fuel = n + 1 := ⟨fuel - 1, by omega⟩
      rw [scan, if_pos hp.1]
      rfl
  | cons b l ih =>
      obtain ⟨fuel, rfl⟩ : ∃ n, fuel = n + 1 := ⟨fuel - 1, by omega⟩
      rw [List.mem_cons, not_or] at hh
      rw [scan, hp.1.1, if_neg (fun heq => hh.1 heq.symm), List.find?_cons]
      cases P b with
      | true => rfl
      | false =>
          rw [List.length_cons] at hfuel
          simpa using ih hp.2 hh.2 (by omega)

end Xv6.Verified
