import Mathlib.Data.List.Basic
import Mathlib.Data.List.Nodup
import Mathlib.Tactic.Ring

/-!
# Singly linked chains

The nodes `l` lead from `a` to `c`, in the order of `next`.  A ring is a chain from a node back to
itself.

* `Leads.append_iff`, `Leads.start`, `Leads.setLast`: cut a chain, and join chains.
* `Leads.rotate`: a ring can be read from any of its nodes on.
* `Leads.inj`: nodes with the same successor are the same.
-/

namespace Xv6.Verified

variable {ι : Type} {next next' : ι → ι} {a b c x y : ι} {l l₁ l₂ : List ι}

/-- The nodes `l` lead from `a` to `c`. -/
def Leads (next : ι → ι) : ι → List ι → ι → Prop
  | a, [], c => next a = c
  | a, b :: l, c => next a = b ∧ Leads next b l c

theorem Leads.append_iff :
    Leads next a (l₁ ++ b :: l₂) c ↔ Leads next a l₁ b ∧ Leads next b l₂ c := by
  induction l₁ generalizing a with
  | nil => exact Iff.rfl
  | cons d l₁ ih => simp only [List.cons_append, Leads, ih, and_assoc]

theorem Leads.congr (h : Leads next a l c) (hnext : ∀ x ∈ a :: l, next' x = next x) :
    Leads next' a l c := by
  induction l generalizing a with
  | nil => exact (hnext a (by simp)).trans h
  | cons b l ih =>
      exact ⟨(hnext a (by simp)).trans h.1, ih h.2 fun x hx => hnext x (List.mem_cons_of_mem _ hx)⟩

/-- The first part of a chain. -/
theorem Leads.left (h : Leads next a (l₁ ++ l₂) c) : Leads next a l₁ (next (l₁.getLastD a)) := by
  induction l₁ generalizing a with
  | nil => exact rfl
  | cons b l₁ ih =>
      rw [List.getLastD_cons]
      exact ⟨h.1, ih h.2⟩

/-- The second part of a chain. -/
theorem Leads.right (h : Leads next a (l₁ ++ l₂) c) : Leads next (l₁.getLastD a) l₂ c := by
  induction l₁ generalizing a with
  | nil => exact h
  | cons b l₁ ih =>
      rw [List.getLastD_cons]
      exact ih h.2

/-- The last node before `c`. -/
theorem Leads.next_last (h : Leads next a l c) : next (l.getLastD a) = c := by
  induction l generalizing a with
  | nil => exact h
  | cons b l ih =>
      rw [List.getLastD_cons]
      exact ih h.2

theorem getLastD_mem (a : ι) (l : List ι) : l.getLastD a ∈ a :: l := by
  induction l generalizing a with
  | nil => simp
  | cons b l ih =>
      rw [List.getLastD_cons]
      exact List.mem_cons_of_mem _ (ih b)

/-- The first node may be another one with the same successor. -/
theorem Leads.start (h : Leads next a l c) (hb : next' b = next a)
    (hnext : ∀ x ∈ l, next' x = next x) : Leads next' b l c := by
  cases l with
  | nil => exact hb.trans h
  | cons d l => exact ⟨hb.trans h.1, h.2.congr hnext⟩

/-- Let the last node lead somewhere else. -/
theorem Leads.setLast (h : Leads next a l c) (hnodup : (a :: l).Nodup)
    (hp : next' (l.getLastD a) = b)
    (hnext : ∀ x ∈ a :: l, x ≠ l.getLastD a → next' x = next x) : Leads next' a l b := by
  induction l generalizing a with
  | nil => exact hp
  | cons d l ih =>
      rw [List.getLastD_cons] at hp hnext
      have hne : a ≠ l.getLastD d := by
        rintro rfl
        exact (List.nodup_cons.1 hnodup).1 (getLastD_mem d l)
      exact ⟨(hnext a List.mem_cons_self hne).trans h.1, ih h.2 (List.nodup_cons.1 hnodup).2 hp
        fun x hx => hnext x (List.mem_cons_of_mem _ hx)⟩

/-- Take out the node between two chains. -/
theorem Leads.remove (h : Leads next a l₁ b) (h' : Leads next b l₂ c) (hnodup : (a :: l₁).Nodup)
    (hp : next' (l₁.getLastD a) = next b)
    (hnext : ∀ x ∈ a :: l₁, x ≠ l₁.getLastD a → next' x = next x)
    (hnext' : ∀ x ∈ l₂, next' x = next x) : Leads next' a (l₁ ++ l₂) c := by
  cases l₂ with
  | nil =>
      rw [List.append_nil]
      exact h.setLast hnodup (hp.trans h') hnext
  | cons d l₂ =>
      exact append_iff.2 ⟨h.setLast hnodup (hp.trans h'.1) hnext, h'.2.congr hnext'⟩

/-- A node of a chain in order of `r` is the last one, or its successor is greater. -/
theorem Leads.next_cases {r : ι → ι → Prop} (h : Leads next a l c) (hl : (a :: l).Pairwise r)
    (hx : x ∈ a :: l) : (x = l.getLastD a ∧ next x = c) ∨ (next x ∈ l ∧ r x (next x)) := by
  induction l generalizing a with
  | nil =>
      rw [List.mem_singleton.1 hx]
      exact .inl ⟨rfl, h⟩
  | cons b l ih =>
      rw [List.getLastD_cons]
      obtain ⟨ha, hl'⟩ := List.pairwise_cons.1 hl
      rcases List.mem_cons.1 hx with rfl | hx'
      · refine .inr ?_
        rw [h.1]
        exact ⟨List.mem_cons_self, ha b List.mem_cons_self⟩
      · rcases ih h.2 hl' hx' with hlast | ⟨hmem, hr⟩
        · exact .inl hlast
        · exact .inr ⟨List.mem_cons_of_mem _ hmem, hr⟩

/-- A ring, read from one of its nodes on. -/
theorem Leads.rotate (h : Leads next a l a) (hx : x ∈ a :: l) :
    ∃ l', Leads next x l' x ∧ (x :: l').Perm (a :: l) := by
  rcases List.mem_cons.1 hx with rfl | hx
  · exact ⟨l, h, .refl _⟩
  · obtain ⟨l₁, l₂, rfl⟩ := List.append_of_mem hx
    obtain ⟨h₁, h₂⟩ := append_iff.1 h
    refine ⟨l₂ ++ a :: l₁, append_iff.2 ⟨h₂, h₁⟩, ?_⟩
    rw [← List.cons_append, ← List.cons_append]
    exact List.perm_append_comm

/-- Nodes with the same successor are the same. -/
theorem Leads.inj (h : Leads next a l c) (hnodup : (l ++ [c]).Nodup) (hx : x ∈ a :: l)
    (hy : y ∈ a :: l) (heq : next x = next y) : x = y := by
  have hmem : ∀ {l a z}, Leads next a l c → z ∈ a :: l → next z ∈ l ++ [c] := by
    intro l
    induction l with
    | nil =>
        intro a z h hz
        rw [List.mem_singleton.1 hz, show next a = c from h]
        simp
    | cons b l ih =>
        intro a z h hz
        rcases List.mem_cons.1 hz with rfl | hz
        · rw [h.1]
          simp
        · exact List.mem_cons_of_mem _ (ih h.2 hz)
  induction l generalizing a with
  | nil => rw [List.mem_singleton.1 hx, List.mem_singleton.1 hy]
  | cons b l ih =>
      obtain ⟨hb, hnodup'⟩ := List.nodup_cons.1 hnodup
      rcases List.mem_cons.1 hx with rfl | hx' <;> rcases List.mem_cons.1 hy with hy' | hy'
      · exact hy'.symm
      · exact absurd (hmem h.2 hy') (by rw [← heq, h.1]; exact hb)
      · rw [hy'] at heq
        exact absurd (hmem h.2 hx') (by rw [heq, h.1]; exact hb)
      · exact ih h.2 hnodup' hx' hy'

end Xv6.Verified
