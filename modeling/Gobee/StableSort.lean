/-
# Stable sorting

A stable sort keeps the elements of one rank in their order, so its result is known from
these groups: two lists whose groups are the same are sorted to the same list, in whatever
order the groups are mixed.

* `filter_mergeSort` : the elements of one group stay in order;
* `mergeSort_congr` : lists with the same groups are sorted to the same list.
-/
import Mathlib.Data.List.Basic

namespace StableSort

variable {α : Type} {le : α → α → Bool}

/-- Two elements of one rank. -/
def Tied (le : α → α → Bool) (a b : α) : Bool := le a b && le b a

/-- A stable sort keeps elements of one rank in their order. -/
theorem filter_mergeSort (htrans : ∀ a b c, le a b = true → le b c = true → le a c = true)
    (htotal : ∀ a b, (le a b || le b a) = true) {p : α → Bool}
    (hp : ∀ a b, p a = true → p b = true → le a b = true) (l : List α) :
    (l.mergeSort le).filter p = l.filter p := by
  have hpair : (l.filter p).Pairwise fun a b => le a b = true := by
    refine List.pairwise_of_forall_mem_list fun a ha b hb => ?_
    exact hp a b (List.mem_filter.mp ha).2 (List.mem_filter.mp hb).2
  have hsub : (l.filter p).Sublist (l.mergeSort le) :=
    List.sublist_mergeSort htrans htotal hpair List.filter_sublist
  -- the elements of the rank stay in order, and there are no others
  have hfilter := hsub.filter p
  rw [List.filter_filter] at hfilter
  simp only [Bool.and_self] at hfilter
  exact (hfilter.eq_of_length ((List.mergeSort_perm l le).filter p).length_eq.symm).symm

/-- A sorted list is determined by its groups. -/
theorem eq_of_sorted (hrefl : ∀ a, le a a = true) {l₁ l₂ : List α}
    (h₁ : l₁.Pairwise fun a b => le a b = true) (h₂ : l₂.Pairwise fun a b => le a b = true)
    (h : ∀ a, l₁.filter (Tied le a) = l₂.filter (Tied le a)) : l₁ = l₂ := by
  have hmem : ∀ {l l' : List α}, (∀ a, l.filter (Tied le a) = l'.filter (Tied le a)) →
      ∀ a ∈ l, a ∈ l' := by
    intro l l' h a ha
    have hmem : a ∈ l.filter (Tied le a) := by simp [ha, Tied, hrefl]
    rw [h a] at hmem
    exact (List.mem_filter.mp hmem).1
  induction l₁ generalizing l₂ with
  | nil =>
      cases l₂ with
      | nil => rfl
      | cons b t₂ => cases hmem (fun a => (h a).symm) b List.mem_cons_self
  | cons a t₁ ih =>
      cases l₂ with
      | nil => cases hmem h a List.mem_cons_self
      | cons b t₂ =>
          have hab : le a b = true := by
            rcases List.mem_cons.mp (hmem (fun a => (h a).symm) b List.mem_cons_self) with rfl | hb
            · exact hrefl b
            · exact (List.pairwise_cons.mp h₁).1 b hb
          have hba : le b a = true := by
            rcases List.mem_cons.mp (hmem h a List.mem_cons_self) with rfl | ha
            · exact hrefl a
            · exact (List.pairwise_cons.mp h₂).1 a ha
          have hhead := h a
          rw [List.filter_cons_of_pos (by simp [Tied, hrefl]),
            List.filter_cons_of_pos (by simp [Tied, hab, hba])] at hhead
          obtain rfl := (List.cons.inj hhead).1
          rw [ih (List.pairwise_cons.mp h₁).2 (List.pairwise_cons.mp h₂).2 fun c => ?_]
          have hc := h c
          rw [List.filter_cons, List.filter_cons] at hc
          by_cases hca : Tied le c a = true
          · rw [if_pos hca, if_pos hca] at hc
            exact (List.cons.inj hc).2
          · rwa [if_neg hca, if_neg hca] at hc

/-- Lists with the same groups are sorted to the same list. -/
theorem mergeSort_congr (htrans : ∀ a b c, le a b = true → le b c = true → le a c = true)
    (htotal : ∀ a b, (le a b || le b a) = true) {l₁ l₂ : List α}
    (h : ∀ a, l₁.filter (Tied le a) = l₂.filter (Tied le a)) :
    l₁.mergeSort le = l₂.mergeSort le := by
  have hrefl : ∀ a, le a a = true := fun a => by simpa using htotal a a
  refine eq_of_sorted hrefl (List.pairwise_mergeSort htrans htotal l₁)
    (List.pairwise_mergeSort htrans htotal l₂) fun a => ?_
  have hties : ∀ x y, Tied le a x = true → Tied le a y = true → le x y = true := by
    intro x y hx hy
    simp only [Tied, Bool.and_eq_true] at hx hy
    exact htrans x a y hx.2 hy.1
  rw [filter_mergeSort htrans htotal hties, filter_mergeSort htrans htotal hties, h a]

end StableSort
