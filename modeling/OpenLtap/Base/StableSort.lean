-- SUMMARY: A stable sort is determined by its key classes.
import Mathlib.Data.List.Sort
import Mathlib.Order.Defs.LinearOrder

/-!
# Stable sorting

A list that is sorted by a key and that keeps, for every key, the elements with
that key in their original order is the only such list. This is what a stable
sort promises, and it identifies the result of `List.insertionSort` without
looking at how the sort proceeds.
-/

namespace StableSort

variable {α κ : Type*} [LinearOrder κ] (key : α → κ)

/-- Two lists sorted by key with the same key classes are equal. -/
theorem eq_of_sorted_of_filter_eq {l₁ l₂ : List α}
    (h₁ : l₁.Pairwise (key · ≤ key ·)) (h₂ : l₂.Pairwise (key · ≤ key ·))
    (h : ∀ k, l₁.filter (key · = k) = l₂.filter (key · = k)) : l₁ = l₂ := by
  induction l₁ generalizing l₂ with
  | nil =>
    cases l₂ with
    | nil => rfl
    | cons b l₂ => simpa using h (key b)
  | cons a l₁ ih =>
    cases l₂ with
    | nil => simpa using h (key a)
    | cons b l₂ =>
      rw [List.pairwise_cons] at h₁ h₂
      have ha : a ∈ (b :: l₂).filter (key · = key a) := by
        rw [← h (key a)]; simp
      have hb : b ∈ (a :: l₁).filter (key · = key b) := by
        rw [h (key b)]; simp
      -- Each head occurs in the other list, so neither key is the smaller one.
      have hba : key b ≤ key a := by
        rcases List.mem_cons.mp (List.mem_filter.mp ha).1 with rfl | hmem
        · exact le_rfl
        · exact h₂.1 a hmem
      have hab : key a ≤ key b := by
        rcases List.mem_cons.mp (List.mem_filter.mp hb).1 with rfl | hmem
        · exact le_rfl
        · exact h₁.1 b hmem
      have hkey : key a = key b := le_antisymm hab hba
      have hhead := h (key b)
      simp only [List.filter_cons, hkey, decide_true, if_true, List.cons.injEq] at hhead
      obtain ⟨rfl, -⟩ := hhead
      rw [ih h₁.2 h₂.2]
      intro k
      have := h k
      simp only [List.filter_cons] at this
      split at this
      · exact (List.cons.inj this).2
      · exact this

/-- Insertion sort leaves every key class as it was. -/
theorem filter_insertionSort (l : List α) (k : κ) :
    (l.insertionSort (key · ≤ key ·)).filter (key · = k) = l.filter (key · = k) := by
  have hclass : (l.filter (key · = k)).Pairwise (key · ≤ key ·) := by
    refine List.Pairwise.imp_of_mem (R := fun _ _ => True) ?_ (List.pairwise_of_forall (by simp))
    intro a b ha hb _
    have ha := (List.mem_filter.mp ha).2
    have hb := (List.mem_filter.mp hb).2
    simp only [decide_eq_true_eq] at ha hb
    exact le_of_eq (ha.trans hb.symm)
  have hsub := (List.sublist_insertionSort hclass List.filter_sublist).filter (key · = k)
  rw [List.filter_filter] at hsub
  simp only [Bool.and_self] at hsub
  have hlen := ((List.perm_insertionSort (key · ≤ key ·) l).filter (key · = k)).length_eq
  exact (hsub.eq_of_length hlen.symm).symm

/-- A sorted list with the key classes of `l` is the stable sort of `l`. -/
theorem insertionSort_eq {l l' : List α} (hl' : l'.Pairwise (key · ≤ key ·))
    (h : ∀ k, l'.filter (key · = k) = l.filter (key · = k)) :
    l.insertionSort (key · ≤ key ·) = l' := by
  refine eq_of_sorted_of_filter_eq key ?_ hl' fun k => ?_
  · have : IsTrans α (key · ≤ key ·) := ⟨fun _ _ _ => le_trans⟩
    have : Std.Total (α := α) (key · ≤ key ·) := ⟨fun a b => le_total (key a) (key b)⟩
    exact List.pairwise_insertionSort _ l
  · rw [filter_insertionSort, h]

end StableSort
