-- SUMMARY: Overwriting a window of a list, and reading windows of the result.
import Mathlib.Data.List.Basic

/-!
# Writing into a list

A write replaces a window of a list by as many new elements. A window is read back from
where it was written, and a window apart from it is as it was.
-/

namespace Splice

variable {α : Type}

/-- `xs` with `ys` written over it from position `off` on. -/
def splice (xs : List α) (off : Nat) (ys : List α) : List α :=
  xs.take off ++ (ys ++ xs.drop (off + ys.length))

variable {xs ys : List α} {off : Nat}

@[simp] theorem splice_length (h : off + ys.length ≤ xs.length) : (splice xs off ys).length = xs.length := by
  simp only [splice, List.length_append, List.length_take, List.length_drop]
  omega

/-- A window of the new elements. -/
theorem window_within {k n : Nat} (h : off ≤ xs.length) (hin : k + n ≤ ys.length) :
    ((splice xs off ys).drop (off + k)).take n = (ys.drop k).take n := by
  rw [splice, ← List.drop_drop, List.drop_left' (by rw [List.length_take, Nat.min_eq_left h]),
    List.drop_append_of_le_length (by omega), List.take_append_of_le_length (by rw [List.length_drop]; omega)]

theorem window_self (h : off ≤ xs.length) : ((splice xs off ys).drop off).take ys.length = ys :=
  (window_within h (Nat.le_of_eq (Nat.zero_add _))).trans List.take_length

theorem window_before {o n : Nat} (h : off ≤ xs.length) (hbefore : o + n ≤ off) :
    ((splice xs off ys).drop o).take n = (xs.drop o).take n := by
  have hlen : (xs.take off).length = off := by rw [List.length_take, Nat.min_eq_left h]
  rw [List.take_drop, List.take_drop, splice, List.take_append_of_le_length (by omega), List.take_take,
    Nat.min_eq_left (by omega)]

theorem window_after {o n : Nat} (h : off ≤ xs.length) (hafter : off + ys.length ≤ o) :
    ((splice xs off ys).drop o).take n = (xs.drop o).take n := by
  have hlen : (xs.take off ++ ys).length = off + ys.length := by
    rw [List.length_append, List.length_take, Nat.min_eq_left h]
  have hdrop : (splice xs off ys).drop o = xs.drop o := by
    rw [splice, ← List.append_assoc, ← Nat.add_sub_cancel' hafter, ← List.drop_drop, List.drop_left' hlen,
      List.drop_drop]
  rw [hdrop]

end Splice
