-- SUMMARY: Tables packed into numbers and into blocks, and where an entry is found.
import Mathlib.Data.Nat.Digits.Lemmas

/-!
# Packed tables

A table has an entry for every number. Cut into blocks of `n`, it has entry `x` in block `x / n`
at place `x % n`. A block of small entries is one number, the first entry lowest. A block of
lists of one length is one long list.
-/

namespace Packed

variable {α : Type*}

/-- The `k`-th block of `n` entries. -/
def block (table : Nat → α) (n k : Nat) : List α := (List.range n).map fun i => table (n * k + i)

section Block

variable {table : Nat → α} {n k : Nat}

@[simp] theorem length_block : (block table n k).length = n := by
  rw [block, List.length_map, List.length_range]

theorem getElem?_block {i : Nat} (h : i < n) : (block table n k)[i]? = some (table (n * k + i)) := by
  rw [block, List.getElem?_map, List.getElem?_range h]
  rfl

/-- Every entry is in the block of its quotient, at the place of its remainder. -/
theorem getElem?_block_div (hn : 0 < n) (x : Nat) : (block table n (x / n))[x % n]? = some (table x) := by
  rw [getElem?_block (Nat.mod_lt x hn), Nat.div_add_mod]

theorem forall_mem_block {p : α → Prop} (h : ∀ x, p (table x)) : ∀ a ∈ block table n k, p a := by
  intro a ha
  obtain ⟨i, -, rfl⟩ := List.mem_map.mp ha
  exact h _

end Block

/-! ## Blocks of small entries -/

section Fields

variable {w : Nat}

/-- A digit to a base that is a power of two is a field of the number. -/
theorem field_ofDigits {digits : List Nat} (hdigits : ∀ d ∈ digits, d < 2 ^ w) {i d : Nat}
    (hi : digits[i]? = some d) : (Nat.ofDigits (2 ^ w) digits >>> (i * w)) &&& (2 ^ w - 1) = d := by
  obtain ⟨hlt, rfl⟩ := List.getElem?_eq_some_iff.mp hi
  have hshift : Nat.ofDigits (2 ^ w) digits >>> (i * w) = Nat.ofDigits (2 ^ w) (digits.drop i) := by
    rw [Nat.shiftRight_eq_div_pow, Nat.mul_comm, Nat.pow_mul]
    exact Nat.ofDigits_div_pow_eq_ofDigits_drop i (Nat.two_pow_pos w) digits hdigits
  rw [hshift, Nat.and_two_pow_sub_one_eq_mod, List.drop_eq_getElem_cons hlt, Nat.ofDigits_cons,
    Nat.add_mul_mod_self_left]
  exact Nat.mod_eq_of_lt (hdigits _ (List.getElem_mem hlt))

variable {table : Nat → Nat} {n : Nat}

theorem ofDigits_block_lt (hw : 0 < w) (htable : ∀ x, table x < 2 ^ w) (k : Nat) :
    Nat.ofDigits (2 ^ w) (block table n k) < 2 ^ (w * n) := by
  have h := Nat.ofDigits_lt_base_pow_length (Nat.one_lt_two_pow hw.ne')
    (forall_mem_block (p := (· < 2 ^ w)) (n := n) (k := k) htable)
  rwa [length_block, ← Nat.pow_mul] at h

/-- The field of an entry, in the number of its block. -/
theorem field_block (htable : ∀ x, table x < 2 ^ w) (hn : 0 < n) (x : Nat) :
    (Nat.ofDigits (2 ^ w) (block table n (x / n)) >>> (x % n * w)) &&& (2 ^ w - 1) = table x :=
  field_ofDigits (forall_mem_block htable) (getElem?_block_div hn x)

end Fields

/-! ## Blocks of lists -/

/-- Lists of one length, one after the other: what stands before one of them has a known length. -/
theorem flatten_split {lists : List (List α)} {size : Nat} (hsize : ∀ l ∈ lists, l.length = size) {i : Nat}
    {l : List α} (hi : lists[i]? = some l) :
    ∃ before after, lists.flatten = before ++ (l ++ after) ∧ before.length = i * size := by
  obtain ⟨hlt, rfl⟩ := List.getElem?_eq_some_iff.mp hi
  refine ⟨(lists.take i).flatten, (lists.drop (i + 1)).flatten, ?_, ?_⟩
  · rw [← List.flatten_cons, ← List.drop_eq_getElem_cons hlt, ← List.flatten_append, List.take_append_drop]
  · have hmap : (lists.take i).map List.length = List.replicate i size := by
      refine List.eq_replicate_iff.mpr ⟨?_, ?_⟩
      · rw [List.length_map, List.length_take_of_le hlt.le]
      · intro b hb
        obtain ⟨l, hl, rfl⟩ := List.mem_map.mp hb
        exact hsize l (List.mem_of_mem_take hl)
    rw [List.length_flatten, hmap, List.sum_replicate_nat]

/-- The list of an entry, in the long list of its block. -/
theorem flatten_block_split {table : Nat → List α} {size n : Nat} (hsize : ∀ x, (table x).length = size) (hn : 0 < n)
    (x : Nat) : ∃ before after, (block table n (x / n)).flatten = before ++ (table x ++ after) ∧
      before.length = x % n * size :=
  flatten_split (forall_mem_block (p := fun l : List α => l.length = size) hsize) (getElem?_block_div hn x)

end Packed
