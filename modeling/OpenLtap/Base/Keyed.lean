-- SUMMARY: Lookups and orderings by a key that is unique do not depend on the order of the list.
import Mathlib.Data.List.Destutter
import Mathlib.Data.List.Nodup
import Mathlib.Data.List.Sort
import Mathlib.Order.Defs.LinearOrder

/-!
# Rows with a unique key

A table is a list of rows in some order. Where at most one row meets a condition, every lookup
by the condition finds it; where the key of an ordering is unique, the ordered rows are the
same from every order.
-/

namespace Keyed

variable {α β κ : Type*}

/-- At most one row meets the condition. -/
def AtMostOne (p : α → Prop) (l : List α) : Prop := ∀ a ∈ l, ∀ b ∈ l, p a → p b → a = b

/-- The key tells the rows of the list apart. -/
def KeyOn (key : α → κ) (l : List α) : Prop := (l.map key).Nodup

instance [DecidableEq κ] (key : α → κ) (l : List α) : Decidable (KeyOn key l) :=
  inferInstanceAs (Decidable (List.Nodup _))

theorem KeyOn.inj {key : α → κ} {l : List α} (h : KeyOn key l) {a b : α} (ha : a ∈ l) (hb : b ∈ l)
    (heq : key a = key b) : a = b :=
  List.inj_on_of_nodup_map h ha hb heq

theorem KeyOn.perm {key : α → κ} {l l' : List α} (h : KeyOn key l) (hperm : l'.Perm l) : KeyOn key l' :=
  (hperm.map key).nodup_iff.mpr h

theorem KeyOn.filter {key : α → κ} {l : List α} (h : KeyOn key l) (p : α → Bool) : KeyOn key (l.filter p) :=
  h.sublist (List.filter_sublist.map key)

/-- Another key does as well if it determines this one. -/
theorem KeyOn.of_determines {key : α → κ} {key' : α → β} {l : List α} (h : KeyOn key l)
    (hkey : ∀ a ∈ l, ∀ b ∈ l, key' a = key' b → key a = key b) : KeyOn key' l := by
  rw [KeyOn, List.Nodup, List.pairwise_map] at h ⊢
  exact h.imp_of_mem fun ha hb hne heq => hne (hkey _ ha _ hb heq)

theorem KeyOn.nodup {key : α → κ} {l : List α} (h : KeyOn key l) : l.Nodup := List.Nodup.of_map key h

/-- A condition that fixes the key is met once. -/
theorem KeyOn.atMostOne {key : α → κ} {l : List α} (h : KeyOn key l) {p : α → Prop} {k : κ}
    (hp : ∀ a ∈ l, p a → key a = k) : AtMostOne p l :=
  fun a ha b hb hpa hpb => h.inj ha hb ((hp a ha hpa).trans (hp b hb hpb).symm)

/-! ## Lookups -/

section Find

variable {p : α → Bool} {l l' : List α}

theorem find?_eq_some_iff (h : AtMostOne (p ·) l) {a : α} : l.find? p = some a ↔ a ∈ l ∧ p a := by
  constructor
  · exact fun hfind => ⟨List.mem_of_find?_eq_some hfind, List.find?_some hfind⟩
  · rintro ⟨ha, hpa⟩
    obtain ⟨b, hfind⟩ := Option.isSome_iff_exists.mp (List.find?_isSome.mpr ⟨a, ha, hpa⟩)
    rw [hfind, h b (List.mem_of_find?_eq_some hfind) a ha (List.find?_some hfind) hpa]

theorem find?_perm (h : AtMostOne (p ·) l) (hperm : l'.Perm l) : l'.find? p = l.find? p := by
  have h' : AtMostOne (p ·) l' :=
    fun a ha b hb => h a (hperm.mem_iff.mp ha) b (hperm.mem_iff.mp hb)
  ext a
  rw [find?_eq_some_iff h', find?_eq_some_iff h, hperm.mem_iff]

/-- The rows that meet the condition are one row or none. -/
theorem filter_eq_find? (hnodup : (l.filter p).Nodup) (h : AtMostOne (p ·) l) : l.filter p = (l.find? p).toList := by
  induction l with
  | nil => rfl
  | cons a l ih =>
    have h' : AtMostOne (p ·) l := fun b hb c hc => h b (List.mem_cons_of_mem a hb) c (List.mem_cons_of_mem a hc)
    by_cases hpa : p a = true
    · rw [List.filter_cons_of_pos hpa] at hnodup ⊢
      have hrest : l.filter p = [] := by
        rw [List.eq_nil_iff_forall_not_mem]
        intro b hb
        obtain ⟨hmem, hpb⟩ := List.mem_filter.mp hb
        have heq := h a List.mem_cons_self b (List.mem_cons_of_mem a hmem) hpa hpb
        exact (List.nodup_cons.mp hnodup).1 (heq ▸ hb)
      rw [List.find?_cons_of_pos hpa, hrest]
      rfl
    · rw [List.filter_cons_of_neg hpa] at hnodup ⊢
      rw [List.find?_cons_of_neg hpa]
      exact ih hnodup h'

/-- A condition on one row of the list. -/
theorem find?_eq_of_iff {a : α} (ha : a ∈ l) (hp : ∀ b ∈ l, p b = true ↔ b = a) : l.find? p = some a := by
  rw [find?_eq_some_iff]
  · exact ⟨ha, (hp a ha).mpr rfl⟩
  · exact fun b hb c hc hpb hpc => ((hp b hb).mp hpb).trans ((hp c hc).mp hpc).symm

theorem filter_eq_of_iff {a : α} (hnodup : l.Nodup) (ha : a ∈ l) (hp : ∀ b ∈ l, p b = true ↔ b = a) :
    l.filter p = [a] := by
  rw [filter_eq_find? (hnodup.filter p), find?_eq_of_iff ha hp]
  · rfl
  · exact fun b hb c hc hpb hpc => ((hp b hb).mp hpb).trans ((hp c hc).mp hpc).symm

end Find

/-! ## Orderings -/

section Order

variable [LinearOrder κ] (key : α → κ)

/-- `ORDER BY` a key. -/
def orderBy (l : List α) : List α := l.insertionSort (key · ≤ key ·)

variable {key} {l l' : List α}

theorem orderBy_perm_self (key : α → κ) (l : List α) : (orderBy key l).Perm l :=
  List.perm_insertionSort _ l

@[simp] theorem mem_orderBy {a : α} : a ∈ orderBy key l ↔ a ∈ l :=
  (orderBy_perm_self key l).mem_iff

theorem orderBy_pairwise (key : α → κ) (l : List α) : (orderBy key l).Pairwise (key · ≤ key ·) := by
  have : IsTrans α (key · ≤ key ·) := ⟨fun _ _ _ => le_trans⟩
  have : Std.Total (α := α) (key · ≤ key ·) := ⟨fun a b => le_total (key a) (key b)⟩
  exact List.pairwise_insertionSort _ l

/-- The ordered rows are the only list of these rows in this order. -/
theorem orderBy_eq (h : KeyOn key l) (hperm : l'.Perm l) (hsorted : l'.Pairwise (key · ≤ key ·)) :
    orderBy key l = l' := by
  have hall : (orderBy key l).Perm l' := (orderBy_perm_self key l).trans hperm.symm
  refine List.Perm.eq_of_pairwise ?_ (orderBy_pairwise key l) hsorted hall
  intro a b ha hb hab hba
  exact h.inj (mem_orderBy.mp ha) (hperm.mem_iff.mp hb) (le_antisymm hab hba)

theorem orderBy_perm (h : KeyOn key l) (hperm : l'.Perm l) : orderBy key l' = orderBy key l :=
  (orderBy_eq h ((orderBy_perm_self key l').trans hperm) (orderBy_pairwise key l')).symm

theorem orderBy_map (f : β → α) (l : List β) : orderBy key (l.map f) = (orderBy (fun b => key (f b)) l).map f :=
  (List.map_insertionSort _ _ f l fun _ _ _ _ => Iff.rfl).symm

/-- Ordered rows with a unique key have no neighbours of one key. -/
theorem destutter_orderBy (h : KeyOn key l) :
    (orderBy key l).destutter (fun a b => key a ≠ key b) = orderBy key l := by
  rw [List.destutter_eq_self_iff]
  have hnodup : (orderBy key l).Pairwise (fun a b => key a ≠ key b) :=
    List.pairwise_map.mp (h.perm (orderBy_perm_self key l))
  exact hnodup.isChain

/-- The front of a list is in the order of the positions in the list. -/
theorem take_pairwise_idxOf [DecidableEq β] {l : List β} {n : Nat} (h : (l.take n).Nodup) :
    (l.take n).Pairwise fun a b => l.idxOf a ≤ l.idxOf b := by
  have hidx : ∀ j (hj : j < (l.take n).length), l.idxOf (l.take n)[j] = j := by
    intro j hj
    have happend : (l.take n ++ l.drop n).idxOf (l.take n)[j] = (l.take n).idxOf (l.take n)[j] :=
      List.idxOf_append_of_mem (List.getElem_mem hj)
    rw [List.take_append_drop] at happend
    rw [happend, h.idxOf_getElem]
  rw [List.pairwise_iff_getElem]
  intro i j hi hj hij
  rw [hidx i hi, hidx j hj]
  exact hij.le

end Order

/-! ## Joins -/

section Join

variable (on : α → β → Bool) (as : List α) (bs : List β)

/-- `JOIN … ON`. -/
def join : List (α × β) := as.flatMap fun a => (bs.filter (on a)).map (a, ·)

/-- `LEFT JOIN … ON`: a row without a match stays, with nothing beside it. -/
def leftJoin : List (α × Option β) :=
  as.flatMap fun a => if bs.filter (on a) = [] then [(a, none)] else (bs.filter (on a)).map fun b => (a, some b)

variable {on as bs}

theorem join_cons (a : α) : join on (a :: as) bs = (bs.filter (on a)).map (a, ·) ++ join on as bs := rfl

/-- Rows that can only match one row of the other table. -/
theorem join_single {b : β} {q : α → Bool} (h : ∀ a ∈ as, bs.filter (on a) = if q a then [b] else []) :
    join on as bs = (as.filter q).map (·, b) := by
  induction as with
  | nil => rfl
  | cons a as ih =>
    rw [List.forall_mem_cons] at h
    rw [join_cons, h.1, ih h.2]
    by_cases hq : q a = true
    · rw [if_pos hq, List.filter_cons_of_pos hq]
      rfl
    · rw [if_neg hq, List.filter_cons_of_neg hq]
      rfl

/-- A row that can only match one row of the other table. -/
theorem leftJoin_singleton {a : α} (h : bs.filter (on a) = (bs.find? (on a)).toList) :
    leftJoin on [a] bs = [(a, bs.find? (on a))] := by
  unfold leftJoin
  rw [List.flatMap_singleton, h]
  cases bs.find? (on a) <;> rfl

/-- A condition on the left table can be tested before the join. -/
theorem filter_join (on : α → β → Bool) (as : List α) (bs : List β) (q : α → Bool) :
    (join on as bs).filter (fun r => q r.1) = join on (as.filter q) bs := by
  induction as with
  | nil => rfl
  | cons a as ih =>
    rw [join_cons, List.filter_append, ih, List.filter_map]
    by_cases hq : q a = true
    · rw [List.filter_cons_of_pos hq, join_cons]
      simp [Function.comp_def, hq]
    · rw [List.filter_cons_of_neg hq]
      simp [Function.comp_def, hq]

end Join

end Keyed
