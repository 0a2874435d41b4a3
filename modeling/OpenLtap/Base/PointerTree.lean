-- SUMMARY: Walks over trees of numbered blocks: what a walk returns, and when it ends.
import Mathlib.Tactic.Common

/-!
# Trees of blocks

A block holds items, or the numbers of further blocks. A walk goes through the blocks below one
and hands out their items in order. Nothing keeps the numbers from leading back to a block that
is being walked, so a walk has fuel. It ends with items exactly on the finite trees.
-/

namespace PointerTree

/-- What a block holds. -/
inductive Node (α : Type) where
  | inner (children : List Nat)
  | leaf (items : List α)
  deriving DecidableEq, Repr

variable {ε α : Type}

/-- The walks below some blocks, one after the other, up to the first that fails. -/
def walkAll (walk : Nat → Option (Except ε (List α))) : List Nat → Option (Except ε (List α))
  | [] => some (.ok [])
  | b :: bs =>
    match walk b with
    | none => none
    | some (.error e) => some (.error e)
    | some (.ok items) => (walkAll walk bs).map fun rest => rest.map (items ++ ·)

/-- The walk below a block. Nothing when it needs more fuel. -/
def walk (read : Nat → Except ε (Node α)) : Nat → Nat → Option (Except ε (List α))
  | 0, _ => none
  | fuel + 1, b =>
    match read b with
    | .error e => some (.error e)
    | .ok (.leaf items) => some (.ok items)
    | .ok (.inner children) => walkAll (walk read fuel) children

/-- Some blocks are the roots of finite trees, with these items in order. -/
inductive Below (read : Nat → Except ε (Node α)) : List Nat → List α → Prop
  | nil : Below read [] []
  | leaf {b : Nat} {bs : List Nat} {items rest : List α} :
      read b = .ok (.leaf items) → Below read bs rest → Below read (b :: bs) (items ++ rest)
  | inner {b : Nat} {bs children : List Nat} {items rest : List α} :
      read b = .ok (.inner children) → Below read children items → Below read bs rest →
      Below read (b :: bs) (items ++ rest)

variable {read : Nat → Except ε (Node α)} {fuel : Nat}

/-! ## More fuel -/

theorem walkAll_mono {w w' : Nat → Option (Except ε (List α))} (h : ∀ b r, w b = some r → w' b = some r)
    {bs : List Nat} {r : Except ε (List α)} (hr : walkAll w bs = some r) : walkAll w' bs = some r := by
  induction bs generalizing r with
  | nil => exact hr
  | cons b bs ih =>
    rw [walkAll] at hr ⊢
    cases hb : w b with
    | none => simp [hb] at hr
    | some rb =>
      rw [h b rb hb]
      rw [hb] at hr
      cases rb with
      | error e => exact hr
      | ok items =>
        obtain ⟨rest, hrest, hmap⟩ := Option.map_eq_some_iff.mp hr
        exact Option.map_eq_some_iff.mpr ⟨rest, ih hrest, hmap⟩

theorem walk_succ {b : Nat} {r : Except ε (List α)} (h : walk read fuel b = some r) :
    walk read (fuel + 1) b = some r := by
  induction fuel generalizing b r with
  | zero => cases h
  | succ fuel ih =>
    rw [walk] at h ⊢
    split at h
    · exact h
    · exact h
    · exact walkAll_mono (fun _ _ => ih) h

theorem walk_mono {fuel' b : Nat} (hle : fuel ≤ fuel') {r : Except ε (List α)} (h : walk read fuel b = some r) :
    walk read fuel' b = some r := by
  induction hle with
  | refl => exact h
  | step _ ih => exact walk_succ ih

/-! ## Finite trees -/

theorem below_of_walkAll {bs : List Nat} {items : List α}
    (hwalk : ∀ b items, walk read fuel b = some (.ok items) → Below read [b] items)
    (h : walkAll (walk read fuel) bs = some (.ok items)) : Below read bs items := by
  induction bs generalizing items with
  | nil =>
    cases h
    exact .nil
  | cons b bs ih =>
    rw [walkAll] at h
    cases hb : walk read fuel b with
    | none => simp [hb] at h
    | some rb =>
      rw [hb] at h
      cases rb with
      | error e => cases h
      | ok first =>
        obtain ⟨rest, hrest, hmap⟩ := Option.map_eq_some_iff.mp h
        cases rest with
        | error e => cases hmap
        | ok rest =>
          cases hmap
          have hrest := ih hrest
          cases hwalk b first hb with
          | leaf hread hnil =>
            cases hnil
            rw [List.append_nil]
            exact .leaf hread hrest
          | inner hread hchildren hnil =>
            cases hnil
            rw [List.append_nil]
            exact .inner hread hchildren hrest

theorem below_of_walk {b : Nat} {items : List α} (h : walk read fuel b = some (.ok items)) : Below read [b] items := by
  induction fuel generalizing b items with
  | zero => cases h
  | succ fuel ih =>
    rw [walk] at h
    split at h
    · cases h
    · cases h
      rw [← List.append_nil items]
      exact .leaf ‹_› .nil
    · rw [← List.append_nil items]
      exact .inner ‹_› (below_of_walkAll (fun _ _ => ih) h) .nil

theorem Below.walkAll {bs : List Nat} {items : List α} (h : Below read bs items) :
    ∃ fuel, walkAll (walk read fuel) bs = some (.ok items) := by
  induction h with
  | nil => exact ⟨0, rfl⟩
  | leaf hread hrest ih =>
    obtain ⟨fuel, hrest⟩ := ih
    refine ⟨fuel + 1, ?_⟩
    rw [PointerTree.walkAll, walk, hread]
    dsimp only
    rw [walkAll_mono (fun _ _ => walk_succ) hrest]
    rfl
  | inner hread hchildren hrest ihc ih =>
    obtain ⟨fuel, hchildren⟩ := ihc
    obtain ⟨fuel', hrest⟩ := ih
    refine ⟨fuel + fuel' + 1, ?_⟩
    rw [PointerTree.walkAll, walk, hread]
    dsimp only
    rw [walkAll_mono (fun _ _ => walk_mono (Nat.le_add_right fuel fuel')) hchildren,
      walkAll_mono (fun _ _ => walk_mono (by omega)) hrest]
    rfl

/-- A walk ends with items exactly on a finite tree, and the items are those of the tree. -/
theorem walk_ok_iff {b : Nat} {items : List α} :
    (∃ fuel, walk read fuel b = some (.ok items)) ↔ Below read [b] items := by
  constructor
  · rintro ⟨fuel, h⟩
    exact below_of_walk h
  · intro h
    obtain ⟨fuel, hall⟩ := h.walkAll
    refine ⟨fuel, ?_⟩
    rw [walkAll] at hall
    cases hb : walk read fuel b with
    | none => simp [hb] at hall
    | some r =>
      rw [hb] at hall
      cases r with
      | error e => cases hall
      | ok first =>
        have heq : Except.ok (first ++ []) = Except.ok items := Option.some.inj hall
        rw [List.append_nil] at heq
        rw [heq]

end PointerTree
