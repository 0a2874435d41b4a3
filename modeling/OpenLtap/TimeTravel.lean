-- SUMMARY: Reads of a past page, the gate for dropping images, and branches over fragments (`timetravel.rs`).
import Mathlib.Data.List.MinMax
import Mathlib.Order.Bounds.Basic
import OpenLtap.Wal.Reader

/-!
# Time travel over fragments

A read of a page is served from the newest fragment at or below its LSN, rolled forward by the
retained tail. An image of a range may go if every read from the horizon on is still served.
A branch reads its parent at the branch point where it has no history of its own.
-/

namespace Ltap

/-- Pages `start..end` of a relation, written out at an LSN. -/
structure Fragment where
  rel : Nat
  start : Nat
  end_ : Nat
  lsn : Lsn
  deriving DecidableEq, Repr

def Fragment.covers (f : Fragment) (rel block : Nat) : Bool :=
  f.rel = rel ∧ block ≥ f.start ∧ block < f.end_

inductive Resolve where
  | serve (baseLsn readLsn : Lsn)
  | belowHorizon
  | uncovered
  deriving DecidableEq, Repr

structure Lake where
  fragments : List Fragment
  tailFloor : Lsn
  tip : Lsn
  deriving DecidableEq, Repr

namespace Lake

variable (lake : Lake) (rel block : Nat)

/-- The newest fragment of the page at or below the LSN, the last one of several. -/
def base (readLsn : Lsn) : Option Fragment :=
  ((lake.fragments.filter fun f => f.covers rel block ∧ f.lsn ≤ readLsn).reverse).argmax (·.lsn)

def resolve (readLsn : Lsn) : Resolve :=
  match lake.base rel block readLsn with
  | some f =>
    if f.lsn = readLsn ∨ f.lsn ≥ lake.tailFloor then .serve f.lsn readLsn else .belowHorizon
  | none => if lake.fragments.any (·.covers rel block) then .belowHorizon else .uncovered

def imageRedundant (start end_ : Nat) (gcHorizon : Lsn) : Bool :=
  (List.range' start (end_ - start)).all fun b =>
    lake.fragments.any fun f => f.covers rel b ∧ f.lsn ≤ gcHorizon ∧ f.lsn ≥ lake.tailFloor

end Lake

/-- A parent's history up to an LSN, and writes of its own above. -/
structure Branch where
  parent : Lake
  branchLsn : Lsn
  own : Lake
  deriving DecidableEq, Repr

def Branch.resolve (branch : Branch) (rel block : Nat) (readLsn : Lsn) : Resolve :=
  if readLsn ≤ branch.branchLsn then branch.parent.resolve rel block readLsn
  else
    match branch.own.resolve rel block readLsn with
    | .uncovered => branch.parent.resolve rel block branch.branchLsn
    | other => other

def effectiveGcHorizon (configured : Lsn) (branchPoints : List Lsn) : Lsn := branchPoints.foldl min configured

/-! ## The history of a page

What a read finds depends on the LSNs at which the page was written out, and on nothing else. -/

namespace Lake

variable (lake : Lake) (rel block : Nat)

/-- The LSNs at which the page was written out. -/
def History : Set Lsn := {lsn | ∃ f ∈ lake.fragments, f.covers rel block = true ∧ f.lsn = lsn}

/-- A read is served from a fragment at this LSN, at or below its own: the tail after it is there or
not needed. -/
def Reaches (readLsn lsn : Lsn) : Prop := lsn ≤ readLsn ∧ (lsn = readLsn ∨ lake.tailFloor ≤ lsn)

/-- The page was written out, but the tail after what a read would start from is gone. -/
def Lapsed (readLsn : Lsn) : Prop :=
  (lake.History rel block).Nonempty ∧ ∀ lsn ∈ lake.History rel block, ¬ lake.Reaches readLsn lsn

variable {lake rel block} {readLsn : Lsn}

theorem base_some {f : Fragment} (h : lake.base rel block readLsn = some f) :
    IsGreatest {lsn ∈ lake.History rel block | lsn ≤ readLsn} f.lsn := by
  constructor
  · have hmem := List.mem_reverse.mp (List.argmax_mem h)
    obtain ⟨hf, hsel⟩ := List.mem_filter.mp hmem
    obtain ⟨hcovers, hle⟩ := of_decide_eq_true hsel
    exact ⟨⟨f, hf, hcovers, rfl⟩, hle⟩
  · rintro lsn ⟨⟨g, hg, hcovers, rfl⟩, hle⟩
    have hmem : g ∈ lake.fragments.filter fun f => f.covers rel block ∧ f.lsn ≤ readLsn :=
      List.mem_filter.mpr ⟨hg, decide_eq_true ⟨hcovers, hle⟩⟩
    exact List.le_of_mem_argmax (List.mem_reverse.mpr hmem) h

theorem base_none (h : lake.base rel block readLsn = none) : ∀ lsn ∈ lake.History rel block, readLsn < lsn := by
  rintro lsn ⟨f, hf, hcovers, rfl⟩
  have hnil := List.reverse_eq_nil_iff.mp (List.argmax_eq_none.mp h)
  have hsel := List.filter_eq_nil_iff.mp hnil f hf
  by_contra hle
  exact hsel (decide_eq_true ⟨hcovers, not_lt.mp hle⟩)

theorem any_covers : lake.fragments.any (·.covers rel block) = true ↔ (lake.History rel block).Nonempty := by
  rw [List.any_eq_true]
  constructor
  · rintro ⟨f, hf, hcovers⟩
    exact ⟨f.lsn, f, hf, hcovers, rfl⟩
  · rintro ⟨-, f, hf, hcovers, -⟩
    exact ⟨f, hf, hcovers⟩

/-- A page is served from its newest state at or below the LSN, if that reaches the LSN. -/
theorem resolve_eq_serve {baseLsn readLsn' : Lsn} :
    lake.resolve rel block readLsn = .serve baseLsn readLsn' ↔
      readLsn' = readLsn ∧ IsGreatest {lsn ∈ lake.History rel block | lsn ≤ readLsn} baseLsn ∧
        lake.Reaches readLsn baseLsn := by
  unfold resolve
  cases hbase : lake.base rel block readLsn with
  | none =>
    have hnone := base_none hbase
    constructor
    · intro h
      simp only at h
      split at h <;> cases h
    · rintro ⟨-, hgreatest, -⟩
      exact absurd hgreatest.1.2 (not_le.mpr (hnone _ hgreatest.1.1))
  | some f =>
    have hf := base_some hbase
    have hle : f.lsn ≤ readLsn := hf.1.2
    simp only
    constructor
    · intro h
      split at h
      · rename_i hreach
        obtain ⟨rfl, rfl⟩ := Resolve.serve.inj h
        exact ⟨rfl, hf, hle, hreach⟩
      · cases h
    · rintro ⟨rfl, hgreatest, -, hreach⟩
      rw [hgreatest.unique hf] at hreach ⊢
      rw [if_pos hreach]

theorem resolve_eq_uncovered : lake.resolve rel block readLsn = .uncovered ↔ lake.History rel block = ∅ := by
  rw [← Set.not_nonempty_iff_eq_empty, ← any_covers]
  unfold resolve
  cases hbase : lake.base rel block readLsn with
  | none => by_cases hany : lake.fragments.any (·.covers rel block) = true <;> simp [hany]
  | some f =>
    have hany : lake.fragments.any (·.covers rel block) = true := any_covers.mpr ⟨f.lsn, (base_some hbase).1.1⟩
    simp only [hany, not_true_eq_false, iff_false]
    split <;> simp

/-- A state that reaches the LSN is enough: the newest one reaches it then too. -/
theorem serves_iff :
    (∃ baseLsn, lake.resolve rel block readLsn = .serve baseLsn readLsn) ↔
      ∃ lsn ∈ lake.History rel block, lake.Reaches readLsn lsn := by
  constructor
  · rintro ⟨baseLsn, h⟩
    obtain ⟨-, hgreatest, hreach⟩ := resolve_eq_serve.mp h
    exact ⟨baseLsn, hgreatest.1.1, hreach⟩
  · rintro ⟨lsn, hlsn, hle, hreach⟩
    cases hbase : lake.base rel block readLsn with
    | none => exact absurd hle (not_le.mpr (base_none hbase lsn hlsn))
    | some f =>
      have hgreatest := base_some hbase
      have hge : lsn ≤ f.lsn := hgreatest.2 ⟨hlsn, hle⟩
      have hle' : f.lsn ≤ readLsn := hgreatest.1.2
      refine ⟨f.lsn, resolve_eq_serve.mpr ⟨rfl, hgreatest, hle', ?_⟩⟩
      rcases hreach with rfl | hfloor
      · exact .inl (le_antisymm hle' hge)
      · exact .inr (hfloor.trans hge)

theorem resolve_eq_belowHorizon : lake.resolve rel block readLsn = .belowHorizon ↔ lake.Lapsed rel block readLsn := by
  have hserves : (∃ baseLsn, lake.resolve rel block readLsn = .serve baseLsn readLsn) ↔
      ∃ lsn ∈ lake.History rel block, lake.Reaches readLsn lsn := serves_iff
  have huncovered : lake.resolve rel block readLsn = .uncovered ↔ lake.History rel block = ∅ := resolve_eq_uncovered
  unfold Lapsed
  cases hres : lake.resolve rel block readLsn with
  | serve baseLsn readLsn' =>
    obtain ⟨rfl, -⟩ := resolve_eq_serve.mp hres
    obtain ⟨lsn, hlsn, hreach⟩ := hserves.mp ⟨baseLsn, hres⟩
    simp only [reduceCtorEq, false_iff]
    rintro ⟨-, hlapsed⟩
    exact hlapsed lsn hlsn hreach
  | belowHorizon =>
    rw [hres] at hserves huncovered
    simp only [reduceCtorEq, exists_false, false_iff] at hserves huncovered
    refine ⟨fun _ => ⟨Set.nonempty_iff_ne_empty.mpr huncovered, ?_⟩, fun _ => rfl⟩
    intro lsn hlsn hreach
    exact hserves ⟨lsn, hlsn, hreach⟩
  | uncovered =>
    rw [resolve_eq_uncovered.mp hres]
    simp

/-- More history serves more. -/
theorem serves_mono {lake' : Lake} {baseLsn readLsn' : Lsn} (hfloor : lake'.tailFloor = lake.tailFloor)
    (hmore : lake.fragments ⊆ lake'.fragments) (h : lake.resolve rel block readLsn = .serve baseLsn readLsn') :
    ∃ baseLsn', lake'.resolve rel block readLsn = .serve baseLsn' readLsn' := by
  obtain ⟨rfl, -⟩ := resolve_eq_serve.mp h
  obtain ⟨lsn, ⟨f, hf, hcovers, rfl⟩, hle, hreach⟩ := serves_iff.mp ⟨baseLsn, h⟩
  exact serves_iff.mpr ⟨f.lsn, ⟨f, hmore hf, hcovers, rfl⟩, hle, hfloor ▸ hreach⟩

/-- Fragments above the LSN of a read of the page do not enter into its history there. -/
theorem history_append {more : List Fragment} :
    ({ lake with fragments := lake.fragments ++ more } : Lake).History rel block =
      lake.History rel block ∪ {lsn | ∃ f ∈ more, f.covers rel block = true ∧ f.lsn = lsn} := by
  ext lsn
  simp only [History, List.mem_append, Set.mem_ofPred_eq, Set.mem_union]
  constructor
  · rintro ⟨f, hf | hf, h⟩
    · exact .inl ⟨f, hf, h⟩
    · exact .inr ⟨f, hf, h⟩
  · rintro (⟨f, hf, h⟩ | ⟨f, hf, h⟩)
    · exact ⟨f, .inl hf, h⟩
    · exact ⟨f, .inr hf, h⟩

/-! ## Dropping images -/

/-- What the gate checks: every page of the range has a state in the window. -/
theorem imageRedundant_iff {start end_ : Nat} {gcHorizon : Lsn} :
    lake.imageRedundant rel start end_ gcHorizon = true ↔
      ∀ b, start ≤ b → b < end_ → ∃ lsn ∈ lake.History rel b, lake.tailFloor ≤ lsn ∧ lsn ≤ gcHorizon := by
  simp only [imageRedundant, List.all_eq_true, List.mem_range'_1, List.any_eq_true]
  constructor
  · intro h b hstart hend
    obtain ⟨f, hf, hsel⟩ := h b ⟨hstart, by omega⟩
    obtain ⟨hcovers, hle, hge⟩ := of_decide_eq_true hsel
    exact ⟨f.lsn, ⟨f, hf, hcovers, rfl⟩, hge, hle⟩
  · rintro h b ⟨hstart, hend⟩
    obtain ⟨-, ⟨f, hf, hcovers, rfl⟩, hge, hle⟩ := h b hstart (by omega)
    exact ⟨f, hf, decide_eq_true ⟨hcovers, hle, hge⟩⟩

/-- A state in the window serves every read from the horizon on, without leaving the tail. -/
theorem serve_above {lsn : Lsn} (hlsn : lsn ∈ lake.History rel block) (hge : lake.tailFloor ≤ lsn)
    (hle : lsn ≤ readLsn) :
    ∃ baseLsn, lake.resolve rel block readLsn = .serve baseLsn readLsn ∧ lake.tailFloor ≤ baseLsn ∧
      baseLsn ≤ readLsn := by
  obtain ⟨baseLsn, h⟩ := serves_iff.mpr ⟨lsn, hlsn, hle, .inr hge⟩
  obtain ⟨-, hgreatest, -⟩ := resolve_eq_serve.mp h
  exact ⟨baseLsn, h, hge.trans (hgreatest.2 ⟨hlsn, hle⟩), hgreatest.1.2⟩

end Lake

theorem effectiveGcHorizon_le_iff {configured lsn : Lsn} {branchPoints : List Lsn} :
    lsn ≤ effectiveGcHorizon configured branchPoints ↔ lsn ≤ configured ∧ ∀ point ∈ branchPoints, lsn ≤ point := by
  unfold effectiveGcHorizon
  induction branchPoints generalizing configured with
  | nil => simp
  | cons point points ih =>
    rw [List.foldl_cons, ih, le_min_iff, List.forall_mem_cons, and_assoc]

/-! ## Branches -/

namespace Branch

variable {branch : Branch} {rel block : Nat} {readLsn : Lsn}

/-- Above the branch point a page is the parent's if the branch has no history of it. -/
theorem resolve_above (habove : branch.branchLsn < readLsn) :
    branch.resolve rel block readLsn =
      if branch.own.resolve rel block readLsn = .uncovered then branch.parent.resolve rel block branch.branchLsn
      else branch.own.resolve rel block readLsn := by
  rw [resolve, if_neg (not_le.mpr habove)]
  cases branch.own.resolve rel block readLsn <;> rfl

theorem resolve_inherited (habove : branch.branchLsn < readLsn) (hnone : branch.own.History rel block = ∅) :
    branch.resolve rel block readLsn = branch.parent.resolve rel block branch.branchLsn := by
  rw [resolve_above habove, if_pos (Lake.resolve_eq_uncovered.mpr hnone)]

/-- History above the LSN only: the branch answers for the page, and says that it is gone. -/
theorem resolve_gap (habove : branch.branchLsn < readLsn) (hsome : (branch.own.History rel block).Nonempty)
    (hlater : ∀ lsn ∈ branch.own.History rel block, readLsn < lsn) :
    branch.resolve rel block readLsn = .belowHorizon := by
  have hown : branch.own.resolve rel block readLsn = .belowHorizon :=
    Lake.resolve_eq_belowHorizon.mpr ⟨hsome, fun lsn hlsn hreach => absurd hreach.1 (not_le.mpr (hlater lsn hlsn))⟩
  rw [resolve_above habove, hown, if_neg (by simp)]

/-- The branch after it has written out more pages. -/
def write (branch : Branch) (more : List Fragment) : Branch :=
  { branch with own := { branch.own with fragments := branch.own.fragments ++ more } }

variable {more : List Fragment}

/-- Where the branch has history only above the read, it inherits what cannot be told from its own answer. -/
theorem inherits_iff (habove : branch.branchLsn < readLsn) :
    ((∀ lsn ∈ branch.own.History rel block, ¬ lsn ≤ readLsn) →
        branch.resolve rel block readLsn = branch.parent.resolve rel block branch.branchLsn) ↔
      (∃ lsn ∈ branch.own.History rel block, lsn ≤ readLsn) ∨ branch.own.History rel block = ∅ ∨
        branch.parent.Lapsed rel block branch.branchLsn := by
  rcases Set.eq_empty_or_nonempty (branch.own.History rel block) with hnone | hsome
  · simp only [hnone, resolve_inherited habove hnone, implies_true, true_or, or_true]
  constructor
  · intro h
    by_cases htaken : ∃ lsn ∈ branch.own.History rel block, lsn ≤ readLsn
    · exact .inl htaken
    · have hlater : ∀ lsn ∈ branch.own.History rel block, readLsn < lsn := by
        intro lsn hlsn
        exact not_le.mp fun hle => htaken ⟨lsn, hlsn, hle⟩
      have hinherited := h fun lsn hlsn => not_le.mpr (hlater lsn hlsn)
      rw [resolve_gap habove hsome hlater] at hinherited
      exact .inr (.inr (Lake.resolve_eq_belowHorizon.mp hinherited.symm))
  · rintro (⟨lsn, hlsn, hle⟩ | hnone | hlapsed) hlater
    · exact absurd hle (hlater lsn hlsn)
    · exact absurd hnone hsome.ne_empty
    · rw [resolve_gap habove hsome fun lsn hlsn => not_le.mp (hlater lsn hlsn), Lake.resolve_eq_belowHorizon.mpr hlapsed]

/-- Writing out a page that the branch never touched hides the parent from earlier reads. -/
theorem write_gap (habove : branch.branchLsn < readLsn) (hmore : ∀ f ∈ more, readLsn < f.lsn)
    (hnone : branch.own.History rel block = ∅) (hcovers : ¬ ∀ f ∈ more, f.covers rel block = false) :
    (branch.write more).resolve rel block readLsn = .belowHorizon := by
  push Not at hcovers
  obtain ⟨f, hf, hcovers⟩ := hcovers
  have hhistory : (branch.write more).own.History rel block = _ := Lake.history_append
  rw [hnone, Set.empty_union] at hhistory
  refine resolve_gap habove ?_ ?_
  · rw [hhistory]
    exact ⟨f.lsn, f, hf, Bool.eq_true_of_not_eq_false hcovers, rfl⟩
  · rw [hhistory]
    rintro lsn ⟨g, hg, -, rfl⟩
    exact hmore g hg

/-- Later writes change nothing on a page that the branch has written out before. -/
theorem own_write (hmore : ∀ f ∈ more, readLsn < f.lsn) (hsome : (branch.own.History rel block).Nonempty) :
    (branch.write more).own.resolve rel block readLsn = branch.own.resolve rel block readLsn := by
  have hhistory : (branch.write more).own.History rel block = _ := Lake.history_append
  have hfloor : (branch.write more).own.tailFloor = branch.own.tailFloor := rfl
  cases hres : branch.own.resolve rel block readLsn with
  | serve baseLsn readLsn' =>
    rw [Lake.resolve_eq_serve] at hres ⊢
    obtain ⟨rfl, hgreatest, hreach⟩ := hres
    refine ⟨rfl, ?_, hreach⟩
    refine ⟨⟨?_, hgreatest.1.2⟩, ?_⟩
    · rw [hhistory]
      exact .inl hgreatest.1.1
    · rintro lsn ⟨hlsn, hle⟩
      rw [hhistory] at hlsn
      rcases hlsn with hlsn | ⟨f, hf, -, rfl⟩
      · exact hgreatest.2 ⟨hlsn, hle⟩
      · exact absurd hle (not_le.mpr (hmore f hf))
  | belowHorizon =>
    rw [Lake.resolve_eq_belowHorizon] at hres ⊢
    refine ⟨?_, ?_⟩
    · rw [hhistory]
      exact hsome.inl
    · intro lsn hlsn hreach
      rw [hhistory] at hlsn
      rcases hlsn with hlsn | ⟨f, hf, -, rfl⟩
      · exact hres.2 lsn hlsn hreach
      · exact absurd hreach.1 (not_le.mpr (hmore f hf))
  | uncovered => exact absurd (Lake.resolve_eq_uncovered.mp hres) hsome.ne_empty

theorem write_same_iff (habove : branch.branchLsn < readLsn) (hmore : ∀ f ∈ more, readLsn < f.lsn) :
    (branch.write more).resolve rel block readLsn = branch.resolve rel block readLsn ↔
      (branch.own.History rel block).Nonempty ∨ (∀ f ∈ more, f.covers rel block = false) ∨
        branch.parent.Lapsed rel block branch.branchLsn := by
  have habove' : (branch.write more).branchLsn < readLsn := habove
  rcases Set.eq_empty_or_nonempty (branch.own.History rel block) with hnone | hsome
  · rw [resolve_inherited habove hnone]
    by_cases hcovers : ∀ f ∈ more, f.covers rel block = false
    · have hnone' : (branch.write more).own.History rel block = ∅ := by
        refine Eq.trans Lake.history_append ?_
        rw [hnone, Set.empty_union, Set.eq_empty_iff_forall_notMem]
        rintro lsn ⟨f, hf, hf', -⟩
        rw [hcovers f hf] at hf'
        cases hf'
      rw [resolve_inherited habove' hnone']
      exact iff_of_true rfl (.inr (.inl hcovers))
    · rw [write_gap habove hmore hnone hcovers, eq_comm, Lake.resolve_eq_belowHorizon]
      simp only [hnone, Set.not_nonempty_empty, hcovers, false_or]
  · rw [resolve_above habove', resolve_above habove, own_write hmore hsome]
    exact iff_of_true rfl (.inl hsome)

end Branch

/-! ## The gate and the reads -/

/-- An image goes only if every read from the horizon on is served without it, here and at the
points that branches read from; and no read is lost by writing out more. -/
theorem imageRedundant_safe (lake : Lake) (rel start end_ : Nat) (configured : Lsn) (branchPoints : List Lsn) :
    (lake.imageRedundant rel start end_ (effectiveGcHorizon configured branchPoints) = true →
      ∀ block, start ≤ block → block < end_ →
        (∀ readLsn, effectiveGcHorizon configured branchPoints ≤ readLsn →
          ∃ baseLsn, lake.resolve rel block readLsn = .serve baseLsn readLsn ∧ lake.tailFloor ≤ baseLsn ∧
            baseLsn ≤ readLsn) ∧
        ∀ point ∈ branchPoints, ∀ own : Lake, ∃ baseLsn, lake.tailFloor ≤ baseLsn ∧ baseLsn ≤ point ∧
          lake.resolve rel block point = .serve baseLsn point ∧
          ∀ readLsn, point < readLsn → own.resolve rel block readLsn = .uncovered →
            Branch.resolve { parent := lake, branchLsn := point, own } rel block readLsn = .serve baseLsn point) ∧
    ∀ lake' : Lake, lake'.tailFloor = lake.tailFloor → lake.fragments ⊆ lake'.fragments →
      ∀ rel block readLsn baseLsn readLsn', lake.resolve rel block readLsn = .serve baseLsn readLsn' →
        ∃ baseLsn', lake'.resolve rel block readLsn = .serve baseLsn' readLsn' := by
  constructor
  · intro hredundant block hstart hend
    obtain ⟨lsn, hlsn, hge, hle⟩ := Lake.imageRedundant_iff.mp hredundant block hstart hend
    obtain ⟨-, hpoints⟩ := effectiveGcHorizon_le_iff.mp hle
    constructor
    · intro readLsn hread
      exact Lake.serve_above hlsn hge (hle.trans hread)
    · intro point hpoint own
      obtain ⟨baseLsn, hserve, hfloor, hbase⟩ := Lake.serve_above hlsn hge (hpoints point hpoint)
      refine ⟨baseLsn, hfloor, hbase, hserve, ?_⟩
      intro readLsn habove hown
      rw [Branch.resolve_above habove, if_pos hown]
      exact hserve
  · intro lake' hfloor hmore rel block readLsn baseLsn readLsn' h
    obtain ⟨rfl, -⟩ := Lake.resolve_eq_serve.mp h
    exact Lake.serves_mono hfloor hmore h

theorem imageRedundant_safe_two :
    let lake : Lake := { fragments := [⟨1, 0, 10, 100⟩, ⟨1, 0, 10, 300⟩], tailFloor := 150, tip := 400 }
    ∃ baseLsn, lake.resolve 1 5 420 = .serve baseLsn 420 ∧ 150 ≤ baseLsn ∧ baseLsn ≤ 420 :=
  ((imageRedundant_safe { fragments := [⟨1, 0, 10, 100⟩, ⟨1, 0, 10, 300⟩], tailFloor := 150, tip := 400 }
    1 0 10 400 [350, 380]).1 (by decide) 5 (by decide) (by decide)).1 420 (by decide)

namespace Branch

/-- A page of the parent at 100, and the branch at 300 that writes it out at 500. -/
def gap : Branch where
  parent := { fragments := [⟨1, 0, 10, 100⟩], tailFloor := 50, tip := 400 }
  branchLsn := 300
  own := { fragments := [⟨1, 5, 6, 500⟩], tailFloor := 300, tip := 600 }

theorem gap_not_inherited :
    (gap.branchLsn < 400 ∧ (∀ lsn ∈ gap.own.History 1 5, ¬ lsn ≤ 400) ∧
      gap.resolve 1 5 400 ≠ gap.parent.resolve 1 5 gap.branchLsn) ∧
    ({ gap with own := { gap.own with fragments := [] } } : Branch).resolve 1 5 400 = .serve 100 300 ∧
    ({ gap with own := { gap.own with fragments := [] } } : Branch).write [⟨1, 5, 6, 500⟩] = gap ∧
    gap.resolve 1 5 400 = .belowHorizon := by
  refine ⟨⟨by decide, ?_, by decide⟩, by decide, rfl, by decide⟩
  rintro lsn ⟨f, hf, -, rfl⟩
  obtain rfl := List.mem_singleton.mp hf
  decide

/-- Exactly when a read above the branch point inherits the parent's answer, and when later writes
leave it alone and serveable. -/
theorem resolve_inherits_iff (branch : Branch) (rel block : Nat) (readLsn : Lsn) (habove : branch.branchLsn < readLsn) :
    (((∀ lsn ∈ branch.own.History rel block, ¬ lsn ≤ readLsn) →
        branch.resolve rel block readLsn = branch.parent.resolve rel block branch.branchLsn) ↔
      (∃ lsn ∈ branch.own.History rel block, lsn ≤ readLsn) ∨ branch.own.History rel block = ∅ ∨
        branch.parent.Lapsed rel block branch.branchLsn) ∧
    ∀ more : List Fragment, (∀ f ∈ more, readLsn < f.lsn) →
      ((branch.write more).resolve rel block readLsn = branch.resolve rel block readLsn ↔
        (branch.own.History rel block).Nonempty ∨ (∀ f ∈ more, f.covers rel block = false) ∨
          branch.parent.Lapsed rel block branch.branchLsn) ∧
      ∀ baseLsn atLsn, branch.resolve rel block readLsn = .serve baseLsn atLsn →
        ((∃ baseLsn' atLsn', (branch.write more).resolve rel block readLsn = .serve baseLsn' atLsn') ↔
          (branch.own.History rel block).Nonempty ∨ ∀ f ∈ more, f.covers rel block = false) := by
  refine ⟨inherits_iff habove, ?_⟩
  intro more hmore
  have hsame : (branch.write more).resolve rel block readLsn = branch.resolve rel block readLsn ↔
      (branch.own.History rel block).Nonempty ∨ (∀ f ∈ more, f.covers rel block = false) ∨
        branch.parent.Lapsed rel block branch.branchLsn := write_same_iff habove hmore
  refine ⟨hsame, ?_⟩
  intro baseLsn atLsn hserve
  constructor
  · rintro ⟨baseLsn', atLsn', hserve'⟩
    by_contra hneither
    obtain ⟨hnone, hcovers⟩ := not_or.mp hneither
    have hgap := write_gap habove hmore (Set.not_nonempty_iff_eq_empty.mp hnone) hcovers
    rw [hgap] at hserve'
    cases hserve'
  · intro h
    refine ⟨baseLsn, atLsn, (hsame.mpr ?_).trans hserve⟩
    rcases h with hsome | hcovers
    · exact .inl hsome
    · exact .inr (.inl hcovers)

theorem resolve_inherits_iff_gap :
    (gap.write [⟨1, 5, 6, 700⟩]).resolve 1 5 400 = gap.resolve 1 5 400 :=
  ((resolve_inherits_iff gap 1 5 400 (by decide)).2 [⟨1, 5, 6, 700⟩] (by decide)).1.mpr
    (.inl ⟨500, ⟨1, 5, 6, 500⟩, by decide, by decide, rfl⟩)

end Branch

end Ltap
