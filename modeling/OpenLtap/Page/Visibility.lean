-- SUMMARY: Visibility against Postgres' rule, and visibility of versions with a multixact (`clog.rs`).
import OpenLtap.Page.MultiXact
import OpenLtap.Page.Reconstruct

/-!
# Visibility

Postgres sees a version if its insert took effect and it was not removed. A frozen version has
both bits of its inserter set, and needs no log. A multixact is taken for the updater in it.
-/

namespace Ltap

/-! ## Frozen versions -/

/-- A commit log with every page in place. -/
structure Log where
  pages : Nat → Bytes
  full : ∀ pageno, (pages pageno).length = 8192

namespace Log

variable (log : Log)

def source : ClogSource := fun pageno => .ok (log.pages pageno)

/-- The two bits of the transaction say that it committed. -/
def Says (xid : Xid) : Prop := statusInPage (log.pages (xidToPage xid)) xid = .ok .committed

/-- It committed: the log says so, or it is older than the log. -/
def DidCommit (xid : Xid) : Prop := xid = bootstrapXid ∨ xid = frozenXid ∨ log.Says xid

def Inserted (xmin : Xid) (infomask : Nat) : Prop :=
  infomask &&& heapXminFrozen = heapXminFrozen ∨ log.DidCommit xmin

def Removed (xmax : Xid) (infomask : Nat) : Prop :=
  xmax ≠ invalidXid ∧ infomask &&& heapXmaxLockOnly = 0 ∧ log.DidCommit xmax

variable {log}

theorem statusInPage_total (xid : Xid) : ∃ status, statusInPage (log.pages (xidToPage xid)) xid = .ok status := by
  have hlt : (byteBit xid).1 < (log.pages (xidToPage xid)).length := by
    rw [log.full]
    exact Nat.div_lt_of_lt_mul (Nat.mod_lt _ (by decide))
  rw [statusInPage]
  simp only [List.getElem?_eq_getElem hlt]
  split <;> exact ⟨_, rfl⟩

variable (log) in
/-- The log answers for every transaction. -/
theorem resolve_total {xid : Xid} (h : xid ≠ invalidXid) : ∃ status, log.source.resolve xid = .ok status := by
  unfold ClogSource.resolve
  split
  · exact ⟨_, rfl⟩
  · exact statusInPage_total xid

theorem resolve_committed {xid : Xid} (h : xid ≠ invalidXid) :
    log.source.resolve xid = .ok .committed ↔ log.DidCommit xid := by
  unfold ClogSource.resolve DidCommit
  split
  · rename_i hold
    exact iff_of_true rfl (hold.imp_right .inl)
  · rename_i hold
    obtain ⟨hboot, hfrozen⟩ := not_or.mp hold
    simp only [hboot, hfrozen, false_or]
    rfl

variable (log) in
/-- Without an updater multixact the log alone decides. -/
theorem tupleVisible_eq {xmin xmax : Xid} {infomask : Nat} (hxmin : xmin ≠ invalidXid)
    (hplain : xmax = invalidXid ∨ infomask &&& heapXmaxIsMulti = 0 ∨ infomask &&& heapXmaxLockOnly ≠ 0) :
    ∃ visible, log.source.tupleVisible xmin xmax infomask = .ok visible ∧
      (visible = true ↔ log.DidCommit xmin ∧ ¬ log.Removed xmax infomask) := by
  obtain ⟨inserter, hin⟩ := log.resolve_total hxmin
  simp only [ClogSource.tupleVisible, hin, bind, Except.bind]
  by_cases hcommitted : inserter = .committed
  swap
  · have hnot : ¬ log.DidCommit xmin := by
      rw [← resolve_committed hxmin, hin]
      exact fun h => hcommitted (Except.ok.inj h)
    rw [if_pos hcommitted]
    exact ⟨false, rfl, by simp [hnot]⟩
  have hdid : log.DidCommit xmin := (resolve_committed hxmin).mp (by rw [hin, hcommitted])
  simp only [hcommitted, ne_eq, not_true_eq_false, if_false, hdid, true_and]
  by_cases hzero : xmax = invalidXid
  · rw [if_pos hzero]
    exact ⟨true, rfl, by simp [Removed, hzero]⟩
  rw [if_neg hzero]
  by_cases hlock : infomask &&& heapXmaxLockOnly = 0
  swap
  · refine ⟨true, ?_, by simp [Removed, hlock]⟩
    simp only [hlock, not_false_eq_true, if_true]
    split <;> rfl
  have hmulti : infomask &&& heapXmaxIsMulti = 0 := by
    rcases hplain with hplain | hplain | hplain
    · exact absurd hplain hzero
    · exact hplain
    · exact absurd hlock hplain
  obtain ⟨deleter, hout⟩ := log.resolve_total hzero
  simp only [hmulti, hlock, not_true_eq_false, if_false, hout]
  refine ⟨_, rfl, ?_⟩
  rw [decide_eq_true_iff, Removed, ← resolve_committed hzero, hout]
  simp [hzero, hlock]

def unwritten : Log where
  pages _ := List.replicate 8192 0
  full _ := List.length_replicate

theorem frozen_invisible :
    unwritten.Inserted 700 0x0B00 ∧ ¬ unwritten.Removed 0 0x0B00 ∧
      unwritten.source.tupleVisible 700 0 0x0B00 = .ok false :=
  ⟨.inl (by decide), fun h => h.1 rfl, by decide +kernel⟩

/-- Postgres' rule is kept except for a version that is there, but whose commit only its frozen bits
remember. -/
theorem tupleVisible_iff (log : Log) (xmin xmax : Xid) (infomask : Nat) (hxmin : xmin ≠ invalidXid)
    (hplain : xmax = invalidXid ∨ infomask &&& heapXmaxIsMulti = 0 ∨ infomask &&& heapXmaxLockOnly ≠ 0) :
    (log.source.tupleVisible xmin xmax infomask = .ok true ↔
        log.Inserted xmin infomask ∧ ¬ log.Removed xmax infomask) ↔
      (infomask &&& heapXminFrozen = heapXminFrozen → log.DidCommit xmin ∨ log.Removed xmax infomask) := by
  obtain ⟨visible, hvisible, hiff⟩ := log.tupleVisible_eq hxmin hplain
  have htrue : log.source.tupleVisible xmin xmax infomask = .ok true ↔ visible = true := by
    rw [hvisible]
    exact ⟨Except.ok.inj, congrArg _⟩
  rw [htrue, hiff, Inserted]
  by_cases hfrozen : infomask &&& heapXminFrozen = heapXminFrozen
  · simp only [hfrozen, true_or, true_and, true_implies]
    constructor
    · intro h
      by_contra hneither
      obtain ⟨hdid, hremoved⟩ := not_or.mp hneither
      exact hdid (h.mpr hremoved).1
    · rintro (hdid | hremoved)
      · exact and_iff_right hdid
      · exact iff_of_false (fun h => h.2 hremoved) (not_not_intro hremoved)
  · simp only [hfrozen, false_or, false_implies]

theorem tupleVisible_iff_unwritten : unwritten.source.tupleVisible 2 0 0x0B00 = .ok true :=
  ((tupleVisible_iff unwritten 2 0 0x0B00 (by decide) (.inl rfl)).mpr fun _ => .inl (.inr (.inl rfl))).mpr
    ⟨.inl (by decide), fun h => h.1 rfl⟩

end Log

/-! ## Multixacts -/

/-- The version has a multixact with an updater. -/
abbrev UpdaterMulti (infomask : Nat) : Prop :=
  infomask &&& heapXmaxIsMulti ≠ 0 ∧ infomask &&& heapXmaxLockOnly = 0

namespace ClogSource

variable (clog : ClogSource) (mx : MultiXactSource)

def tupleVisibleWithMultixact (xmin xmax : Xid) (infomask : Nat) : Except Fault Bool := do
  if infomask &&& heapXmaxIsMulti ≠ 0 ∧ infomask &&& heapXmaxLockOnly = 0 then
    let inserter ← clog.resolve xmin
    if inserter ≠ .committed then return false
    else
      match ← mx.resolveUpdater xmax with
      | some updaterXid =>
        let updater ← clog.resolve updaterXid
        return updater ≠ .committed
      | none => return true
  else clog.tupleVisible xmin xmax infomask

variable {clog mx} {xmin xmax : Xid} {infomask : Nat}

theorem tupleVisibleWithMultixact_plain (h : ¬ UpdaterMulti infomask) :
    clog.tupleVisibleWithMultixact mx xmin xmax infomask = clog.tupleVisible xmin xmax infomask := by
  rw [tupleVisibleWithMultixact, if_neg h]

/-- With an uncommitted inserter, or one the log cannot tell, the two agree. -/
theorem tupleVisibleWithMultixact_uncommitted (h : clog.resolve xmin ≠ .ok .committed) :
    clog.tupleVisibleWithMultixact mx xmin xmax infomask = clog.tupleVisible xmin xmax infomask := by
  by_cases hupdater : UpdaterMulti infomask
  · rw [tupleVisibleWithMultixact, if_pos hupdater, tupleVisible]
    cases hin : clog.resolve xmin with
    | error e => rfl
    | ok inserter =>
      have hne : inserter ≠ .committed := fun heq => h (by rw [hin, heq])
      simp only [bind, Except.bind, if_pos hne]
  · exact tupleVisibleWithMultixact_plain hupdater

theorem tupleVisibleWithMultixact_updater (hupdater : UpdaterMulti infomask) (hin : clog.resolve xmin = .ok .committed) :
    clog.tupleVisibleWithMultixact mx xmin xmax infomask =
      (do
        match ← mx.resolveUpdater xmax with
        | some updaterXid =>
          let updater ← clog.resolve updaterXid
          return updater ≠ .committed
        | none => return true) := by
  rw [tupleVisibleWithMultixact, if_pos hupdater, hin]
  rfl

/-- The members of a multixact leave the version in place. -/
def Spared (clog : ClogSource) (mx : MultiXactSource) (multi : Nat) : Prop :=
  mx.resolveUpdater multi = .ok none ∨
    ∃ xid status, mx.resolveUpdater multi = .ok (some xid) ∧ clog.resolve xid = .ok status ∧ status ≠ .committed

theorem tupleVisibleWithMultixact_true (hupdater : UpdaterMulti infomask)
    (hin : clog.resolve xmin = .ok .committed) :
    clog.tupleVisibleWithMultixact mx xmin xmax infomask = .ok true ↔ clog.Spared mx xmax := by
  rw [tupleVisibleWithMultixact_updater hupdater hin, Spared]
  cases hfound : mx.resolveUpdater xmax with
  | error e => simp [bind, Except.bind]
  | ok found =>
    cases found with
    | none => simp [bind, Except.bind, pure, Except.pure]
    | some xid =>
      cases hout : clog.resolve xid with
      | error e => simp [bind, Except.bind, hout]
      | ok status => simp [bind, Except.bind, pure, Except.pure, hout]

/-- A log in which transaction 700 committed, and multixacts that were never used. -/
def one : ClogSource := fun _ => .ok (MultiXactSource.zerosWith 175 [1])

def unused : MultiXactSource where
  offsetsPage _ := .ok (List.replicate pageSz 0)
  membersPage _ := .ok (List.replicate pageSz 0)

theorem one_differs :
    one.tupleVisible 700 0 0x1000 = .ok true ∧ one.tupleVisibleWithMultixact unused 700 0 0x1000 ≠ .ok true := by
  decide +kernel

/-- Exactly when the answers agree, and what the updater decides. -/
theorem tupleVisibleWithMultixact_iff (clog : ClogSource) (mx : MultiXactSource) (xmin xmax : Xid) (infomask : Nat) :
    ((∀ v, clog.tupleVisible xmin xmax infomask = .ok v →
        clog.tupleVisibleWithMultixact mx xmin xmax infomask = .ok v) ↔
      (xmax = invalidXid → UpdaterMulti infomask → clog.resolve xmin = .ok .committed → clog.Spared mx invalidXid)) ∧
    ∀ u, UpdaterMulti infomask → mx.resolveUpdater xmax = .ok (some u) → clog.resolve xmin = .ok .committed →
      (clog.tupleVisibleWithMultixact mx xmin xmax infomask = .ok true ↔
        ∃ status, clog.resolve u = .ok status ∧ status ≠ .committed) ∧
      (∀ status, clog.resolve u = .ok status →
        clog.tupleVisibleWithMultixact mx xmin xmax infomask = .ok (decide (status ≠ .committed))) := by
  constructor
  · by_cases hin : clog.resolve xmin = .ok .committed
    swap
    · rw [tupleVisibleWithMultixact_uncommitted hin]
      exact iff_of_true (fun _ h => h) fun _ _ h => absurd h hin
    by_cases hupdater : UpdaterMulti infomask
    swap
    · rw [tupleVisibleWithMultixact_plain hupdater]
      exact iff_of_true (fun _ h => h) fun _ h => absurd h hupdater
    by_cases hzero : xmax = invalidXid
    · subst hzero
      have htrue : clog.tupleVisible xmin invalidXid infomask = .ok true := by
        simp only [tupleVisible, hin, bind, Except.bind, ne_eq, not_true_eq_false, if_false, if_true]
        rfl
      rw [← tupleVisibleWithMultixact_true hupdater hin, htrue]
      constructor
      · intro h _ _ _
        exact h true rfl
      · intro h v hv
        rw [h rfl hupdater hin, ← hv]
    · have hbails : ∀ v, clog.tupleVisible xmin xmax infomask ≠ .ok v := by
        intro v h
        simp only [tupleVisible, hin, bind, Except.bind, ne_eq, not_true_eq_false, if_false, if_neg hzero,
          hupdater.1, not_false_eq_true, if_true, hupdater.2] at h
        cases h
      exact iff_of_true (fun v h => absurd h (hbails v)) fun h => absurd h hzero
  · intro u hupdater hfound hin
    constructor
    · rw [tupleVisibleWithMultixact_true hupdater hin, Spared, hfound]
      constructor
      · rintro (hnone | ⟨xid, status, hsome, hout, hne⟩)
        · cases hnone
        · obtain rfl := Option.some.inj (Except.ok.inj hsome)
          exact ⟨status, hout, hne⟩
      · rintro ⟨status, hout, hne⟩
        exact .inr ⟨u, status, rfl, hout, hne⟩
    · intro status hout
      rw [tupleVisibleWithMultixact_updater hupdater hin, hfound]
      simp only [bind, Except.bind, hout]
      rfl

theorem tupleVisibleWithMultixact_iff_wrapped :
    one.tupleVisibleWithMultixact MultiXactSource.wrapped 700 1 0x1000 = .ok true :=
  ((tupleVisibleWithMultixact_iff one MultiXactSource.wrapped 700 1 0x1000).2 771 (by decide) (by decide +kernel)
    (by decide +kernel)).1.mpr ⟨.inProgress, by decide +kernel, by decide⟩

end ClogSource

end Ltap
