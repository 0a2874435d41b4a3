-- SUMMARY: Which transactions are suspected of DDL, and when the suspicion ends with them (`engine.rs`).
import OpenLtap.Engine.Moves
import OpenLtap.Recovery.RestartFloor

/-!
# DDL suspects

A write to the catalogs marks the transaction that makes it, and the commit of a marked
transaction asks for a catalog check. With savepoints several ids of one transaction are
marked, and a commit takes the mark from the first of them only.
-/

namespace Ltap

/-! ## One transaction -/

/-- At most one of these transactions is suspect. -/
def Engine.OneSuspect (e : Engine) (xids : List Xid) : Prop :=
  ∀ x ∈ xids, ∀ y ∈ xids, x ∈ e.smgrSuspects → y ∈ e.smgrSuspects → x = y

instance (e : Engine) (xids : List Xid) : Decidable (e.OneSuspect xids) :=
  inferInstanceAs (Decidable (∀ x ∈ xids, ∀ y ∈ xids, x ∈ e.smgrSuspects → y ∈ e.smgrSuspects → x = y))

namespace Engine

variable {e : Engine} {now : Instant} {lsn : Lsn} {xid : Xid} {subxids : List Xid}

/-- What a commit leaves of the suspects. -/
theorem handleCommit_suspects :
    (e.handleCommit now lsn xid subxids).smgrSuspects =
      match (xid :: subxids).find? (· ∈ e.smgrSuspects) with
      | some x => e.smgrSuspects.erase x
      | none => e.smgrSuspects := rfl

theorem handleCommit_suspects_subset :
    (e.handleCommit now lsn xid subxids).smgrSuspects ⊆ e.smgrSuspects := by
  rw [handleCommit_suspects]
  split
  · exact Finset.erase_subset _ _
  · exact Finset.Subset.refl _

theorem handleCommit_forgets_iff :
    (∀ x ∈ xid :: subxids, x ∉ (e.handleCommit now lsn xid subxids).smgrSuspects) ↔
      e.OneSuspect (xid :: subxids) := by
  rw [handleCommit_suspects]
  cases hhit : (xid :: subxids).find? (· ∈ e.smgrSuspects) with
  | none =>
    have hnone : ∀ x ∈ xid :: subxids, x ∉ e.smgrSuspects := by simpa using List.find?_eq_none.mp hhit
    exact iff_of_true hnone fun x hx _ _ hsuspect => absurd hsuspect (hnone x hx)
  | some s =>
    have hs : s ∈ xid :: subxids := List.mem_of_find?_eq_some hhit
    have hsuspect : s ∈ e.smgrSuspects := by simpa using List.find?_some hhit
    constructor
    · intro h x hx y hy hxs hys
      -- Whoever is not the one that was removed would still be there.
      have honly : ∀ z ∈ xid :: subxids, z ∈ e.smgrSuspects → z = s := by
        intro z hz hzs
        by_contra hne
        exact h z hz (Finset.mem_erase.mpr ⟨hne, hzs⟩)
      rw [honly x hx hxs, honly y hy hys]
    · intro h x hx hmem
      obtain ⟨hne, hxs⟩ := Finset.mem_erase.mp hmem
      exact hne (h x hx s hs hxs hsuspect)

/-- A commit asks for a catalog check exactly if one of its transactions is suspect. -/
theorem handleCommit_remapAt :
    (e.handleCommit now lsn xid subxids).remapAt =
      if ∃ x ∈ xid :: subxids, x ∈ e.smgrSuspects then some lsn else e.remapAt := by
  have hhit : ((xid :: subxids).find? (· ∈ e.smgrSuspects)).isSome = true ↔
      ∃ x ∈ xid :: subxids, x ∈ e.smgrSuspects := by
    simp only [List.find?_isSome, decide_eq_true_eq]
  show (if ((xid :: subxids).find? (· ∈ e.smgrSuspects)).isSome then some lsn else e.remapAt) = _
  simp only [hhit]

theorem handleAbort_forgets : ∀ x ∈ xid :: subxids, x ∉ (e.handleAbort xid subxids).smgrSuspects := by
  intro x hx hmem
  exact (Finset.mem_sdiff.mp hmem).2 (List.mem_toFinset.mpr hx)

theorem handleAbort_suspects_subset : (e.handleAbort xid subxids).smgrSuspects ⊆ e.smgrSuspects :=
  Finset.sdiff_subset

end Engine

/-! ## Open transactions -/

/-- The transactions that an effect ends. -/
def Effect.ended : Effect → List Xid
  | .commit xid subxids | .abort xid subxids => xid :: subxids
  | _ => []

namespace Engine

/-- The open transactions of the server before a move and after it. A transaction that writes is
open, and one that ends is named by the outcome; only the engine that forgets what is in flight
may have missed an outcome. -/
def Move.Tracks (o o' : Set Xid) : Move → Prop
  | .record _ _ eff => (∀ x, eff = .suspect x → x ∈ o') ∧ ∀ x ∈ o, x ∉ o' → x ∈ eff.ended
  | .forget => True
  | _ => o ⊆ o'

/-- No commit has more than one suspect. -/
def Move.OneSuspect (e : Engine) : Move → Prop
  | .record _ _ (.commit xid subxids) => e.OneSuspect (xid :: subxids)
  | _ => True

/-- A run from a process start, beside the open transactions. -/
inductive SuspectRun (dec : TupleDecoder) : Set Xid → Engine → Prop where
  | start {e : Engine} (o : Set Xid) : e.smgrSuspects = ∅ → SuspectRun dec o e
  | step {o : Set Xid} {e : Engine} (m : Move) (o' : Set Xid) :
    SuspectRun dec o e → m.Tracks o o' → m.OneSuspect e → SuspectRun dec o' (e.move dec m).1

variable {dec : TupleDecoder}

variable (dec) in
/-- Between records transactions do not end, and suspects stay or are all dropped. -/
theorem move_suspects (e : Engine) (m : Move) :
    (∃ now lsn eff, m = .record now lsn eff) ∨ (e.move dec m).1.smgrSuspects = ∅ ∨
      (e.move dec m).1.smgrSuspects = e.smgrSuspects ∧ ∀ o o', m.Tracks o o' → o ⊆ o' := by
  cases m with
  | record now lsn eff => exact .inl ⟨now, lsn, eff, rfl⟩
  | forget => exact .inr (.inl rfl)
  | applied | resnapshot | stop => exact .inr (.inr ⟨rfl, fun _ _ h => h⟩)
  | flush env now persisted =>
    exact .inr (.inr ⟨(e.flushAll_sameVolatile env.appendOk now persisted).suspects, fun _ _ h => h⟩)
  | compact => exact .inr (.inr ⟨e.maybeCompact_sameVolatile.suspects, fun _ _ h => h⟩)
  | remap env cfg now ddlLsn persisted =>
    have hsame := remapCheck_sameVolatile dec { e with remapAt := none } env cfg now ddlLsn persisted
    exact .inr (.inr ⟨hsame.suspects, fun _ _ h => h⟩)

/-- A record leaves no suspect that it ends, and makes one of its own transaction only. -/
theorem applyEffect_suspects {e : Engine} {now : Instant} {lsn : Lsn} {eff : Effect} {x : Xid}
    (hone : (Move.record now lsn eff).OneSuspect e) (hx : x ∈ (e.applyEffect now lsn eff).smgrSuspects) :
    x ∈ e.smgrSuspects ∧ x ∉ eff.ended ∨ eff = .suspect x := by
  cases eff with
  | skip | toastChunk | ops | drift => exact .inl ⟨hx, List.not_mem_nil⟩
  | suspect y =>
    rcases Finset.mem_insert.mp hx with rfl | hx
    · exact .inr rfl
    · exact .inl ⟨hx, List.not_mem_nil⟩
  | commit xid subxids =>
    exact .inl ⟨handleCommit_suspects_subset hx, fun hended => handleCommit_forgets_iff.mpr hone x hended hx⟩
  | abort xid subxids =>
    exact .inl ⟨handleAbort_suspects_subset hx, fun hended => handleAbort_forgets x hended hx⟩

/-- Along a run only open transactions are suspect. -/
theorem SuspectRun.suspects_open {o : Set Xid} {e : Engine} (h : SuspectRun dec o e) :
    ∀ x ∈ e.smgrSuspects, x ∈ o := by
  induction h with
  | start o hempty =>
    intro x hx
    rw [hempty] at hx
    exact absurd hx (Finset.notMem_empty x)
  | @step o e m o' _ htracks hone ih =>
    intro x hx
    rcases move_suspects dec e m with ⟨now, lsn, eff, rfl⟩ | hempty | ⟨hsame, hopen⟩
    · rcases applyEffect_suspects hone hx with ⟨hbefore, hnot⟩ | hmarks
      · by_contra hclosed
        exact hnot (htracks.2 x (ih x hbefore) hclosed)
      · exact htracks.1 x hmarks
    · rw [hempty] at hx
      exact absurd hx (Finset.notMem_empty x)
    · rw [hsame] at hx
      exact hopen o o' htracks (ih x hx)

/-- An abort forgets its transactions, and a commit exactly if at most one of them is suspect; it
asks for a catalog check if one is. In a run whose commits are all like that, the suspects are
open transactions. -/
theorem suspects_forgotten_iff (dec : TupleDecoder) :
    (∀ (e : Engine) (now : Instant) (lsn : Lsn) (xid : Xid) (subxids : List Xid),
      ((∀ x ∈ xid :: subxids, x ∉ (e.handleCommit now lsn xid subxids).smgrSuspects) ↔
        e.OneSuspect (xid :: subxids)) ∧
      (e.handleCommit now lsn xid subxids).remapAt =
        (if ∃ x ∈ xid :: subxids, x ∈ e.smgrSuspects then some lsn else e.remapAt) ∧
      ∀ x ∈ xid :: subxids, x ∉ (e.handleAbort xid subxids).smgrSuspects) ∧
    ∀ (o : Set Xid) (e : Engine), SuspectRun dec o e → ∀ x ∈ e.smgrSuspects, x ∈ o :=
  ⟨fun _ _ _ _ _ => ⟨handleCommit_forgets_iff, handleCommit_remapAt, handleAbort_forgets⟩,
    fun _ _ h => h.suspects_open⟩

end Engine

namespace Sample

/-- Transaction 7 writes to the catalogs and commits, with a subtransaction 8 that did not. -/
def plainRun : List Engine.Move :=
  [.record 0 10 (.suspect 7), .record 0 20 (.commit 7 [8])]

/-- The same with a catalog write of the subtransaction. -/
def savepointRun : List Engine.Move :=
  [.record 0 10 (.suspect 7), .record 0 11 (.suspect 8), .record 0 20 (.commit 7 [8])]

/-- The catalog is checked, and later another transaction has the id 8. -/
def reusedRun : List Engine.Move :=
  savepointRun ++ [.remap (env [] 30) cfg 0 20 0, .record 0 90 (.commit 8 [])]

end Sample

theorem Engine.suspects_forgotten_plain :
    ∀ x ∈ ((Sample.engine []).moves .reject Sample.plainRun).1.smgrSuspects, x ∈ (∅ : Set Xid) := by
  have hstart : SuspectRun .reject ∅ (Sample.engine []) := .start ∅ rfl
  have hmarked : SuspectRun .reject {7, 8} ((Sample.engine []).move .reject (.record 0 10 (.suspect 7))).1 :=
    .step _ {7, 8} hstart ⟨by rintro x ⟨⟩; simp, by simp⟩ trivial
  refine (suspects_forgotten_iff .reject).2 ∅ _ (.step (.record 0 20 (.commit 7 [8])) ∅ hmarked ⟨nofun, ?_⟩ ?_)
  · rintro x (rfl | rfl) -
    · exact List.mem_cons_self
    · exact List.mem_cons_of_mem _ List.mem_cons_self
  · show Engine.OneSuspect _ [7, 8]
    decide

/-- The commit of 7 leaves 8 suspect, and the later transaction 8 asks for a catalog check. -/
theorem savepoint_suspect_kept :
    let committed := ((Sample.engine []).moves .reject Sample.savepointRun).1
    let reused := ((Sample.engine []).moves .reject Sample.reusedRun).1
    8 ∈ committed.smgrSuspects ∧ committed.remapAt = some 20 ∧ reused.remapAt = some 90 := by
  decide

end Ltap
