-- SUMMARY: What a transaction that vanished in a server crash leaves in the engine.
import OpenLtap.Preimage

/-!
# Vanished transactions

A crash of the server ends all open transactions without a record. The stream goes on
with recovery and with later transactions, which reuse the addresses of tuples that were
never committed. The buffer drops a transaction only when its end record comes, so the
ones that vanished stay in it: they hold the restart position where it was, and what
their overlays have at an address wins over the committed version.
-/

namespace Ltap

namespace Engine

/-- The engine follows Postgres across a crash at `crashed`, in which the transactions in
`gone` vanished. No later record is about them. -/
inductive AfterCrash (dec : TupleDecoder) (crashed : Lsn) :
    List Xid → Engine → PgTuples → Lsn → Prop where
  | crash {e : Engine} {pg : PgTuples} : Follows dec e pg crashed →
    AfterCrash dec crashed e.txbuf.openTxs.keys e pg.crash crashed
  | nest {gone : List Xid} {e : Engine} {pg : PgTuples} {lsn : Lsn} (n : NestedTx.Nesting Xid) :
    AfterCrash dec crashed gone e pg lsn → pg.NestLegal n →
    AfterCrash dec crashed gone e (pg.nest n) lsn
  | record {gone : List Xid} {e : Engine} {pg : PgTuples} {lsn : Lsn} (now : Instant) (ev : WalEvent) :
    AfterCrash dec crashed gone e pg lsn → lsn < ev.lsn → pg.Allows ev.effect →
    (∀ x ∈ ev.effect.xids, x ∉ gone) →
    AfterCrash dec crashed gone (e.applyEffect now ev.lsn ev.effect) (pg.after ev.effect) ev.lsn
  | housekeeping {gone : List Xid} {e : Engine} {pg : PgTuples} {lsn : Lsn} (m : Move) :
    AfterCrash dec crashed gone e pg lsn → m.Housekeeping →
    AfterCrash dec crashed gone (e.move dec m).1 pg lsn

/-- The transaction wrote a tuple at the address. -/
def Wrote (e : Engine) (x : Xid) (k : Nat × Ctid) : Prop :=
  ∃ tx p v, e.txbuf.openTxs.lookup x = some tx ∧ p ∈ tx.ops ∧ NestedTx.Edit.write k v ∈ p.edits

/-- The transaction influences nothing: the committed version of every address that it had
written is found, and the restart position is past its first change. -/
structure NoTrace (x : Xid) (pg : PgTuples) (e : Engine) : Prop where
  preimage : ∀ i a tup, i < e.tables.length → e.Wrote x (i, a) → pg.heap (i, a) = some tup →
    tup.writer = none → tup.deleter = none → e.preimage i a = some tup.ver
  restart : ∀ tx, e.txbuf.openTxs.lookup x = some tx → tx.firstLsn < e.restartLsn

/-! ## What stays -/

/-- The ops of the transactions that are gone are from before the crash and still there. -/
structure Lingers (gone : List Xid) (crashed : Lsn) (h : Held) : Prop where
  still : ∀ x ∈ gone, h.ofXid x ≠ []
  before : ∀ p ∈ h, p.1 ∈ gone → p.2.lsn ≤ crashed
  later : ∀ p ∈ h, p.1 ∉ gone → crashed < p.2.lsn

variable {dec : TupleDecoder} {gone : List Xid} {crashed : Lsn} {h : Held} {pg : PgTuples} {lsn : Lsn}
  {e : Engine}

theorem Lingers.step (hl : Lingers gone crashed h) {ev : WalEvent} (hlsn : crashed < ev.lsn)
    (hxids : ∀ x ∈ ev.effect.xids, x ∉ gone) : Lingers gone crashed (h.step ev) := by
  obtain ⟨evLsn, eff⟩ := ev
  have hrest : ∀ xs, (∀ x ∈ xs, x ∉ gone) → Lingers gone crashed (h.rest xs) := by
    intro xs hxs
    refine ⟨fun x hx hnil => hl.still x hx ?_, fun p hp => hl.before p (List.mem_of_mem_filter hp),
      fun p hp => hl.later p (List.mem_of_mem_filter hp)⟩
    rw [Held.ofXid, Held.rest, List.filter_filter] at hnil
    rw [Held.ofXid, ← hnil]
    congr 1
    refine List.filter_congr fun p _ => ?_
    by_cases hp : p.1 = x
    · have hout : x ∉ xs := fun hmem => hxs x hmem hx
      simp [hp, hout]
    · simp [hp]
  cases eff with
  | ops xid table ops =>
    have hxid : xid ∉ gone := hxids xid (by simp [Effect.xids])
    refine ⟨fun x hx => ?_, fun p hp hgone => ?_, fun p hp hgone => ?_⟩
    · have hsub : h.ofXid x ⊆ (h.step ⟨evLsn, .ops xid table ops⟩).ofXid x := by
        simp [Held.step, Held.ofXid]
      exact fun hnil => hl.still x hx (List.subset_nil.mp (hnil ▸ hsub))
    · rcases List.mem_append.mp hp with hp | hp
      · exact hl.before p hp hgone
      · obtain ⟨op, -, rfl⟩ := List.mem_map.mp hp
        exact absurd hgone hxid
    · rcases List.mem_append.mp hp with hp | hp
      · exact hl.later p hp hgone
      · obtain ⟨op, -, rfl⟩ := List.mem_map.mp hp
        exact hlsn
  | commit xid subxids => exact hrest (xid :: subxids) hxids
  | abort xid subxids => exact hrest (xid :: subxids) hxids
  | skip | suspect | toastChunk | drift => exact hl

theorem AfterCrash.inStep (hrun : AfterCrash dec crashed gone e pg lsn) :
    crashed ≤ lsn ∧ ∃ h, InStep gone h pg lsn e ∧ Lingers gone crashed h := by
  induction hrun with
  | crash hfollows =>
    obtain ⟨h, hstep⟩ := hfollows.inStep
    have hopen : ∀ p ∈ h, p.1 ∈ _ := fun p hp => hstep.held.mem_keys hp
    refine ⟨le_rfl, h, ⟨hstep.held, hstep.ordered, hstep.bound, ?_, ?_, hstep.dedupe⟩, ?_, ?_, ?_⟩
    · have hnil : h.rest _ = [] := List.filter_eq_nil_iff.mpr fun p hp => by simpa using hopen p hp
      rw [hnil]
      exact .crash _
    · rw [NestedTx.State.rows_crash]
      exact hstep.mirrors
    · intro x hx hnil
      have hlookup := hstep.held x
      rw [hnil, OpenTx.ofOps, AList.lookup_eq_none, AList.mem_keys] at hlookup
      exact hlookup hx
    · exact fun p hp _ => hstep.bound p hp
    · exact fun p hp hnot => absurd (hopen p hp) hnot
  | nest n _ hn ih =>
    obtain ⟨hle, h, hstep, hl⟩ := ih
    refine ⟨hle, h, ⟨hstep.held, hstep.ordered, hstep.bound, hstep.explains.nest hn, ?_, hstep.dedupe⟩, hl⟩
    cases n <;> exact hstep.mirrors
  | record now ev _ hlsn hallows hxids ih =>
    obtain ⟨hle, h, hstep, hl⟩ := ih
    have hlt := lt_of_le_of_lt hle hlsn
    exact ⟨hlt.le, _, hstep.record now hlsn hallows hxids, hl.step hlt hxids⟩
  | housekeeping m _ hm ih =>
    obtain ⟨hle, h, hstep, hl⟩ := ih
    exact ⟨hle, h, hstep.housekeeping dec hm, hl⟩

/-! ## The restart position -/

/-- The restart position is not past the first change of an open transaction. -/
theorem restartLsn_le {x : Xid} {tx : OpenTx} (hx : e.txbuf.openTxs.lookup x = some tx) :
    e.restartLsn ≤ tx.firstLsn := by
  have hmem : tx.firstLsn ∈ e.txbuf.openTxs.entries.map (·.2.firstLsn) :=
    List.mem_map.mpr ⟨⟨x, tx⟩, AList.mem_lookup_iff.mp hx, rfl⟩
  cases hmin : e.txbuf.oldestFirstLsn with
  | none =>
    rw [TxBuffer.oldestFirstLsn, List.min?_eq_none_iff] at hmin
    simp [hmin] at hmem
  | some first =>
    rw [restartLsn, hmin]
    exact (List.min?_eq_some_iff.mp hmin).2 _ hmem

/-- Without the transactions that are gone it would be past the crash. -/
theorem restartLsn_without (hstep : InStep gone h pg lsn e) (hl : Lingers gone crashed h)
    (hcommit : crashed < e.lastCommitLsn) :
    crashed < { e with txbuf := (e.txbuf.drain gone).2 }.restartLsn := by
  have hrest := hstep.held.drain gone
  have holdest := hrest.oldestFirstLsn (hstep.ordered.filter _)
  rw [restartLsn, holdest]
  cases hhead : (h.rest gone).head? with
  | none => exact hcommit
  | some p =>
    obtain ⟨hp, hnot⟩ := List.mem_filter.mp (List.mem_of_mem_head? hhead)
    exact hl.later p hp (by simpa using hnot)

theorem Lingers.firstLsn_le (hl : Lingers gone crashed h) (hheld : e.txbuf.Refines h) {x : Xid}
    (hx : x ∈ gone) : ∃ tx, e.txbuf.openTxs.lookup x = some tx ∧ tx.firstLsn ≤ crashed := by
  cases hops : h.ofXid x with
  | nil => exact absurd hops (hl.still x hx)
  | cons q qs =>
    obtain ⟨p, hp, rfl⟩ := List.mem_map.mp (show q ∈ h.ofXid x by simp [hops])
    obtain ⟨hp, hxid⟩ := List.mem_filter.mp hp
    have hxid : p.1 = x := by simpa using hxid
    refine ⟨_, (hheld x).trans (by rw [hops]; rfl), ?_⟩
    exact hl.before p hp (hxid ▸ hx)

/-! ## Pre-images -/

/-- The overlay of an open transaction may come first. -/
theorem preimage_first {x : Xid} {tx : OpenTx} {i : Nat} {a : Ctid} {v : RowVersion}
    (hx : e.txbuf.openTxs.lookup x = some tx) (hv : tx.overlay.lookup (i, a) = some v) :
    ∃ b : TxBuffer, b.openTxs.entries.Perm e.txbuf.openTxs.entries ∧
      { e with txbuf := b }.preimage i a = some v := by
  refine ⟨⟨e.txbuf.openTxs.insert x tx⟩, ?_, ?_⟩
  · have hsame : ∀ y, (e.txbuf.openTxs.insert x tx).lookup y = e.txbuf.openTxs.lookup y := by
      intro y
      by_cases hy : y = x
      · subst hy
        rw [AList.lookup_insert, hx]
      · rw [AList.lookup_insert_ne hy]
    refine List.lookup_ext (AList.nodupKeys _) (AList.nodupKeys _) fun y tx' => ?_
    exact Eq.to_iff (congrArg (tx' ∈ ·) (hsame y))
  · simp [Engine.preimage, TxBuffer.lookup, AList.entries_insert, hv]

theorem InStep.preimage_iff (hstep : InStep gone h pg lsn e) {i : Nat} {a : Ctid}
    {tup : NestedTx.Tuple RowVersion Xid} (hi : i < e.tables.length) (htup : pg.heap (i, a) = some tup)
    (hdeleter : tup.deleter = none) :
    (∀ b : TxBuffer, b.openTxs.entries.Perm e.txbuf.openTxs.entries →
      { e with txbuf := b }.preimage i a = some tup.ver) ↔ ¬ e.Shadowed gone (i, a) tup.ver := by
  constructor
  · rintro hall ⟨x, -, tx, v, hx, hv, hne⟩
    obtain ⟨b, hperm, hpre⟩ := preimage_first hx hv
    exact hne (Option.some.inj (hpre.symm.trans (hall b hperm)))
  · exact fun hshadow b hperm =>
      hstep.preimage (List.getElem?_eq_getElem hi) htup hdeleter hshadow hperm

/-- A transaction that vanished never stops to influence the engine. It stays open, and the
restart position stays at or before its first change, where it would be past the crash
without those that vanished. The version of a tuple is found in every order of the search
exactly when no overlay of theirs has another one. -/
theorem vanished_keeps_trace (hrun : AfterCrash dec crashed gone e pg lsn) {x : Xid} (hx : x ∈ gone) :
    ¬ NoTrace x pg e ∧
    (∃ tx, e.txbuf.openTxs.lookup x = some tx ∧ e.restartLsn ≤ tx.firstLsn ∧
      (crashed < e.lastCommitLsn →
        tx.firstLsn < { e with txbuf := (e.txbuf.drain gone).2 }.restartLsn)) ∧
    ∀ i a tup, i < e.tables.length → pg.heap (i, a) = some tup → tup.deleter = none →
      ((∀ b : TxBuffer, b.openTxs.entries.Perm e.txbuf.openTxs.entries →
        { e with txbuf := b }.preimage i a = some tup.ver) ↔ ¬ e.Shadowed gone (i, a) tup.ver) := by
  obtain ⟨-, h, hstep, hl⟩ := hrun.inStep
  obtain ⟨tx, hlookup, hfirst⟩ := hl.firstLsn_le hstep.held hx
  have hle := restartLsn_le hlookup
  refine ⟨fun htrace => absurd (htrace.restart tx hlookup) (not_lt.mpr hle),
    ⟨tx, hlookup, hle, fun hcommit => ?_⟩, fun i a tup hi htup hdeleter =>
      hstep.preimage_iff hi htup hdeleter⟩
  exact lt_of_le_of_lt hfirst (restartLsn_without hstep hl hcommit)

end Engine

/-! ## An address that is used again -/

namespace Sample

/-- Transaction 7 inserted a row when the server crashed, and 9 is the next transaction. -/
def restarted : PgTuples :=
  NestedTx.State.nest (NestedTx.State.crash
    (PgTuples.after (noTuples.nest (.start 7)) (.ops 7 0 [.insert (0, 1) rowOne]))) (.start 9)

/-- Transaction 9 wrote another row to the same address and committed. -/
def reused : PgTuples :=
  (restarted.after (.ops 9 0 [.insert (0, 1) rowTwo])).after (.commit 9 [])

/-- The engine after the same. -/
def outlived : Engine :=
  (((engine [desc "t" 16384]).applyEffect 0 10 (.ops 7 0 [.insert (0, 1) rowOne])).applyEffect 0 20
    (.ops 9 0 [.insert (0, 1) rowTwo])).applyEffect 0 30 (.commit 9 [])

theorem outlived_afterCrash : Engine.AfterCrash .reject 10 [7] outlived reused 30 := by
  have hstart : noTuples.NestLegal (.start 7) := rfl
  have hinsert : PgTuples.Allows (noTuples.nest (.start 7)) (.ops 7 0 [.insert (0, 1) rowOne]) :=
    ⟨⟨by decide, rfl⟩, trivial⟩
  have hsnap : Engine.Follows .reject (engine [desc "t" 16384]) noTuples 0 :=
    .snapshot noTuples_atSnapshot
  have hbefore := Engine.Follows.record 0 ⟨10, .ops 7 0 [.insert (0, 1) rowOne]⟩
    (hsnap.nest (.start 7) hstart) (by decide) hinsert
  have hnext : NestedTx.State.NestLegal (NestedTx.State.crash
      (PgTuples.after (noTuples.nest (.start 7)) (.ops 7 0 [.insert (0, 1) rowOne]))) (.start 9) := rfl
  have hreuse : restarted.Allows (.ops 9 0 [.insert (0, 1) rowTwo]) := ⟨⟨by decide, rfl⟩, trivial⟩
  have hcommit : (restarted.after (.ops 9 0 [.insert (0, 1) rowTwo])).Allows (.commit 9 []) := by
    intro y
    have hlevels : (restarted.after (.ops 9 0 [.insert (0, 1) rowTwo])).levels y =
        if y = 9 then [9] else [] := Function.update_apply _ 9 [9] y
    rw [hlevels]
    by_cases hy : y = 9
    · simp [hy]
    · simp [hy]
  exact .record 0 ⟨30, .commit 9 []⟩ (.record 0 ⟨20, .ops 9 0 [.insert (0, 1) rowTwo]⟩
    (.nest (.start 9) (.crash hbefore) hnext) (by decide) hreuse (by decide)) (by decide) hcommit (by decide)

end Sample

namespace Engine

theorem vanished_keeps_trace_reused :
    ∃ tx, Sample.outlived.txbuf.openTxs.lookup 7 = some tx ∧
      Sample.outlived.restartLsn ≤ tx.firstLsn ∧
      tx.firstLsn < { Sample.outlived with txbuf := (Sample.outlived.txbuf.drain [7]).2 }.restartLsn := by
  have hrun := Sample.outlived_afterCrash
  obtain ⟨tx, hx, hle, hlt⟩ := (vanished_keeps_trace hrun (by decide : (7 : Xid) ∈ [7])).2.1
  exact ⟨tx, hx, hle, hlt (by decide)⟩

/-- The version of the vanished transaction is found in place of the committed one, and
the restart position is still at its insert. -/
theorem vanished_version_found :
    AfterCrash .reject 10 [7] Sample.outlived Sample.reused 30 ∧
      Sample.reused.rows (0, (0, 1)) = some Sample.rowTwo ∧
      Sample.outlived.preimage 0 (0, 1) = some Sample.rowOne ∧ Sample.outlived.restartLsn = 10 ∧
      ¬ NoTrace 7 Sample.reused Sample.outlived := by
  refine ⟨Sample.outlived_afterCrash, rfl, rfl, rfl, fun htrace => ?_⟩
  exact absurd (htrace.restart _ rfl) (by decide)

end Engine

end Ltap
