-- SUMMARY: Pre-images and mirrors are the tuples that Postgres has.
import OpenLtap.Base.NestedTx
import OpenLtap.Engine.Moves
import OpenLtap.Engine.Sinks
import OpenLtap.Recovery.Held

/-!
# Pre-images

Postgres writes a tuple to an address only when the tuple before it is dead, and it
updates and deletes tuples of committed transactions and of the own family. Savepoints
are rolled back and released in the meantime. The engine keeps what is committed in a
mirror and what is not in one overlay for each transaction, which other transactions of
the family do not touch. Both follow the tuples, so that a lookup finds the version that
was last written, in whichever order the overlays are searched.
-/

namespace Ltap

open NestedTx (Edit Explains Log Nesting applyEdits)

/-- The tuples of the tracked tables, by table and address. -/
abbrev PgTuples := NestedTx.State (Nat × Ctid) RowVersion Xid

namespace Op

def edits (table : Nat) : Op → List (Edit (Nat × Ctid) RowVersion)
  | .insert ctid ver => [.write (table, ctid) ver]
  | .update oldCtid ctid ver => [.erase (table, oldCtid), .write (table, ctid) ver]
  | .delete ctid _ => [.erase (table, ctid)]

/-- The address of the tuple that is updated or deleted. -/
def target : Op → Option Ctid
  | .insert .. => none
  | .update oldCtid _ _ => some oldCtid
  | .delete ctid _ => some ctid

end Op

/-- The edits of buffered ops. -/
def PendingOp.edits (p : PendingOp) : List (Edit (Nat × Ctid) RowVersion) := p.op.edits p.table

namespace PgTuples

/-- The record is one that Postgres writes in this state. -/
def Allows (pg : PgTuples) : Effect → Prop
  | .ops xid table ops => NestedTx.State.EditsLegal xid pg (ops.flatMap (·.edits table))
  | .commit xid subxids => pg.CommitLegal xid (xid :: subxids)
  | .abort xid subxids => pg.AbortLegal xid (xid :: subxids)
  | _ => True

/-- The tuples after a record. -/
def after (pg : PgTuples) : Effect → PgTuples
  | .ops xid table ops => pg.edits xid (ops.flatMap (·.edits table))
  | .commit xid subxids => pg.commit (xid :: subxids)
  | .abort xid subxids => pg.abort (xid :: subxids)
  | _ => pg

end PgTuples

/-- The transactions that a record is about. -/
def Effect.xids : Effect → List Xid
  | .ops xid _ _ => [xid]
  | .commit xid subxids | .abort xid subxids => xid :: subxids
  | _ => []

/-! ## One process lifetime -/

namespace Engine

/-- What the drivers do between records that is no work on the catalog. -/
def Move.Housekeeping : Move → Prop
  | .flush .. | .compact | .applied _ => True
  | _ => False

/-- The mirrors are the snapshot that was taken at `lsn`, and nothing is open. -/
structure AtSnapshot (e : Engine) (pg : PgTuples) (lsn : Lsn) : Prop where
  txbuf : e.txbuf = .empty
  dedupe : ∀ t ∈ e.tables, t.dedupeBelow ≤ lsn
  mirror : ∀ i t, e.tables[i]? = some t → ∀ a, t.mirror.lookup a = (pg.heap (i, a)).map (·.ver)
  settled : ∀ k t, pg.heap k = some t → t.writer = none ∧ t.deleter = none

/-- The engine follows Postgres from a snapshot on. -/
inductive Follows (dec : TupleDecoder) : Engine → PgTuples → Lsn → Prop where
  | snapshot {e : Engine} {pg : PgTuples} {lsn : Lsn} : e.AtSnapshot pg lsn → Follows dec e pg lsn
  /-- Postgres starts a transaction or a savepoint, or releases one. -/
  | nest {e : Engine} {pg : PgTuples} {lsn : Lsn} (n : Nesting Xid) :
    Follows dec e pg lsn → pg.NestLegal n → Follows dec e (pg.nest n) lsn
  | record {e : Engine} {pg : PgTuples} {lsn : Lsn} (now : Instant) (ev : WalEvent) :
    Follows dec e pg lsn → lsn < ev.lsn → pg.Allows ev.effect →
    Follows dec (e.applyEffect now ev.lsn ev.effect) (pg.after ev.effect) ev.lsn
  | housekeeping {e : Engine} {pg : PgTuples} {lsn : Lsn} (m : Move) :
    Follows dec e pg lsn → m.Housekeeping → Follows dec (e.move dec m).1 pg lsn

end Engine

/-! ## The buffer -/

namespace Held

/-- The edits of the held ops. -/
def log (h : Held) : Log (Nat × Ctid) RowVersion Xid := h.flatMap fun p => Log.made p.1 p.2.edits

theorem log_append (h h' : Held) : log (h ++ h') = h.log ++ log h' := by
  simp [log]

theorem log_recordOps (xid : Xid) (lsn : Lsn) (table : Nat) (ops : List Op) :
    log (recordOps xid lsn table ops) = Log.made xid (ops.flatMap (·.edits table)) := by
  simp [log, recordOps, Log.made, PendingOp.edits, List.map_flatMap, List.flatMap_map]

theorem log_cons (p : Xid × PendingOp) (h : Held) :
    log (p :: h) = Log.made p.1 p.2.edits ++ h.log := by
  simp [log]

theorem log_rest (xs : List Xid) (h : Held) : (h.rest xs).log = h.log.rest xs := by
  induction h with
  | nil => rfl
  | cons p h ih =>
    by_cases hp : p.1 ∈ xs
    · have hrest : rest xs (p :: h) = rest xs h := by simp [rest, hp]
      rw [hrest, ih, log_cons, Log.rest_append, Log.rest_made, if_pos hp, List.nil_append]
    · have hrest : rest xs (p :: h) = p :: rest xs h := by simp [rest, hp]
      rw [hrest, log_cons, log_cons, ih, Log.rest_append, Log.rest_made, if_neg hp]

theorem rest_comm (xs ys : List Xid) (h : Held) : (h.rest xs).rest ys = (h.rest ys).rest xs := by
  simp only [rest, List.filter_filter, Bool.and_comm]

theorem taken_rest {xs ys : List Xid} (hdisj : ∀ x ∈ xs, x ∉ ys) (h : Held) :
    (h.rest ys).taken xs = h.taken xs := by
  simp only [taken, rest, List.filter_filter]
  congr 1
  refine List.filter_congr fun p _ => ?_
  by_cases hp : p.1 ∈ xs
  · simp [hp, hdisj p.1 hp]
  · simp [hp]

theorem rest_append_recordOps {xs : List Xid} {xid : Xid} (hxid : xid ∉ xs) {lsn : Lsn} {table : Nat}
    {ops : List Op} {h : Held} :
    rest xs (h ++ recordOps xid lsn table ops) = h.rest xs ++ recordOps xid lsn table ops := by
  have hkept : rest xs (recordOps xid lsn table ops) = recordOps xid lsn table ops := by
    simp [rest, recordOps, hxid]
  rw [← hkept]
  simp [rest]

theorem taken_singleton (x : Xid) (h : Held) : h.taken [x] = h.ofXid x := by
  simp [taken, ofXid]

theorem log_taken (xs : List Xid) (h : Held) :
    h.log.taken xs = (h.taken xs).flatMap PendingOp.edits := by
  induction h with
  | nil => rfl
  | cons p h ih =>
    rw [log_cons, Log.taken_append, Log.taken_made, ih]
    by_cases hp : p.1 ∈ xs
    · simp [taken, hp]
    · simp [taken, hp]

end Held

section Lookup

variable {κ υ : Type} [DecidableEq κ]

private theorem lookup_insert_eq (m : Map κ υ) (k : κ) (v : υ) :
    (m.insert k v).lookup = Function.update m.lookup k (some v) := by
  funext k'
  by_cases hk : k' = k
  · subst hk
    simp
  · simp [hk]

private theorem lookup_erase_eq (m : Map κ υ) (k : κ) :
    (m.erase k).lookup = Function.update m.lookup k none := by
  funext k'
  by_cases hk : k' = k
  · subst hk
    simp
  · simp [hk]

end Lookup

/-- An op does to the overlay what its edits do. -/
theorem TxBuffer.lookup_overlayOp (table : Nat) (overlay : Map (Nat × Ctid) RowVersion) (op : Op) :
    (overlayOp table overlay op).lookup = applyEdits overlay.lookup (op.edits table) := by
  cases op with
  | insert ctid ver => exact lookup_insert_eq overlay _ ver
  | update oldCtid ctid ver =>
    simp only [overlayOp, lookup_insert_eq, lookup_erase_eq]
    rfl
  | delete ctid oldRow => exact lookup_erase_eq overlay _

/-- The overlay of a transaction is what its own edits leave. -/
theorem OpenTx.lookup_overlay {ps : List PendingOp} {tx : OpenTx} (h : OpenTx.ofOps ps = some tx) :
    tx.overlay.lookup = applyEdits (fun _ => none) (ps.flatMap PendingOp.edits) := by
  have hfold : ∀ (qs : List PendingOp) (o : Map (Nat × Ctid) RowVersion),
      (qs.foldl (fun o p => TxBuffer.overlayOp p.table o p.op) o).lookup =
        applyEdits o.lookup (qs.flatMap PendingOp.edits) := by
    intro qs
    induction qs with
    | nil => exact fun o => rfl
    | cons q qs ih =>
      intro o
      rw [List.foldl_cons, ih, TxBuffer.lookup_overlayOp, List.flatMap_cons,
        NestedTx.applyEdits_append]
      rfl
  cases ps with
  | nil => cases h
  | cons p ps =>
    obtain rfl := Option.some.inj h
    exact hfold (p :: ps) ∅

/-! ## The mirrors -/

/-- The mirror of table `i` follows the rows of all tables. -/
theorem Table.lookup_mirror_applyOp {t : Table} {i : Nat} {rows : Nat × Ctid → Option RowVersion}
    (h : t.mirror.lookup = rows ∘ Prod.mk i) (now : Instant) (lsn : Lsn) (op : Op) :
    (t.applyOp now lsn op).mirror.lookup = applyEdits rows (op.edits i) ∘ Prod.mk i := by
  have hinj := Prod.mk_right_injective (β := Ctid) i
  cases op with
  | insert ctid ver =>
    simp [applyOp, Op.edits, lookup_insert_eq, h, Function.update_comp_eq_of_injective _ hinj]
  | update oldCtid ctid ver =>
    simp [applyOp, Op.edits, lookup_insert_eq, lookup_erase_eq, h,
      Function.update_comp_eq_of_injective _ hinj]
  | delete ctid oldRow =>
    simp [applyOp, Op.edits, lookup_erase_eq, h, Function.update_comp_eq_of_injective _ hinj]

/-- An op of another table leaves its rows alone. -/
theorem Op.applyEdits_other {i j : Nat} (hij : i ≠ j) (rows : Nat × Ctid → Option RowVersion) (op : Op) :
    applyEdits rows (op.edits j) ∘ Prod.mk i = rows ∘ Prod.mk i := by
  funext a
  cases op <;> simp [Op.edits, hij]

namespace Engine

/-- The mirrors hold the committed rows. -/
def Mirrors (ts : List Table) (rows : Nat × Ctid → Option RowVersion) : Prop :=
  ∀ i t, ts[i]? = some t → t.mirror.lookup = rows ∘ Prod.mk i

theorem Mirrors.modify {ts : List Table} {rows : Nat × Ctid → Option RowVersion}
    (h : Mirrors ts rows) {lsn : Lsn} (hlsn : ∀ t ∈ ts, t.dedupeBelow < lsn) (now : Instant)
    (p : PendingOp) :
    Mirrors (ts.modify p.table (·.commitOp now lsn p.op)) (applyEdits rows p.edits) := by
  intro i t' ht'
  rw [List.getElem?_modify] at ht'
  obtain ⟨t, ht, rfl⟩ := Option.map_eq_some_iff.mp ht'
  have hi := h i t ht
  split
  · rename_i heq
    rw [Table.commitOp, if_neg (not_le.mpr (hlsn t (List.mem_of_getElem? ht)))]
    rw [PendingOp.edits, heq]
    exact Table.lookup_mirror_applyOp hi now lsn p.op
  · rename_i hne
    exact hi.trans (Op.applyEdits_other (Ne.symm hne) rows p.op).symm

theorem dedupeBelow_commitOp (t : Table) (now : Instant) (lsn : Lsn) (op : Op) :
    (t.commitOp now lsn op).dedupeBelow = t.dedupeBelow := by
  unfold Table.commitOp
  split
  · rfl
  · cases op <;> rfl

theorem Mirrors.commitOps {ts : List Table} {rows : Nat × Ctid → Option RowVersion}
    (h : Mirrors ts rows) {lsn : Lsn} (hlsn : ∀ t ∈ ts, t.dedupeBelow < lsn) (now : Instant)
    (ops : List PendingOp) :
    Mirrors (commitOps now lsn ts ops) (applyEdits rows (ops.flatMap PendingOp.edits)) ∧
      ∀ t ∈ Engine.commitOps now lsn ts ops, t.dedupeBelow < lsn := by
  induction ops generalizing ts rows with
  | nil => exact ⟨h, hlsn⟩
  | cons p ops ih =>
    rw [List.flatMap_cons, NestedTx.applyEdits_append]
    refine ih (h.modify hlsn now p) fun t' ht' => ?_
    obtain ⟨i, hi⟩ := List.mem_iff_getElem?.mp ht'
    rw [List.getElem?_modify] at hi
    obtain ⟨t, ht, rfl⟩ := Option.map_eq_some_iff.mp hi
    split
    · rw [dedupeBelow_commitOp]
      exact hlsn t (List.mem_of_getElem? ht)
    · exact hlsn t (List.mem_of_getElem? ht)

/-! ## The engine in step with Postgres -/

/-- The buffer holds the open edits, and the mirrors hold the committed rows. Transactions
in `gone` are not open in Postgres. -/
structure InStep (gone : List Xid) (h : Held) (pg : PgTuples) (lsn : Lsn) (e : Engine) : Prop where
  held : e.txbuf.Refines h
  ordered : h.Ordered
  bound : ∀ p ∈ h, p.2.lsn ≤ lsn
  explains : Explains pg (h.rest gone).log
  mirrors : Mirrors e.tables pg.rows
  dedupe : ∀ t ∈ e.tables, t.dedupeBelow ≤ lsn

variable {gone : List Xid} {h : Held} {pg : PgTuples} {lsn : Lsn} {e : Engine}

theorem AtSnapshot.inStep (hsnap : e.AtSnapshot pg lsn) : InStep [] [] pg lsn e := by
  refine ⟨hsnap.txbuf ▸ .empty, .nil, by simp, .settled hsnap.settled, fun i t ht => ?_, hsnap.dedupe⟩
  funext a
  rw [hsnap.mirror i t ht a, Function.comp_apply, NestedTx.State.rows]
  cases hk : pg.heap (i, a) with
  | none => rfl
  | some tup => simp [NestedTx.Tuple.row, hsnap.settled _ tup hk]

/-- Tables with the same mirrors and cutovers are as much in step. -/
theorem InStep.tables (hstep : InStep gone h pg lsn e) {e' : Engine} (hbuf : e'.txbuf = e.txbuf)
    (htables : ∀ (i : Nat) (t' : Table), e'.tables[i]? = some t' → ∃ t, e.tables[i]? = some t ∧
      t'.mirror = t.mirror ∧ t'.dedupeBelow = t.dedupeBelow) : InStep gone h pg lsn e' := by
  refine ⟨hbuf ▸ hstep.held, hstep.ordered, hstep.bound, hstep.explains, fun i t' ht' => ?_,
    fun t' ht' => ?_⟩
  · obtain ⟨t, ht, hmirror, -⟩ := htables i t' ht'
    rw [hmirror]
    exact hstep.mirrors i t ht
  · obtain ⟨i, hi⟩ := List.mem_iff_getElem?.mp ht'
    obtain ⟨t, ht, -, hdedupe⟩ := htables i t' hi
    rw [hdedupe]
    exact hstep.dedupe t (List.mem_of_getElem? ht)

theorem InStep.housekeeping (hstep : InStep gone h pg lsn e) (dec : TupleDecoder) {m : Move}
    (hm : m.Housekeeping) : InStep gone h pg lsn (e.move dec m).1 := by
  cases m with
  | flush env now persisted =>
    simp only [Engine.move, flushAll]
    split
    · exact hstep
    · refine hstep.tables rfl fun i t' ht' => ?_
      obtain ⟨t, ht, rfl | ⟨-, rfl⟩⟩ := flushTables_cases ht'
      · exact ⟨t', ht, rfl, rfl⟩
      · exact ⟨t, ht, rfl, rfl⟩
  | compact =>
    simp only [Engine.move, maybeCompact]
    split
    · exact hstep
    · refine hstep.tables rfl fun i t' ht' => ?_
      obtain ⟨t, ht, rfl | ⟨-, -, rfl | ⟨sink, before, after, -, rfl⟩⟩⟩ := compactTables_stepped ht'
      · exact ⟨t', ht, rfl, rfl⟩
      · exact ⟨t, ht, rfl, rfl⟩
      · exact ⟨t, ht, rfl, rfl⟩
  | applied lsn' => exact hstep.tables rfl fun i t' ht' => ⟨t', ht', rfl, rfl⟩
  | record | remap | forget | resnapshot | stop => cases hm

theorem InStep.record (hstep : InStep gone h pg lsn e) (now : Instant) {ev : WalEvent}
    (hlsn : lsn < ev.lsn) (hallows : pg.Allows ev.effect) (hxids : ∀ x ∈ ev.effect.xids, x ∉ gone) :
    InStep gone (h.step ev) (pg.after ev.effect) ev.lsn (e.applyEffect now ev.lsn ev.effect) := by
  have hbelow : ∀ p ∈ h, p.2.lsn < ev.lsn := fun p hp => lt_of_le_of_lt (hstep.bound p hp) hlsn
  have hheld := applyEffect_refines hstep.held now ev
  have hordered := hstep.ordered.step hbelow
  have hbound : ∀ p ∈ h.step ev, p.2.lsn ≤ ev.lsn := by
    intro p hp
    rcases Held.mem_step hp with hp | hp
    · exact (hbelow p hp).le
    · exact hp.le
  have hdedupe : ∀ t ∈ e.tables, t.dedupeBelow < ev.lsn := fun t ht =>
    lt_of_le_of_lt (hstep.dedupe t ht) hlsn
  obtain ⟨evLsn, eff⟩ := ev
  cases eff with
  | ops xid table ops =>
    have hexplains := hstep.explains.edits hallows
    rw [← Held.log_recordOps xid evLsn, ← Held.log_append,
      ← Held.rest_append_recordOps (hxids xid (by simp [Effect.xids]))] at hexplains
    have hrows : (pg.after (.ops xid table ops)).rows = pg.rows := NestedTx.State.rows_edits hallows
    exact ⟨hheld, hordered, hbound, hexplains, hrows ▸ hstep.mirrors, fun t ht => (hdedupe t ht).le⟩
  | commit xid subxids =>
    have hexplains := hstep.explains.commit hallows
    rw [← Held.log_rest, Held.rest_comm] at hexplains
    have hrows := hstep.explains.rows_commit hallows
    have hxids : ∀ x ∈ xid :: subxids, x ∉ gone := hxids
    rw [Held.log_taken, Held.taken_rest hxids] at hrows
    obtain ⟨hmirrors, hdedupe'⟩ :=
      hstep.mirrors.commitOps hdedupe now (h.taken (xid :: subxids))
    rw [← hrows, ← hstep.held.commit hstep.ordered] at hmirrors
    rw [← hstep.held.commit hstep.ordered] at hdedupe'
    exact ⟨hheld, hordered, hbound, hexplains, hmirrors, fun t ht => (hdedupe' t ht).le⟩
  | abort xid subxids =>
    have hexplains := hstep.explains.abort hallows
    rw [← Held.log_rest, Held.rest_comm] at hexplains
    have hrows : (pg.after (.abort xid subxids)).rows = pg.rows := pg.rows_abort _
    exact ⟨hheld, hordered, hbound, hexplains, hrows ▸ hstep.mirrors, fun t ht => (hdedupe t ht).le⟩
  | drift table =>
    have hsame : InStep gone h pg evLsn e :=
      ⟨hstep.held, hordered, hbound, hstep.explains, hstep.mirrors, fun t ht => (hdedupe t ht).le⟩
    refine hsame.tables rfl fun i t' ht' => ?_
    simp only [applyEffect, noteDrift, List.getElem?_modify] at ht'
    obtain ⟨t, ht, rfl⟩ := Option.map_eq_some_iff.mp ht'
    refine ⟨t, ht, ?_⟩
    split
    · exact ⟨rfl, rfl⟩
    · exact ⟨rfl, rfl⟩
  | skip | suspect | toastChunk =>
    exact ⟨hheld, hordered, hbound, hstep.explains, hstep.mirrors, fun t ht => (hdedupe t ht).le⟩

theorem Follows.inStep {dec : TupleDecoder} (hrun : Follows dec e pg lsn) : ∃ h, InStep [] h pg lsn e := by
  induction hrun with
  | snapshot hsnap => exact ⟨[], hsnap.inStep⟩
  | nest n _ hn ih =>
    obtain ⟨h, hstep⟩ := ih
    refine ⟨h, hstep.held, hstep.ordered, hstep.bound, hstep.explains.nest hn, ?_, hstep.dedupe⟩
    cases n <;> exact hstep.mirrors
  | record now ev _ hlsn hallows ih =>
    obtain ⟨h, hstep⟩ := ih
    exact ⟨_, hstep.record now hlsn hallows (by simp)⟩
  | housekeeping m _ hm ih =>
    obtain ⟨h, hstep⟩ := ih
    exact ⟨h, hstep.housekeeping dec hm⟩

/-! ## Lookups -/

/-- What an overlay has at an address is the version of a tuple of its transaction. -/
theorem InStep.overlay_sound (hstep : InStep gone h pg lsn e) {x : Xid} {tx : OpenTx} {k : Nat × Ctid}
    {v : RowVersion} (hgone : x ∉ gone) (hx : e.txbuf.openTxs.lookup x = some tx)
    (hv : tx.overlay.lookup k = some v) :
    ∃ tup, pg.heap k = some tup ∧ tup.ver = v ∧ tup.writer = some x := by
  rw [hstep.held x] at hx
  have hown := (congrFun (OpenTx.lookup_overlay hx) k).symm.trans hv
  refine hstep.explains.of_own ?_
  rw [Held.log_taken, Held.taken_rest (by simpa using hgone), Held.taken_singleton]
  exact hown

/-- A tuple of an open transaction is in its overlay, unless the transaction removed it. -/
theorem InStep.overlay_complete (hstep : InStep gone h pg lsn e) {x : Xid} {k : Nat × Ctid}
    {tup : NestedTx.Tuple RowVersion Xid} (htup : pg.heap k = some tup) (hwriter : tup.writer = some x)
    (hdeleter : tup.deleter ≠ some x) :
    ∃ tx, e.txbuf.openTxs.lookup x = some tx ∧ tx.overlay.lookup k = some tup.ver := by
  have hown := hstep.explains.own htup hwriter hdeleter
  rw [Held.log_taken] at hown
  by_cases hgone : x ∈ gone
  · have hnil : (h.rest gone).taken [x] = [] := by
      simp only [Held.taken, Held.rest, List.filter_filter, List.map_eq_nil_iff, List.filter_eq_nil_iff]
      intro p _
      simp only [Bool.and_eq_true, decide_eq_true_eq, List.mem_singleton, not_and]
      exact fun hp hnot => hnot (hp ▸ hgone)
    simp [hnil] at hown
  rw [Held.taken_rest (by simpa using hgone), Held.taken_singleton] at hown
  cases htx : OpenTx.ofOps (h.ofXid x) with
  | none =>
    cases hlist : h.ofXid x with
    | nil => simp [hlist] at hown
    | cons p ps => simp [hlist, OpenTx.ofOps] at htx
  | some tx =>
    exact ⟨tx, (hstep.held x).trans htx, (congrFun (OpenTx.lookup_overlay htx) k).trans hown⟩

/-- A transaction that is gone left another version of the tuple in its overlay. -/
def Shadowed (gone : List Xid) (e : Engine) (k : Nat × Ctid) (ver : RowVersion) : Prop :=
  ∃ x ∈ gone, ∃ tx v, e.txbuf.openTxs.lookup x = some tx ∧ tx.overlay.lookup k = some v ∧ v ≠ ver

/-- The version of a tuple that is there, in whichever order the overlays are searched. -/
theorem InStep.preimage (hstep : InStep gone h pg lsn e) {i : Nat} {t : Table} {a : Ctid}
    {tup : NestedTx.Tuple RowVersion Xid} (ht : e.tables[i]? = some t) (htup : pg.heap (i, a) = some tup)
    (hdeleter : tup.deleter = none) (hshadow : ¬ e.Shadowed gone (i, a) tup.ver) {b : TxBuffer}
    (hperm : b.openTxs.entries.Perm e.txbuf.openTxs.entries) :
    { e with txbuf := b }.preimage i a = some tup.ver := by
  have hsame : ∀ x, b.openTxs.lookup x = e.txbuf.openTxs.lookup x := fun x => AList.perm_lookup hperm
  have hfound : ∀ v, b.lookup i a = some v → v = tup.ver := by
    intro v hv
    obtain ⟨⟨x, tx⟩, hmem, hx⟩ := List.exists_of_findSome?_eq_some hv
    have hlookup := (hsame x).symm.trans (AList.mem_lookup_iff.mpr hmem)
    by_cases hgone : x ∈ gone
    · by_contra hne
      exact hshadow ⟨x, hgone, tx, v, hlookup, hx, hne⟩
    · obtain ⟨tup', htup', hver, -⟩ := hstep.overlay_sound hgone hlookup hx
      obtain rfl := Option.some.inj (htup.symm.trans htup')
      exact hver.symm
  have hmirror : t.mirror.lookup a = pg.rows (i, a) := congrFun (hstep.mirrors i t ht) a
  simp only [Engine.preimage, ht, Option.bind_some, hmirror]
  cases hb : b.lookup i a with
  | some v =>
    rw [hfound v hb]
    rfl
  | none =>
    cases hwriter : tup.writer with
    | none => simp [NestedTx.State.rows, htup, NestedTx.Tuple.row, hwriter]
    | some x =>
      obtain ⟨tx, hx, hv⟩ := hstep.overlay_complete htup hwriter (by rw [hdeleter]; simp)
      have hmem := AList.mem_lookup_iff.mp ((hsame x).trans hx)
      have hnone := List.findSome?_eq_none_iff.mp hb ⟨x, tx⟩ hmem
      rw [hv] at hnone
      cases hnone

/-- An update or a delete that Postgres allows finds its tuple. -/
theorem target_of_allows {xid : Xid} {table : Nat} {op : Op} {a : Ctid}
    (h : pg.Allows (.ops xid table [op])) (htarget : op.target = some a) :
    ∃ tup, pg.heap (table, a) = some tup ∧ tup.deleter = none := by
  cases op with
  | insert ctid ver => cases htarget
  | update oldCtid ctid ver =>
    obtain rfl := Option.some.inj htarget
    obtain ⟨tup, htup, hdeleter, -⟩ := h.1.2
    exact ⟨tup, htup, hdeleter⟩
  | delete ctid oldRow =>
    obtain rfl := Option.some.inj htarget
    obtain ⟨tup, htup, hdeleter, -⟩ := h.1.2
    exact ⟨tup, htup, hdeleter⟩

/-- At every update or delete the pre-image is the version last written at the address, in
whichever order the open transactions are searched, and the mirrors always hold the
committed rows. -/
theorem preimage_of_follows {dec : TupleDecoder} (hrun : Follows dec e pg lsn) :
    (∀ xid i op a, i < e.tables.length → pg.Allows (.ops xid i [op]) → op.target = some a →
      ∃ tup, pg.heap (i, a) = some tup ∧ ∀ b : TxBuffer,
        b.openTxs.entries.Perm e.txbuf.openTxs.entries →
        { e with txbuf := b }.preimage i a = some tup.ver) ∧
    ∀ (i : Nat) (t : Table), e.tables[i]? = some t → ∀ a, t.mirror.lookup a = pg.rows (i, a) := by
  obtain ⟨h, hstep⟩ := hrun.inStep
  refine ⟨fun xid i op a hi hallows htarget => ?_, fun i t ht a => congrFun (hstep.mirrors i t ht) a⟩
  obtain ⟨tup, htup, hdeleter⟩ := target_of_allows hallows htarget
  have hshadow : ¬ e.Shadowed [] (i, a) tup.ver := by
    rintro ⟨x, hx, -⟩
    cases hx
  exact ⟨tup, htup, fun b hperm =>
    hstep.preimage (List.getElem?_eq_getElem hi) htup hdeleter hshadow hperm⟩

end Engine

/-! ## A savepoint that is rolled back -/

namespace Sample

def rowOne : RowVersion := ⟨[some (.i32 1)], none⟩

def rowTwo : RowVersion := ⟨[some (.i32 2)], none⟩

/-- Postgres with an empty table. -/
def noTuples : PgTuples := ⟨fun _ => [], fun _ => none⟩

/-- Transaction 7 inserted a row, and its savepoint 8 is open. -/
def inSavepoint : PgTuples :=
  (PgTuples.after (noTuples.nest (.start 7)) (.ops 7 0 [.insert (0, 1) rowOne])).nest (.savepoint 8 7)

/-- The savepoint updated the row and was rolled back. -/
def afterRollback : PgTuples :=
  (PgTuples.after inSavepoint (.ops 8 0 [.update (0, 1) (0, 2) rowTwo])).after (.abort 8 [])

/-- The engine after the same. -/
def rolledBack : Engine :=
  (((engine [desc "t" 16384]).applyEffect 0 10 (.ops 7 0 [.insert (0, 1) rowOne])).applyEffect 0 20
    (.ops 8 0 [.update (0, 1) (0, 2) rowTwo])).applyEffect 0 30 (.abort 8 [])

theorem levels_inSavepoint (y : Xid) :
    inSavepoint.levels y = if y = 8 then [8, 7] else if y = 7 then [7] else [] := by
  by_cases h8 : y = 8
  · subst h8
    rfl
  · by_cases h7 : y = 7
    · subst h7
      rfl
    · simp [inSavepoint, PgTuples.after, NestedTx.State.nest, NestedTx.State.edits, Op.edits,
        NestedTx.State.edit, noTuples, h7, h8]

theorem levels_afterRollback (y : Xid) : afterRollback.levels y = if y = 7 then [7] else [] := by
  have hlevels : afterRollback.levels y = if y ∈ [8] then [] else inSavepoint.levels y := rfl
  rw [hlevels, levels_inSavepoint]
  by_cases h8 : y = 8
  · simp [h8]
  · simp [h8]

theorem innermost_inSavepoint : inSavepoint.Innermost 8 := by
  refine ⟨rfl, fun y hy => ?_⟩
  simp only [levels_inSavepoint] at hy ⊢
  split
  · exact List.suffix_rfl
  · split
    · exact List.suffix_cons 8 [7]
    · exact List.nil_suffix

theorem innermost_afterRollback : afterRollback.Innermost 7 := by
  refine ⟨rfl, fun y hy => ?_⟩
  simp only [levels_afterRollback] at hy ⊢
  split
  · exact List.suffix_rfl
  · exact List.nil_suffix

theorem noTuples_atSnapshot : (engine [desc "t" 16384]).AtSnapshot noTuples 0 := by
  refine ⟨rfl, by decide, fun i t ht a => ?_, by simp [noTuples]⟩
  cases i with
  | zero =>
    obtain rfl := Option.some.inj ht
    rfl
  | succ i => cases ht

theorem rolledBack_follows : Engine.Follows .reject rolledBack afterRollback 30 := by
  have hstart : noTuples.NestLegal (.start 7) := rfl
  have hinsert : PgTuples.Allows (noTuples.nest (.start 7)) (.ops 7 0 [.insert (0, 1) rowOne]) :=
    ⟨⟨by decide, rfl⟩, trivial⟩
  have hsave : NestedTx.State.NestLegal (PgTuples.after (noTuples.nest (.start 7))
      (.ops 7 0 [.insert (0, 1) rowOne])) (.savepoint 8 7) := by
    refine ⟨rfl, rfl, fun y hy => ?_⟩
    have hlevels : (PgTuples.after (noTuples.nest (.start 7)) (.ops 7 0 [.insert (0, 1) rowOne])).levels y =
        if y = 7 then [7] else [] := Function.update_apply _ 7 [7] y
    rw [hlevels]
    split
    · exact List.suffix_rfl
    · exact List.nil_suffix
  have hupdate : inSavepoint.Allows (.ops 8 0 [.update (0, 1) (0, 2) rowTwo]) := by
    refine ⟨⟨innermost_inSavepoint, _, rfl, rfl, fun w hw => ?_⟩, ⟨by decide, rfl⟩, trivial⟩
    obtain rfl := Option.some.inj hw
    rfl
  have habort : PgTuples.Allows (PgTuples.after inSavepoint (.ops 8 0 [.update (0, 1) (0, 2) rowTwo]))
      (.abort 8 []) := by
    intro y
    have hlevels : (PgTuples.after inSavepoint (.ops 8 0 [.update (0, 1) (0, 2) rowTwo])).levels y =
      inSavepoint.levels y := rfl
    rw [hlevels, levels_inSavepoint]
    by_cases h8 : y = 8
    · simp [h8]
    · by_cases h7 : y = 7
      · simp [h7]
      · simp [h7, h8]
  exact .record 0 ⟨30, .abort 8 []⟩ (.record 0 ⟨20, .ops 8 0 [.update (0, 1) (0, 2) rowTwo]⟩
    (.nest (.savepoint 8 7) (.record 0 ⟨10, .ops 7 0 [.insert (0, 1) rowOne]⟩
      (.nest (.start 7) (.snapshot noTuples_atSnapshot) hstart) (by decide) hinsert) hsave) (by decide) hupdate)
    (by decide) habort

end Sample

/-- After the rollback the row is updated again, and its first version is found. -/
theorem Engine.preimage_of_follows_rollback :
    Sample.afterRollback.Allows (.ops 7 0 [.update (0, 1) (0, 2) Sample.rowTwo]) ∧
      Sample.rolledBack.preimage 0 (0, 1) = some Sample.rowOne := by
  have hallows : Sample.afterRollback.Allows (.ops 7 0 [.update (0, 1) (0, 2) Sample.rowTwo]) := by
    refine ⟨⟨Sample.innermost_afterRollback, _, rfl, rfl, fun w hw => ?_⟩, ⟨by decide, rfl⟩, trivial⟩
    obtain rfl := Option.some.inj hw
    rfl
  refine ⟨hallows, ?_⟩
  obtain ⟨tup, htup, hpre⟩ :=
    (preimage_of_follows Sample.rolledBack_follows).1 7 0 _ (0, 1) (by decide) hallows rfl
  obtain rfl := Option.some.inj htup
  exact hpre _ (List.Perm.refl _)

end Ltap
