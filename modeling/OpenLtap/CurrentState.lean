-- SUMMARY: When the change log, collapsed by primary key, is the Postgres table.
import Mathlib.Data.Finset.Order
import OpenLtap.Base.KeyedLog
import OpenLtap.Base.LatestPerKey
import OpenLtap.Recovery.ExactlyOnce

/-!
# The current-state view

Readers of a change log take the newest row of every primary key and drop tombstones.
The engine logs what happens at physical addresses. Here one process streams a table
from its initial snapshot on, with any schedule of flush rounds. The mirror follows
the heap of Postgres, the change log is the keyed log of the heap's changes, and the
view readers get is the table exactly when every key is settled.
-/

namespace Ltap

/-! ## Histories of a table -/

abbrev PgHeap := KeyedLog.Heap Ctid Row

/-- The change of the heap that an op stands for. -/
def Op.change : Op → KeyedLog.Change Ctid Row
  | .insert ctid ver => .put ctid ver.row
  | .update oldCtid ctid ver => .move oldCtid ctid ver.row
  | .delete ctid _ => .del ctid

/-- A pre-image that came with an op is the row that Postgres had. -/
def Op.Faithful (h : PgHeap) : Op → Prop
  | .delete ctid oldRow => ∀ row ∈ oldRow, h ctid = some row
  | _ => True

def FaithfulFrom (h : PgHeap) : List Op → Prop
  | [] => True
  | op :: ops => op.Faithful h ∧ FaithfulFrom (h.apply op.change) ops

def Snapshot.changes (s : Snapshot) : List (KeyedLog.Change Ctid Row) :=
  s.rows.map fun (ctid, row) => .put ctid row

/-- The changes of table `i`: its snapshot, then what the stream commits. -/
def history (s : Snapshot) (i : Nat) (w : List WalEvent) : List (KeyedLog.Change Ctid Row) :=
  s.changes ++ (emission i w).map (·.2.change)

/-- The committed table after some changes. -/
def pgTable (cs : List (KeyedLog.Change Ctid Row)) : PgHeap :=
  KeyedLog.Heap.applyAll (fun _ => none) cs

/-- What Postgres promises about a history: rows are written to free addresses and
removed from used ones, pre-images are right, and committed keys are unique. -/
structure PgHistory (desc : TableDesc) (s : Snapshot) (i : Nat) (w : List WalEvent) : Prop where
  legal : KeyedLog.LegalFrom (fun _ => none) (history s i w)
  faithful : FaithfulFrom (pgTable s.changes) ((emission i w).map (·.2))
  unique : ∀ a b r r', pgTable (history s i w) a = some r → pgTable (history s i w) b = some r' →
    desc.keyOf r = desc.keyOf r' → a = b

/-! ## The view -/

/-- The newest row of a key, unless it is a tombstone. -/
def DeltaSink.currentRow (s : DeltaSink) (desc : TableDesc) (k : List (Option Value)) :
    Option Row :=
  (LatestPerKey.latest (fun e => desc.keyOf e.row) EmitRow.version k s.log).bind fun e =>
    if e.deleted then none else some e.row

/-- The rows readers see. -/
def Table.currentRows (t : Table) : Set Row := { row | ∃ k, t.sink.currentRow t.desc k = some row }

/-! ## Following the heap -/

/-- The rows that are in the change log or on their way there. -/
def Table.emitted (t : Table) : List EmitRow := t.sink.log ++ t.pending.rows

/-- The rows of the mirror by address. -/
def Table.mirrorRows (t : Table) : PgHeap := fun a => (t.mirror.lookup a).map (·.row)

/-- The table's mirror and change rows follow the changes `cs`, and nothing was emitted
beyond `lsn`. -/
structure Tracks (t : Table) (cs : List (KeyedLog.Change Ctid Row)) (lsn : Lsn) : Prop where
  mirror : ∀ ctid, (t.mirror.lookup ctid).map (·.row) = pgTable cs ctid
  emitted : t.emitted.map (fun e => (e.row, e.deleted)) = KeyedLog.log (fun _ => none) cs
  ordered : t.emitted.Pairwise (·.version < ·.version)
  bound : ∀ e ∈ t.emitted, e.lsn < lsn ∨ e.lsn = lsn ∧ e.seq ≤ t.pending.seq

theorem Tracks.later {t : Table} {cs : List (KeyedLog.Change Ctid Row)} {lsn lsn' : Lsn}
    (h : Tracks t cs lsn) (hlt : lsn < lsn') : Tracks t cs lsn' := by
  refine ⟨h.mirror, h.emitted, h.ordered, fun e he => .inl ?_⟩
  rcases h.bound e he with hb | ⟨hb, -⟩
  · exact lt_trans hb hlt
  · exact hb ▸ hlt

theorem pgTable_concat (cs : List (KeyedLog.Change Ctid Row)) (c : KeyedLog.Change Ctid Row) :
    pgTable (cs ++ [c]) = (pgTable cs).apply c := by
  simp [pgTable, KeyedLog.Heap.applyAll_append]

/-- One more emitted row: the mirror and the entry of the change decide. -/
theorem Tracks.emit {t t' : Table} {cs : List (KeyedLog.Change Ctid Row)} {lsn : Lsn}
    (h : Tracks t cs lsn) (now : Instant) {deleted : Bool} {ctid : Ctid} {row : Row}
    {c : KeyedLog.Change Ctid Row} (hsink : t'.sink = t.sink)
    (hpending : t'.pending = t.pending.emit now lsn deleted ctid row)
    (hmirror : ∀ ctid, (t'.mirror.lookup ctid).map (·.row) = (pgTable cs).apply c ctid)
    (hentry : c.entry (pgTable cs) = some (row, deleted)) : Tracks t' (cs ++ [c]) lsn := by
  have hemitted : t'.emitted =
      t.emitted ++ [{ lsn, seq := t.pending.seq + 1, deleted, ctid, row }] := by
    simp [Table.emitted, hsink, hpending, PendingBatch.emit]
  have hseq : t'.pending.seq = t.pending.seq + 1 := by simp [hpending, PendingBatch.emit]
  refine ⟨?_, ?_, ?_, ?_⟩
  · rw [pgTable_concat]
    exact hmirror
  · have hentry : c.entry (KeyedLog.Heap.applyAll (fun _ => none) cs) = some (row, deleted) :=
      hentry
    rw [hemitted, KeyedLog.log_append, List.map_append, h.emitted]
    simp [KeyedLog.log, hentry]
  · rw [hemitted]
    refine List.pairwise_append.mpr ⟨h.ordered, List.pairwise_singleton _ _, ?_⟩
    intro e he e' he'
    obtain rfl := List.mem_singleton.mp he'
    refine Prod.Lex.toLex_lt_toLex.mpr ?_
    rcases h.bound e he with hlt | ⟨heq, hle⟩
    · exact .inl hlt
    · exact .inr ⟨heq, Nat.lt_succ_of_le hle⟩
  · intro e he
    rw [hemitted] at he
    rw [hseq]
    rcases List.mem_append.mp he with he | he
    · rcases h.bound e he with hlt | ⟨heq, hle⟩
      · exact .inl hlt
      · exact .inr ⟨heq, Nat.le_succ_of_le hle⟩
    · obtain rfl := List.mem_singleton.mp he
      exact .inr ⟨rfl, le_rfl⟩

theorem Table.mirrorRows_applyOp (t : Table) (now : Instant) (lsn : Lsn) (op : Op) :
    (t.applyOp now lsn op).mirrorRows = t.mirrorRows.apply op.change := by
  funext a
  cases op with
  | insert ctid ver =>
    by_cases ha : a = ctid
    · subst ha
      simp [Table.mirrorRows, Table.applyOp, Op.change, KeyedLog.Heap.apply]
    · simp [Table.mirrorRows, Table.applyOp, Op.change, KeyedLog.Heap.apply, ha]
  | update oldCtid ctid ver =>
    by_cases ha : a = ctid
    · subst ha
      simp [Table.mirrorRows, Table.applyOp, Op.change, KeyedLog.Heap.apply]
    · by_cases ho : a = oldCtid
      · subst ho
        simp [Table.mirrorRows, Table.applyOp, Op.change, KeyedLog.Heap.apply, ha]
      · simp [Table.mirrorRows, Table.applyOp, Op.change, KeyedLog.Heap.apply, ha, ho, AList.lookup_erase_ne]
  | delete ctid oldRow =>
    by_cases ha : a = ctid
    · subst ha
      simp [Table.mirrorRows, Table.applyOp, Op.change, KeyedLog.Heap.apply]
    · simp [Table.mirrorRows, Table.applyOp, Op.change, KeyedLog.Heap.apply, ha, AList.lookup_erase_ne]

theorem Tracks.applyOp {t : Table} {cs : List (KeyedLog.Change Ctid Row)} {lsn : Lsn}
    (h : Tracks t cs lsn) (now : Instant) {op : Op} (hlegal : op.change.Legal (pgTable cs))
    (hfaithful : op.Faithful (pgTable cs)) :
    Tracks (t.applyOp now lsn op) (cs ++ [op.change]) lsn := by
  have hrows : t.mirrorRows = pgTable cs := funext h.mirror
  have hmirror : ∀ c, ((t.applyOp now lsn op).mirror.lookup c).map (·.row) = (pgTable cs).apply op.change c := by
    intro c
    rw [← hrows]
    exact congrFun (t.mirrorRows_applyOp now lsn op) c
  cases op with
  | insert ctid ver => exact h.emit now rfl rfl hmirror rfl
  | update oldCtid ctid ver => exact h.emit now rfl rfl hmirror rfl
  | delete ctid oldRow =>
    obtain ⟨row, hrow⟩ := Option.ne_none_iff_exists'.mp hlegal
    refine h.emit now rfl rfl hmirror ?_
    -- The tombstone carries the row that was there, from the op or from the mirror.
    have hm := h.mirror ctid
    cases oldRow with
    | none => simp [Op.change, KeyedLog.Change.entry, hm, hrow]
    | some r =>
      have hr := hfaithful r rfl
      simp [Op.change, KeyedLog.Change.entry, hr]

theorem Tracks.commitOps {t : Table} {cs : List (KeyedLog.Change Ctid Row)} {lsn : Lsn}
    (h : Tracks t cs lsn) (now : Instant) (hded : t.dedupeBelow < lsn) {ops : List Op}
    (hlegal : KeyedLog.LegalFrom (pgTable cs) (ops.map (·.change)))
    (hfaithful : FaithfulFrom (pgTable cs) ops) :
    Tracks (t.commitOps now lsn ops) (cs ++ ops.map (·.change)) lsn := by
  induction ops generalizing t cs with
  | nil => simpa [Table.commitOps] using h
  | cons op ops ih =>
    have hstep : t.commitOps now lsn (op :: ops) = (t.applyOp now lsn op).commitOps now lsn ops := by
      rw [Table.commitOps, List.foldl_cons, Table.commitOp, if_neg (not_le.mpr hded)]
      rfl
    have hded' : (t.applyOp now lsn op).dedupeBelow < lsn := by
      rw [(t.applyOp_spec now lsn op).2.2.1]
      exact hded
    have := ih (h.applyOp now hlegal.1 hfaithful.1) hded'
      (by rw [pgTable_concat]; exact hlegal.2) (by rw [pgTable_concat]; exact hfaithful.2)
    rw [hstep]
    simpa using this

/-! ## The initial snapshot -/

theorem snapshotMirror_lookup (dec : TupleDecoder) (desc : TableDesc) (s : Snapshot)
    (ctid : Ctid) :
    ((Table.snapshotMirror dec desc s).lookup ctid).map (·.row) = pgTable s.changes ctid := by
  suffices h : ∀ (rows : List (Ctid × Row)) (m : Mirror) (heap : PgHeap),
      (∀ c, (m.lookup c).map (·.row) = heap c) → ∀ c,
      ((rows.foldl (fun m (ctid, row) => m.insert ctid
        { row, attrs := (s.rawAttrs.lookup ctid).or (dec.encodeAttrs row desc) }) m).lookup c).map
          (·.row) =
        heap.applyAll (rows.map fun (ctid, row) => .put ctid row) c from
    h s.rows ∅ (fun _ => none) (fun _ => rfl) ctid
  intro rows
  induction rows with
  | nil => exact fun m heap h => h
  | cons p rows ih =>
    intro m heap h
    refine ih _ _ fun c => ?_
    by_cases hc : c = p.1
    · subst hc
      simp [KeyedLog.Heap.apply]
    · simp [KeyedLog.Heap.apply, hc, h c]

theorem log_snapshot_changes (s : Snapshot) :
    KeyedLog.log (fun _ => none) s.changes = s.rows.map fun p => (p.2, false) := by
  suffices h : ∀ (rows : List (Ctid × Row)) (heap : PgHeap),
      KeyedLog.log heap (rows.map fun (ctid, row) => .put ctid row) =
        rows.map fun p => (p.2, false) from h s.rows _
  intro rows
  induction rows with
  | nil => exact fun _ => rfl
  | cons p rows ih =>
    intro heap
    simp [KeyedLog.log, KeyedLog.Change.entry, ih]

theorem initialSnapshot_emitted (dec : TupleDecoder) (desc : TableDesc) {sink : DeltaSink}
    (hlog : sink.log = []) (s : Snapshot) :
    ((Table.opened desc sink).initialSnapshot dec s).emitted = s.rows.mapIdx fun i r =>
      { lsn := s.cutover, seq := i, deleted := false, ctid := r.1, row := r.2 } := by
  by_cases hrows : s.rows = []
  · simp [Table.emitted, Table.initialSnapshot, Table.opened, PendingBatch.empty, hrows, hlog]
  · simp [Table.emitted, Table.initialSnapshot, Table.opened, PendingBatch.empty, hrows, hlog]

/-- A table that has just been snapshotted. -/
theorem Tracks.initial (dec : TupleDecoder) {desc : TableDesc} {sink : DeltaSink}
    (hlog : sink.log = []) (s : Snapshot) {lsn : Lsn} (hlsn : s.cutover < lsn) :
    Tracks ((Table.opened desc sink).initialSnapshot dec s) s.changes lsn := by
  have hemitted := initialSnapshot_emitted dec desc hlog s
  refine ⟨snapshotMirror_lookup dec desc s, ?_, ?_, ?_⟩
  · rw [hemitted, log_snapshot_changes]
    exact List.ext_getElem (by simp) (by simp)
  · rw [hemitted, List.pairwise_iff_getElem]
    intro i j hi hj hij
    refine Prod.Lex.toLex_lt_toLex.mpr (.inr ?_)
    simpa using hij
  · intro e he
    rw [hemitted] at he
    obtain ⟨i, hi, rfl⟩ := List.mem_mapIdx.mp he
    exact .inl hlsn

/-! ## Streaming -/

/-- What a streaming process does. Every Delta commit succeeds. -/
inductive Action where
  | record (now : Instant) (ev : WalEvent)
  | flush (now : Instant) (persisted : Lsn)

def Engine.act (e : Engine) : Action → Engine
  | .record now ev => e.applyEffect now ev.lsn ev.effect
  | .flush now persisted => (e.flushAll (fun _ _ => true) now persisted).1

def Engine.actAll (e : Engine) (as : List Action) : Engine := as.foldl Engine.act e

def recordsOf (as : List Action) : List WalEvent :=
  as.filterMap fun
    | .record _ ev => some ev
    | .flush .. => none

theorem Tracks.flush {t : Table} {cs : List (KeyedLog.Change Ctid Row)} {lsn : Lsn}
    (h : Tracks t cs lsn) (restart : Lsn) : Tracks (t.flush restart) cs lsn := by
  have hemitted : (t.flush restart).emitted = t.emitted := by
    simp [Table.emitted, Table.flush, PendingBatch.clear]
  refine ⟨h.mirror, ?_, ?_, ?_⟩
  · rw [hemitted]; exact h.emitted
  · rw [hemitted]; exact h.ordered
  · rw [hemitted]; exact h.bound

theorem FaithfulFrom.append {h : PgHeap} {ops ops' : List Op} (hf : FaithfulFrom h (ops ++ ops')) :
    FaithfulFrom h ops ∧ FaithfulFrom (h.applyAll (ops.map (·.change))) ops' := by
  induction ops generalizing h with
  | nil => exact ⟨trivial, hf⟩
  | cons op ops ih => exact ⟨⟨hf.1, (ih hf.2).1⟩, (ih hf.2).2⟩

/-- The table keeps following the heap, whatever the schedule. -/
structure Streaming (s : Snapshot) (desc : TableDesc) (i : Nat) (w : List WalEvent) (e : Engine) :
    Prop where
  held : e.txbuf.Refines (Held.ofWal w)
  desc_eq : ∀ t, e.tables[i]? = some t → t.desc = desc
  dedupe : ∀ t, e.tables[i]? = some t → t.dedupeBelow = s.cutover
  tracks : ∀ t, e.tables[i]? = some t → ∀ lsn, s.cutover < lsn → (∀ ev ∈ w, ev.lsn < lsn) →
    Tracks t (history s i w) lsn

variable {s : Snapshot} {desc : TableDesc} {i : Nat} {e : Engine}

theorem history_concat (s : Snapshot) (i : Nat) (w : List WalEvent) (ev : WalEvent) :
    history s i (w ++ [ev]) =
      history s i w ++ (((Held.ofWal w).visible i ev).map (·.2)).map (·.change) := by
  simp [history]

theorem Streaming.record {w : List WalEvent} {ev : WalEvent} (h : Streaming s desc i w e)
    (now : Instant) (hw : Increasing (w ++ [ev])) (hcut : s.cutover < ev.lsn)
    (hlegal : KeyedLog.LegalFrom (fun _ => none) (history s i (w ++ [ev])))
    (hfaithful : FaithfulFrom (pgTable s.changes) ((emission i (w ++ [ev])).map (·.2))) :
    Streaming s desc i (w ++ [ev]) (e.applyEffect now ev.lsn ev.effect) := by
  obtain ⟨hinc, -, hlt⟩ := List.pairwise_append.mp hw
  have ho := Held.ofWal_ordered hinc
  have hahead : ∀ ev' ∈ w, ev'.lsn < ev.lsn := fun ev' hmem => hlt ev' hmem ev (by simp)
  -- Every table the record leaves comes from one it found.
  have hback : ∀ t', (e.applyEffect now ev.lsn ev.effect).tables[i]? = some t' → t'.desc = desc ∧
      t'.dedupeBelow = s.cutover ∧ Tracks t' (history s i (w ++ [ev])) ev.lsn := by
    intro t' ht'
    obtain ⟨t, ht, needs, rfl⟩ := Engine.applyEffect_getElem? h.held ho now ht'
    have hded := h.dedupe t ht
    have hspec := Table.commitOps_of_lt (by rw [hded]; exact hcut) now
      (((Held.ofWal w).visible i ev).map (·.2))
    refine ⟨hspec.desc.trans (h.desc_eq t ht), hspec.dedupeBelow.trans hded, ?_⟩
    rw [history_concat] at hlegal ⊢
    rw [emission_concat, List.map_append] at hfaithful
    have hstart := h.tracks t ht ev.lsn hcut hahead
    have hfaith := hfaithful.append.2
    rw [List.map_map] at hfaith
    have htable : (pgTable s.changes).applyAll ((emission i w).map (Op.change ∘ Prod.snd)) =
        pgTable (history s i w) := by
      simp only [pgTable, history, KeyedLog.Heap.applyAll_append]
      rfl
    rw [htable] at hfaith
    obtain ⟨hmirror, hemit, hord, hbound⟩ :=
      hstart.commitOps now (by rw [hded]; exact hcut) hlegal.append hfaith
    exact ⟨hmirror, hemit, hord, hbound⟩
  refine ⟨?_, fun t ht => (hback t ht).1, fun t ht => (hback t ht).2.1, ?_⟩
  · rw [Held.ofWal_concat]
    exact Engine.applyEffect_refines h.held now ev
  · intro t ht lsn _ hbelow
    exact (hback t ht).2.2.later (hbelow ev (by simp))

theorem Streaming.flush {w : List WalEvent} (h : Streaming s desc i w e) (now : Instant)
    (persisted : Lsn) :
    Streaming s desc i w (e.flushAll (fun _ _ => true) now persisted).1 := by
  unfold Engine.flushAll
  split
  · exact h
  · refine ⟨h.held, ?_, ?_, ?_⟩
    · intro t' ht'
      obtain ⟨t, ht, rfl | ⟨-, rfl⟩⟩ := flushTables_cases ht'
      · exact h.desc_eq t' ht
      · exact h.desc_eq t ht
    · intro t' ht'
      obtain ⟨t, ht, rfl | ⟨-, rfl⟩⟩ := flushTables_cases ht'
      · exact h.dedupe t' ht
      · exact h.dedupe t ht
    · intro t' ht' lsn hcut hbelow
      obtain ⟨t, ht, rfl | ⟨-, rfl⟩⟩ := flushTables_cases ht'
      · exact h.tracks t' ht lsn hcut hbelow
      · exact (h.tracks t ht lsn hcut hbelow).flush _

theorem Streaming.actAll (h : Streaming s desc i [] e) {as : List Action}
    (hw : Increasing (recordsOf as)) (hcut : ∀ ev ∈ recordsOf as, s.cutover < ev.lsn)
    (hlegal : KeyedLog.LegalFrom (fun _ => none) (history s i (recordsOf as)))
    (hfaithful : FaithfulFrom (pgTable s.changes) ((emission i (recordsOf as)).map (·.2))) :
    Streaming s desc i (recordsOf as) (e.actAll as) := by
  induction as using List.reverseRecOn with
  | nil => exact h
  | append_singleton as a ih =>
    cases a with
    | flush now persisted =>
      have hrec : recordsOf (as ++ [.flush now persisted]) = recordsOf as := by simp [recordsOf]
      rw [hrec] at hw hcut hlegal hfaithful ⊢
      simpa [Engine.actAll, Engine.act] using (ih hw hcut hlegal hfaithful).flush now persisted
    | record now ev =>
      have hrec : recordsOf (as ++ [.record now ev]) = recordsOf as ++ [ev] := by simp [recordsOf]
      rw [hrec] at hw hcut hlegal hfaithful ⊢
      have hfaith := hfaithful
      rw [emission_concat, List.map_append] at hfaith
      have hleg := hlegal
      rw [history_concat] at hleg
      have ih := ih (List.pairwise_append.mp hw).1 (fun ev' hmem => hcut ev' (by simp [hmem]))
        hleg.left hfaith.append.1
      simpa [Engine.actAll, Engine.act] using
        ih.record now hw (hcut ev (by simp)) hlegal hfaithful

/-! ## The view against the table -/

theorem DeltaSink.currentRow_eq_view {sink : DeltaSink} (desc : TableDesc)
    (hord : sink.log.Pairwise (·.version < ·.version)) (k : List (Option Value)) :
    sink.currentRow desc k =
      KeyedLog.view desc.keyOf k (sink.log.map fun e => (e.row, e.deleted)) := by
  rw [currentRow, LatestPerKey.latest_eq_getLast? _ _ hord, KeyedLog.view, List.filter_map,
    List.getLast?_map, Option.bind_map]
  rfl

/-- One process streams a table from its initial snapshot on. After a final flush the view
of its change log is the committed table if and only if every key is settled: the last op
that logs the key wrote a row that is not moved to another key afterwards, or removed the
last row that is not. -/
theorem currentRows_eq_iff {dec : TupleDecoder} {sink : DeltaSink} (hlog : sink.log = [])
    (htable : e.tables[i]? = some ((Table.opened desc sink).initialSnapshot dec s))
    (htxbuf : e.txbuf = .empty) {as : List Action} (hw : Increasing (recordsOf as))
    (hcut : ∀ ev ∈ recordsOf as, s.cutover < ev.lsn) (hpg : PgHistory desc s i (recordsOf as))
    {now : Instant} {persisted : Lsn} {t : Table}
    (ht : (e.actAll (as ++ [.flush now persisted])).tables[i]? = some t) :
    t.currentRows = { row | ∃ ctid, pgTable (history s i (recordsOf as)) ctid = some row } ↔
      KeyedLog.Settled desc.keyOf (history s i (recordsOf as)) := by
  have hinit : Streaming s desc i [] e := by
    refine ⟨htxbuf ▸ TxBuffer.Refines.empty, ?_, ?_, ?_⟩
    · intro u hu
      rw [htable] at hu
      exact Option.some.inj hu ▸ rfl
    · intro u hu
      rw [htable] at hu
      exact Option.some.inj hu ▸ rfl
    · intro u hu lsn hlsn _
      rw [htable] at hu
      have hempty : history s i [] = s.changes := by simp [history, emission, emissionFrom]
      rw [hempty]
      exact Option.some.inj hu ▸ Tracks.initial dec hlog s hlsn
  have hact : e.actAll (as ++ [.flush now persisted]) =
      ((e.actAll as).flushAll (fun _ _ => true) now persisted).1 := by
    simp [Engine.actAll, Engine.act]
  rw [hact] at ht
  have hstream := (hinit.actAll hw hcut hpg.legal hpg.faithful).flush now persisted
  obtain ⟨bound, hbound⟩ := Finset.exists_le ((recordsOf as).map (·.lsn)).toFinset
  have htracks := hstream.tracks t ht (max bound s.cutover + 1)
    (Nat.lt_succ_of_le (le_max_right _ _)) fun ev hmem =>
      Nat.lt_succ_of_le (le_trans (hbound ev.lsn (by simpa using ⟨ev, hmem, rfl⟩)) (le_max_left _ _))
  have hemitted : t.emitted = t.sink.log := by
    have hrows := Engine.flushAll_rows
      (Prod.ext rfl (Prod.ext rfl ((e.actAll as).flushAll_succeeds now persisted)))
      (List.mem_of_getElem? ht)
    simp [Table.emitted, hrows]
  have hview : ∀ k, t.sink.currentRow t.desc k =
      KeyedLog.view desc.keyOf k (KeyedLog.log (fun _ => none) (history s i (recordsOf as))) := by
    intro k
    rw [DeltaSink.currentRow_eq_view _ (hemitted ▸ htracks.ordered), ← hemitted, htracks.emitted,
      hstream.desc_eq t ht]
  rw [← KeyedLog.view_eq_heap_iff desc.keyOf hpg.legal, Set.ext_iff]
  · refine forall_congr' fun row => iff_congr ?_ Iff.rfl
    simp only [Table.currentRows, Set.mem_ofPred_eq, hview]
    constructor
    · rintro ⟨k, hk⟩
      exact KeyedLog.key_of_view desc.keyOf hk ▸ hk
    · exact fun hrow => ⟨_, hrow⟩
  · intro a b r r' ha hb hkey
    have hab := hpg.unique a b r r' ha hb hkey
    subst hab
    exact Option.some.inj (ha.symm.trans hb)

/-! ## Two small histories -/

namespace Sample

/-- `t (id int primary key)`, snapshotted while empty. -/
def snapshotted : Engine :=
  { Sample.engine [Sample.desc "t" 16384] with
    tables := [(Table.opened (Sample.desc "t" 16384)
      (Sample.sink (Sample.desc "t" 16384))).initialSnapshot .reject ⟨5, [], ∅⟩] }

/-- `insert into t values (1)`. -/
def insertOne : List Action :=
  [.record 0 ⟨10, .ops 7 0 [.insert (0, 1) ⟨[some (.i32 1)], none⟩]⟩, .record 0 ⟨20, .commit 7 []⟩]

/-- The same, and then `update t set id = 2`. -/
def insertThenRekey : List Action :=
  insertOne ++ [.record 0 ⟨30, .ops 8 0 [.update (0, 1) (0, 2) ⟨[some (.i32 2)], none⟩]⟩,
    .record 0 ⟨40, .commit 8 []⟩]

end Sample

theorem currentRows_eq_iff_insert :
    ∃ t, (Sample.snapshotted.actAll (Sample.insertOne ++ [.flush 0 0])).tables[0]? = some t ∧
      (t.currentRows = { row | ∃ ctid,
          pgTable (history ⟨5, [], ∅⟩ 0 (recordsOf Sample.insertOne)) ctid = some row } ↔
        KeyedLog.Settled (Sample.desc "t" 16384).keyOf
          (history ⟨5, [], ∅⟩ 0 (recordsOf Sample.insertOne))) := by
  have hhist : history ⟨5, [], ∅⟩ 0 (recordsOf Sample.insertOne) =
      [.put (0, 1) [some (.i32 1)]] := rfl
  have hpg : PgHistory (Sample.desc "t" 16384) ⟨5, [], ∅⟩ 0 (recordsOf Sample.insertOne) := by
    refine ⟨⟨rfl, trivial⟩, ⟨trivial, trivial⟩, ?_⟩
    intro a b r r' ha hb _
    rw [hhist] at ha hb
    simp only [pgTable, KeyedLog.Heap.applyAll_cons, KeyedLog.Heap.applyAll_nil,
      KeyedLog.Heap.apply, Function.update_apply] at ha hb
    split at ha
    · split at hb
      · simp [*]
      · cases hb
    · cases ha
  have htable : Sample.snapshotted.tables[0]? = some ((Table.opened (Sample.desc "t" 16384)
      (Sample.sink (Sample.desc "t" 16384))).initialSnapshot .reject ⟨5, [], ∅⟩) := rfl
  have ht : (Sample.snapshotted.actAll (Sample.insertOne ++ [.flush 0 0])).tables[0]? = some _ := rfl
  exact ⟨_, ht, currentRows_eq_iff rfl htable rfl (by decide) (by decide) hpg ht⟩

/-- After `update t set id = 2` readers still see the row with key 1. -/
theorem currentRows_stale_after_rekey :
    PgHistory (Sample.desc "t" 16384) ⟨5, [], ∅⟩ 0 (recordsOf Sample.insertThenRekey) ∧
      ∃ t, (Sample.snapshotted.actAll (Sample.insertThenRekey ++ [.flush 0 0])).tables[0]? = some t ∧
        t.currentRows ≠ { row | ∃ ctid,
          pgTable (history ⟨5, [], ∅⟩ 0 (recordsOf Sample.insertThenRekey)) ctid = some row } := by
  have hhist : history ⟨5, [], ∅⟩ 0 (recordsOf Sample.insertThenRekey) =
      [.put (0, 1) [some (.i32 1)], .move (0, 1) (0, 2) [some (.i32 2)]] := rfl
  have htable : ∀ a r, pgTable (history ⟨5, [], ∅⟩ 0 (recordsOf Sample.insertThenRekey)) a = some r →
      a = (0, 2) ∧ r = [some (.i32 2)] := by
    intro a r ha
    rw [hhist] at ha
    simp only [pgTable, KeyedLog.Heap.applyAll_cons, KeyedLog.Heap.applyAll_nil,
      KeyedLog.Heap.apply, Function.update_apply] at ha
    split at ha
    · exact ⟨‹_›, (Option.some.inj ha).symm⟩
    · split at ha <;> cases ha
  refine ⟨⟨?_, ⟨trivial, trivial, trivial⟩, ?_⟩, _, rfl, ?_⟩
  · rw [hhist]
    exact ⟨rfl, ⟨by simp [KeyedLog.Heap.apply], by simp [KeyedLog.Heap.apply]⟩, trivial⟩
  · intro a b r r' ha hb _
    rw [(htable a r ha).1, (htable b r' hb).1]
  · intro heq
    obtain ⟨ctid, hctid⟩ := (Set.ext_iff.mp heq [some (.i32 1)]).mp ⟨[some (.i32 1)], rfl⟩
    simpa using (htable _ _ hctid).2

end Ltap
