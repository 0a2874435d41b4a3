-- SUMMARY: When the mirror rebuilt from the change log is the mirror that was lost.
import OpenLtap.Compaction
import OpenLtap.CurrentState
import OpenLtap.Engine.Moves
import OpenLtap.Engine.Sinks

/-!
# Rebuilding the mirror

After a restart the mirror is rebuilt from the change log, as the latest entry of every
address. An update moves its row to another address and logs it there only, so the old
address keeps its entry and the row comes back. It goes away when the address is written
or deleted again, or with a compaction that leaves the rows of the mirror. Here a table
is streamed from its snapshot on, and the addresses that are stale are kept track of.
-/

namespace Ltap

/-- The rows that the mirror rebuilt from the change log has. -/
def DeltaSink.reloadedRows (dec : TupleDecoder) (s : DeltaSink) (desc : TableDesc) : PgHeap :=
  fun a => ((s.loadMirror dec desc).lookup a).map (·.row)

/-- The live row of an address in a list of change rows. -/
def liveRow (l : List EmitRow) : PgHeap :=
  fun a => LatestPerKey.live (·.ctid) EmitRow.version (·.deleted) (·.row) a l

/-! ## Reading the log -/

namespace DeltaSink

theorem loadLatest_eq (s : DeltaSink) (desc : TableDesc) :
    s.loadLatest desc = (s.readLog desc).foldl (LatestPerKey.collect (·.ctid)
      (fun e : EmitRow => (e.version, e.deleted, e.row)) (·.1)) ∅ := by
  rw [loadLatest, readLog, List.foldl_flatMap]
  congr 1
  funext acc b
  rw [List.foldl_map]
  congr 1
  funext m e
  unfold loadEntry LatestPerKey.collect
  simp only
  cases m.lookup e.ctid <;> rfl

/-- The loop that drops the tombstones. -/
private theorem lookup_undeleted (attrs : Row → Option Bytes) {l : List (Sigma fun _ : Ctid =>
    (Lsn ×ₗ Nat) × Bool × Row)} (hl : l.NodupKeys) (a : Ctid) :
    ((l.foldr (fun e (mirror : Map Ctid RowVersion) => if e.2.2.1 then mirror
      else mirror.insert e.1 { row := e.2.2.2, attrs := attrs e.2.2.2 }) ∅).lookup a).map (·.row) =
      (l.dlookup a).bind fun v => if v.2.1 then none else some v.2.2 := by
  induction l with
  | nil => rfl
  | cons e l ih =>
    obtain ⟨k, v⟩ := e
    obtain ⟨hnot, hrest⟩ := List.nodupKeys_cons.mp hl
    rw [List.foldr_cons]
    by_cases hk : a = k
    · subst hk
      rw [List.dlookup_cons_eq, Option.bind_some]
      split
      · rw [ih hrest, List.dlookup_eq_none.mpr hnot]
        rfl
      · rw [AList.lookup_insert]
        rfl
    · rw [List.dlookup_cons_ne l ⟨k, v⟩ hk, ← ih hrest]
      split
      · rfl
      · rw [AList.lookup_insert_ne hk]

theorem reloadedRows_eq (dec : TupleDecoder) (s : DeltaSink) (desc : TableDesc) :
    s.reloadedRows dec desc = liveRow (s.readLog desc) := by
  funext a
  rw [reloadedRows, loadMirror, lookup_undeleted (dec.encodeAttrs · desc) (AList.nodupKeys _)]
  have hlookup := LatestPerKey.lookup_collect (·.ctid) (fun e : EmitRow => (e.version, e.deleted, e.row))
    (·.1) a (s.readLog desc)
  rw [← loadLatest_eq] at hlookup
  change ((s.loadLatest desc).lookup a).bind _ = _
  rw [hlookup, Option.bind_map]
  rfl

theorem readLog_versions (s : DeltaSink) (desc : TableDesc) :
    (s.readLog desc).map EmitRow.version = s.log.map EmitRow.version := by
  simp only [readLog, log, DeltaTable.log, List.map_flatMap, List.map_map]
  rfl

end DeltaSink

/-! ## Committed ops -/

/-- The rows that an op writes have one value a column, of the column's type. -/
def Op.Typed (cols : List Col) : Op → Prop
  | .insert _ ver | .update _ _ ver => ver.row.Typed cols
  | .delete .. => True

namespace Table

/-- The change log as it reads back, and the rows on their way there. -/
def reread (t : Table) : List EmitRow := t.sink.readLog t.desc ++ t.pending.rows

/-- A streamed table, whose log shows the mirror apart from rows that were moved away. -/
structure Streams (t : Table) (stale : Finset Ctid) : Prop where
  conforms : t.sink.Conforms t.desc
  typed : ∀ e ∈ t.pending.rows, e.deleted = false → e.row.Typed t.desc.cols
  versions : (t.emitted.map EmitRow.version).Nodup
  shown : KeyedLog.Shown (liveRow t.reread) t.mirrorRows stale

/-- Nothing was emitted that is newer than the next row of the commit at `lsn`. -/
def Before (t : Table) (lsn : Lsn) : Prop :=
  ∀ e ∈ t.emitted, e.lsn < lsn ∨ e.lsn = lsn ∧ e.seq ≤ t.pending.seq

theorem reread_versions (t : Table) :
    t.reread.map EmitRow.version = t.emitted.map EmitRow.version := by
  simp [reread, emitted, DeltaSink.readLog_versions]

/-- An op is logged at the address that it writes or clears. -/
theorem applyOp_logs (t : Table) (now : Instant) (lsn : Lsn) (op : Op) :
    ∃ e : EmitRow, (t.applyOp now lsn op).pending.rows = t.pending.rows ++ [e] ∧
      (t.applyOp now lsn op).pending.seq = t.pending.seq + 1 ∧ e.lsn = lsn ∧
      e.seq = t.pending.seq + 1 ∧ (e.ctid, if e.deleted then none else some e.row) = op.change.shows ∧
      (op.Typed t.desc.cols → e.deleted = false → e.row.Typed t.desc.cols) := by
  cases op with
  | insert ctid ver => exact ⟨_, rfl, rfl, rfl, rfl, rfl, fun htyped _ => htyped⟩
  | update oldCtid ctid ver => exact ⟨_, rfl, rfl, rfl, rfl, rfl, fun htyped _ => htyped⟩
  | delete ctid oldRow => exact ⟨_, rfl, rfl, rfl, rfl, rfl, fun _ hdeleted => by cases hdeleted⟩

variable {t : Table} {stale : Finset Ctid} {lsn : Lsn}

theorem Streams.applyOp (h : t.Streams stale) (hbefore : t.Before lsn) (now : Instant) {op : Op}
    (htyped : op.Typed t.desc.cols) :
    (t.applyOp now lsn op).Streams (op.change.stale t.mirrorRows stale) ∧
      (t.applyOp now lsn op).Before lsn := by
  obtain ⟨hsink, hdesc, -, -, -⟩ := t.applyOp_spec now lsn op
  obtain ⟨e, hrows, hseq, hlsn, heseq, hshows, hrow⟩ := t.applyOp_logs now lsn op
  have hemitted : (t.applyOp now lsn op).emitted = t.emitted ++ [e] := by
    simp [emitted, hsink, hrows]
  have hnewer : ∀ e' ∈ t.emitted, e'.version < e.version := by
    intro e' he'
    refine Prod.Lex.toLex_lt_toLex.mpr ?_
    rcases hbefore e' he' with hlt | ⟨heq, hle⟩
    · exact .inl (hlsn ▸ hlt)
    · exact .inr ⟨heq.trans hlsn.symm, by simp only; omega⟩
  refine ⟨⟨?_, ?_, ?_, ?_⟩, ?_⟩
  · rw [hsink, hdesc]
    exact h.conforms
  · rw [hrows, hdesc]
    intro e' he' hdeleted
    rcases List.mem_append.mp he' with he' | he'
    · exact h.typed e' he' hdeleted
    · obtain rfl := List.mem_singleton.mp he'
      exact hrow htyped hdeleted
  · rw [hemitted, List.map_append, List.map_singleton]
    refine List.Nodup.append h.versions (List.nodup_singleton _) ?_
    intro v hv hv'
    obtain ⟨e', he', rfl⟩ := List.mem_map.mp hv
    exact absurd (List.mem_singleton.mp hv') (hnewer e' he').ne
  · have hreread : (t.applyOp now lsn op).reread = t.reread ++ [e] := by
      simp [reread, hsink, hdesc, hrows]
    have hlive : liveRow (t.reread ++ [e]) =
        Function.update (liveRow t.reread) op.change.shows.1 op.change.shows.2 := by
      funext a
      have hnew : ∀ e' ∈ t.reread, e'.version < e.version := by
        intro e' he'
        have hmem := List.mem_map_of_mem (f := EmitRow.version) he'
        rw [reread_versions] at hmem
        obtain ⟨e'', he'', heq⟩ := List.mem_map.mp hmem
        exact heq ▸ hnewer e'' he''
      rw [liveRow, LatestPerKey.live_concat_of_newer _ _ hnew, ← hshows, Function.update_apply]
      simp only [eq_comm]
      rfl
    rw [hreread, hlive, mirrorRows_applyOp]
    exact h.shown.apply op.change
  · intro e' he'
    rw [hemitted] at he'
    rw [hseq]
    rcases List.mem_append.mp he' with he' | he'
    · rcases hbefore e' he' with hlt | ⟨heq, hle⟩
      · exact .inl hlt
      · exact .inr ⟨heq, Nat.le_succ_of_le hle⟩
    · obtain rfl := List.mem_singleton.mp he'
      exact .inr ⟨hlsn, heseq.le⟩

theorem Streams.commitOps (h : t.Streams stale) (hbefore : t.Before lsn) (hlsn : t.dedupeBelow < lsn)
    (now : Instant) {ops : List Op} (htyped : ∀ op ∈ ops, op.Typed t.desc.cols) :
    (t.commitOps now lsn ops).Streams
        (KeyedLog.staleAll t.mirrorRows stale (ops.map (·.change))) ∧
      (t.commitOps now lsn ops).Before lsn := by
  induction ops generalizing t stale with
  | nil => exact ⟨h, hbefore⟩
  | cons op ops ih =>
    have hstep : t.commitOps now lsn (op :: ops) = (t.applyOp now lsn op).commitOps now lsn ops := by
      rw [Table.commitOps, List.foldl_cons, Table.commitOp, if_neg (not_le.mpr hlsn)]
      rfl
    obtain ⟨-, hdesc, hdedupe, -, -⟩ := t.applyOp_spec now lsn op
    obtain ⟨hstreams, hbefore'⟩ := h.applyOp hbefore now (htyped op (by simp))
    rw [hstep, List.map_cons, KeyedLog.staleAll, ← mirrorRows_applyOp t now lsn]
    refine ih hstreams hbefore' (by rw [hdedupe]; exact hlsn) fun op' hop' => ?_
    rw [hdesc]
    exact htyped op' (by simp [hop'])

end Table

/-! ## Flushes -/

theorem DeltaSink.storedRows_versions (s : DeltaSink) :
    s.storedRows.map (·.entry.version) = s.log.map EmitRow.version := by
  simp only [storedRows, log, DeltaTable.log, List.map_flatMap, List.map_map]
  rfl

theorem DeltaSink.Conforms.append {s : DeltaSink} {desc : TableDesc} (h : s.Conforms desc)
    {rows : List EmitRow} (hversions : ((s.log ++ rows).map EmitRow.version).Nodup) (c r : Lsn)
    (f : Oid) : (s.append rows c r f).Conforms desc where
  names := h.names
  pk := h.pk
  columns := h.columns
  types := by
    intro b hb dc hdc dc' hdc' hname
    rcases List.mem_append.mp hb with hb | hb
    · exact h.types b hb dc hdc dc' hdc' hname
    · obtain rfl := List.mem_singleton.mp hb
      rw [List.inj_on_of_nodup_map h.names hdc' hdc hname]
  stamped := fun _ => rfl
  versions := by
    rw [← append_log s rows c r f, ← storedRows_versions] at hversions
    refine List.Pairwise.imp ?_ (List.pairwise_map.mp hversions)
    exact fun hne _ => hne

/-- The pending rows of a table are in its log. -/
theorem Table.Streams.appended {t t' : Table} {stale : Finset Ctid} (h : t.Streams stale)
    (hdesc : t'.desc = t.desc) (hmirror : t'.mirror = t.mirror) (hrows : t'.pending.rows = [])
    {c r : Lsn} {f : Oid} (hsink : t'.sink = t.sink.append t.pending.rows c r f) :
    t'.Streams stale := by
  have hemitted : t'.emitted = t.emitted := by
    simp [Table.emitted, hsink, hrows]
  refine ⟨?_, fun e he => ?_, hemitted ▸ h.versions, ?_⟩
  · rw [hsink, hdesc]
    exact h.conforms.append h.versions _ _ _
  · rw [hrows] at he
    cases he
  · have hreread : t'.reread =
        t.sink.readLog t.desc ++ t.pending.rows.map (t.sink.storedRow t.desc) := by
      simp [Table.reread, hsink, hdesc, hrows, DeltaSink.append_readLog]
    have hlive : liveRow t'.reread = liveRow t.reread := by
      funext a
      rw [liveRow, liveRow, LatestPerKey.live_eq_map, LatestPerKey.live_eq_map, hreread, Table.reread]
      congr 2
      rw [List.map_append, List.map_append, List.map_map]
      congr 1
      refine List.map_congr_left fun e he => ?_
      cases hdeleted : e.deleted with
      | true => simp [DeltaSink.storedRow, EmitRow.version, hdeleted]
      | false =>
        have hstored := DeltaSink.stored_eq h.conforms.columns (h.typed e he hdeleted)
        simp [DeltaSink.storedRow, EmitRow.version, hdeleted, hstored]
    have hsame : t'.mirrorRows = t.mirrorRows := by
      funext a
      rw [Table.mirrorRows, Table.mirrorRows, hmirror]
    rw [hlive, hsame]
    exact h.shown

/-! ## Compactions -/

namespace DeltaSink

/-- A stored row as it reads back under the live columns. -/
def readRow (s : DeltaSink) (desc : TableDesc) (r : StoredRow) : EmitRow :=
  { r.entry with row := desc.cols.map fun c => s.cellOf r c.name }

theorem Conforms.readLog_eq {s : DeltaSink} {desc : TableDesc} (h : s.Conforms desc) :
    s.readLog desc = s.storedRows.map (s.readRow desc) := by
  rw [readLog, storedRows, List.map_flatMap]
  congr 1
  funext b
  rw [List.map_map]
  refine List.map_congr_left fun e _ => ?_
  simp only [Function.comp_apply, readRow, EmitRow.mk.injEq, true_and]
  refine List.map_congr_left fun c hc => ?_
  obtain ⟨i, hi⟩ := List.mem_iff_getElem?.mp hc
  obtain ⟨dc, hfind, -, -⟩ := h.columns i c hi
  have hidx : s.deltaCols.findIdx? (·.col.name = c.name) ≠ none := by
    intro hnone
    have hall := List.findIdx?_eq_none_iff.mp hnone dc (List.mem_of_find?_eq_some hfind)
    simp [List.find?_some hfind] at hall
  obtain ⟨j, hj⟩ := Option.ne_none_iff_exists'.mp hidx
  obtain ⟨hlt, hname, -⟩ := List.findIdx?_eq_some_iff_getElem.mp hj
  have hname : s.deltaCols[j].col.name = c.name := by simpa using hname
  have hmap : (s.deltaCols.map (·.col)).findIdx? (·.name = c.name) = some j := by
    rw [List.findIdx?_map]
    exact hj
  rw [cellOf, Row.get, hmap, Option.bind_some, List.getElem?_map, List.getElem?_eq_getElem hlt,
    Option.map_some, Option.join_some, hname]

/-- What a row reads back as depends on its contents only. -/
private def readContents (cols : List Col) (desc : TableDesc) :
    Lsn × Nat × Bool × Ctid × List (Option Value) → EmitRow :=
  fun (lsn, seq, deleted, ctid, cells) =>
    { lsn, seq, deleted, ctid, row := desc.cols.map fun c => Row.get cols cells c.name }

theorem Compacted.readRows {s s' : DeltaSink} {desc : TableDesc} (hc : s.Compacted desc s')
    (hcols : s'.deltaCols = s.deltaCols) :
    (s'.storedRows.map (s'.readRow desc)).Perm
      ((s.newestBy (s.keyTuple desc)).map fun x => s.readRow desc x.1) := by
  have hread : ∀ u : DeltaSink, u.readRow desc =
      readContents (u.deltaCols.map (·.col)) desc ∘ StoredRow.contents := fun _ => rfl
  have hperm := hc.rows.map (readContents (s.deltaCols.map (·.col)) desc)
  rw [List.map_map, List.map_map] at hperm
  rw [hread s', hcols]
  exact hperm

end DeltaSink

/-- A compaction that keeps the rows of the mirror: no newest live row shares its key string
with a newer row of another key, the kept indices fit, the entry of every row in the mirror is
the newest of its key, and no newest live row lies at an address that has lost its row. -/
structure Table.CompactsToMirror (t : Table) : Prop where
  apart : t.sink.KeysApart t.desc
  fit : t.sink.Settled t.desc ∨ t.sink.IndicesFit t.desc
  kept : ∀ a row, t.mirrorRows a = some row → ∃ x ∈ t.sink.newestBy (t.sink.keyTuple t.desc),
    x.1.entry.ctid = a ∧ (t.sink.readRow t.desc x.1).row = row ∧
      ∀ r ∈ t.sink.storedRows, r.entry.ctid = a → r.entry.version ≤ x.1.entry.version
  live : ∀ x ∈ t.sink.newestBy (t.sink.keyTuple t.desc), (t.mirrorRows x.1.entry.ctid).isSome

theorem Table.Streams.compact {t : Table} {stale : Finset Ctid} (h : t.Streams stale)
    (hflushed : t.pending.rows = []) (hpk : t.desc.pk ≠ []) (hmirror : t.CompactsToMirror)
    {sink : DeltaSink} {before after : Nat} (hdone : t.sink.compact t.desc = .done sink before after) :
    { t with sink, rowsSinceCompaction := 0 }.Streams ∅ ∧
      { t with sink, rowsSinceCompaction := 0 }.emitted.map EmitRow.version ⊆
        t.emitted.map EmitRow.version := by
  have hc := h.conforms.compacted hpk hmirror.apart hmirror.fit hdone
  have hconforms := h.conforms.of_compacted hpk hmirror.apart hmirror.fit hdone
  obtain ⟨-, -, hcols⟩ := DeltaSink.compact_done hdone
  have hread : (sink.readLog t.desc).Perm
      ((t.sink.newestBy (t.sink.keyTuple t.desc)).map fun x => t.sink.readRow t.desc x.1) := by
    rw [hconforms.readLog_eq]
    exact hc.readRows hcols
  have hversions : ((sink.readLog t.desc).map EmitRow.version).Perm
      ((t.sink.newestBy (t.sink.keyTuple t.desc)).map fun x => x.1.entry.version) := by
    have hperm := hread.map EmitRow.version
    rwa [List.map_map] at hperm
  have hsub : ((t.sink.newestBy (t.sink.keyTuple t.desc)).map fun x => x.1.entry.version).Sublist
      (t.emitted.map EmitRow.version) := by
    have hstored : t.sink.storedRows.zipIdx.map (fun x => x.1.entry.version) =
        t.emitted.map EmitRow.version := by
      rw [Table.emitted, hflushed, List.append_nil, ← DeltaSink.storedRows_versions]
      have hfst := List.map_map (g := fun r : DeltaSink.StoredRow => r.entry.version) (f := Prod.fst)
        (l := t.sink.storedRows.zipIdx)
      rw [List.zipIdx_map_fst] at hfst
      exact hfst.symm
    rw [← hstored]
    exact List.filter_sublist.map _
  have hnodup : ((sink.readLog t.desc).map EmitRow.version).Nodup :=
    hversions.nodup_iff.mpr (h.versions.sublist hsub)
  have hemitted : { t with sink, rowsSinceCompaction := 0 }.emitted.map EmitRow.version =
      (sink.readLog t.desc).map EmitRow.version := by
    simp [Table.emitted, hflushed, DeltaSink.readLog_versions]
  refine ⟨⟨hconforms, fun e he => ?_, hemitted ▸ hnodup, ?_⟩, ?_⟩
  · rw [hflushed] at he
    cases he
  · have hreread : { t with sink, rowsSinceCompaction := 0 }.reread = sink.readLog t.desc := by
      simp [Table.reread, hflushed]
    rw [hreread]
    refine ⟨fun a _ => ?_, fun a ha => by cases ha⟩
    change liveRow (sink.readLog t.desc) a = t.mirrorRows a
    cases ha : t.mirrorRows a with
    | none =>
      refine LatestPerKey.live_eq_none _ _ fun e he heq => ?_
      obtain ⟨x, hx, rfl⟩ := List.mem_map.mp (hread.mem_iff.mp he)
      have hsome := hmirror.live x hx
      rw [show x.1.entry.ctid = a from heq, ha] at hsome
      cases hsome
    | some row =>
      obtain ⟨x, hx, hctid, hrow, hgreatest⟩ := hmirror.kept a row ha
      have hlatest : LatestPerKey.latest (·.ctid) EmitRow.version a (sink.readLog t.desc) =
          some (t.sink.readRow t.desc x.1) := by
        refine LatestPerKey.latest_of_greatest _ _ hnodup (hread.mem_iff.mpr (List.mem_map_of_mem hx))
          hctid fun e he heq => ?_
        obtain ⟨y, hy, rfl⟩ := List.mem_map.mp (hread.mem_iff.mp he)
        have hstored := List.mem_of_getElem? (DeltaSink.zipIdx_getElem? (DeltaSink.mem_newestBy.mp hy).1)
        exact hgreatest y.1 hstored heq
      have hlive : (t.sink.readRow t.desc x.1).deleted = false := (DeltaSink.mem_newestBy.mp hx).2.2
      rw [liveRow, LatestPerKey.live, hlatest, Option.bind_some, hlive, hrow]
      rfl
  · rw [hemitted]
    exact fun v hv => hsub.subset (hversions.subset hv)

/-! ## The initial snapshot -/

/-- The rows of a snapshot, as they are logged. -/
theorem liveRow_snapshot (lsn : Lsn) (rows : List (Ctid × Row)) :
    liveRow (rows.mapIdx fun i r => { lsn, seq := i, deleted := false, ctid := r.1, row := r.2 }) =
      pgTable (rows.map fun r => .put r.1 r.2) := by
  induction rows using List.reverseRecOn with
  | nil => rfl
  | append_singleton rows r ih =>
    funext a
    have hnewer : ∀ e ∈ rows.mapIdx fun i r =>
        ({ lsn, seq := i, deleted := false, ctid := r.1, row := r.2 } : EmitRow),
        e.version < EmitRow.version
          { lsn, seq := rows.length, deleted := false, ctid := r.1, row := r.2 } := by
      intro e he
      obtain ⟨k, hk, rfl⟩ := List.mem_mapIdx.mp he
      exact Prod.Lex.toLex_lt_toLex.mpr (.inr ⟨rfl, hk⟩)
    rw [List.mapIdx_append, List.mapIdx_singleton, Nat.zero_add, liveRow,
      LatestPerKey.live_concat_of_newer _ _ hnewer, List.map_append, List.map_singleton, pgTable_concat,
      ← ih, KeyedLog.Heap.apply, Function.update_apply]
    simp only [eq_comm]
    rfl

theorem Table.Streams.initial (dec : TupleDecoder) {desc : TableDesc} {sink : DeltaSink}
    (hconforms : sink.Conforms desc) (hlog : sink.log = []) {s : Snapshot}
    (htyped : ∀ r ∈ s.rows, r.2.Typed desc.cols) :
    ((Table.opened desc sink).initialSnapshot dec s).Streams ∅ := by
  have hread : sink.readLog desc = [] := by
    have hversions := sink.readLog_versions desc
    rw [hlog, List.map_nil] at hversions
    exact List.map_eq_nil_iff.mp hversions
  -- The table with the snapshot still on its way to the log.
  have hpending : Table.Streams
      { Table.opened desc sink with
        mirror := Table.snapshotMirror dec desc s
        pending.rows := s.rows.mapIdx fun i r =>
          { lsn := s.cutover, seq := i, deleted := false, ctid := r.1, row := r.2 } } ∅ := by
    refine ⟨hconforms, ?_, ?_, ?_⟩
    · intro e he _
      obtain ⟨k, hk, rfl⟩ := List.mem_mapIdx.mp he
      exact htyped _ (List.getElem_mem hk)
    · simp only [Table.emitted, Table.opened, hlog, List.nil_append]
      refine List.nodup_iff_injective_get.mpr fun k k' heq => ?_
      have hseq := congrArg (fun v => (ofLex v).2) heq
      simpa [EmitRow.version, Fin.ext_iff] using hseq
    · refine ⟨fun a _ => ?_, fun a ha => by cases ha⟩
      simp only [Table.reread, Table.opened, hread, List.nil_append]
      exact (congrFun (liveRow_snapshot s.cutover s.rows) a).trans
        (snapshotMirror_lookup dec desc s a).symm
  by_cases hrows : s.rows = []
  · have hsame : (Table.opened desc sink).initialSnapshot dec s =
        { Table.opened desc sink with
          mirror := Table.snapshotMirror dec desc s
          dedupeBelow := s.cutover } := by
      simp [Table.initialSnapshot, Table.opened, hrows]
    rw [hrows] at hpending
    rw [hsame]
    exact ⟨hpending.conforms, hpending.typed, hpending.versions, hpending.shown⟩
  · have hsink : ((Table.opened desc sink).initialSnapshot dec s).sink =
        sink.append (s.rows.mapIdx fun i r =>
          { lsn := s.cutover, seq := i, deleted := false, ctid := r.1, row := r.2 })
          s.cutover s.cutover desc.relNode := by
      simp [Table.initialSnapshot, Table.opened, hrows]
    exact hpending.appended rfl rfl rfl hsink

/-! ## Runs -/

/-- A round of compactions rewrites the log of table `i`. -/
def Engine.Rewrites (e : Engine) (i : Nat) : Prop :=
  e.maybeCompact.1.tables[i]?.map (·.sink) ≠ e.tables[i]?.map (·.sink)

/-- Table `i` is streamed from its snapshot on. `stale` are the addresses that a row was moved
away from and that nothing was logged for since, neither a committed op nor a compaction. -/
inductive Mirroring (dec : TupleDecoder) (i : Nat) : Engine → Finset Ctid → Lsn → Prop where
  | start {e : Engine} {desc : TableDesc} {sink : DeltaSink} {s : Snapshot} :
    sink.Conforms desc → sink.log = [] → (∀ r ∈ s.rows, r.2.Typed desc.cols) →
    e.tables[i]? = some ((Table.opened desc sink).initialSnapshot dec s) →
    Mirroring dec i e ∅ s.cutover
  | record {e : Engine} {stale : Finset Ctid} {lsn : Lsn} {t : Table} (now : Instant) (ev : WalEvent) :
    Mirroring dec i e stale lsn → lsn < ev.lsn → e.tables[i]? = some t →
    (∀ op ∈ e.committed i ev.effect, op.Typed t.desc.cols) →
    Mirroring dec i (e.applyEffect now ev.lsn ev.effect)
      (KeyedLog.staleAll t.mirrorRows stale ((e.committed i ev.effect).map (·.change))) ev.lsn
  | applied {e : Engine} {stale : Finset Ctid} {lsn : Lsn} (appliedLsn : Lsn) :
    Mirroring dec i e stale lsn →
    Mirroring dec i { e with tail := { e.tail with appliedLsn } } stale lsn
  | flush {e : Engine} {stale : Finset Ctid} {lsn : Lsn} (ok : AppendOk) (now : Instant)
    (persisted : Lsn) :
    Mirroring dec i e stale lsn → Mirroring dec i (e.flushAll ok now persisted).1 stale lsn
  /-- A round of compactions that has nothing to gain for the table. -/
  | compact {e e' : Engine} {stale : Finset Ctid} {lsn : Lsn} {ok : AppendOk} {now : Instant}
    {persisted restart : Lsn} :
    Mirroring dec i e stale lsn → e.flushAll ok now persisted = (e', restart, true) →
    ¬ e'.Rewrites i → Mirroring dec i e'.maybeCompact.1 stale lsn
  | rewrite {e e' : Engine} {stale : Finset Ctid} {lsn : Lsn} {ok : AppendOk} {now : Instant}
    {persisted restart : Lsn} :
    Mirroring dec i e stale lsn → e.flushAll ok now persisted = (e', restart, true) →
    e'.Rewrites i → (∀ t, e'.tables[i]? = some t → t.CompactsToMirror) →
    Mirroring dec i e'.maybeCompact.1 ∅ lsn

/-- A streamed table that has committed everything up to `lsn`. -/
structure Table.Mirrored (t : Table) (stale : Finset Ctid) (lsn : Lsn) : Prop where
  streams : t.Streams stale
  bound : ∀ e ∈ t.emitted, e.lsn ≤ lsn
  dedupe : t.dedupeBelow ≤ lsn

namespace Table.Mirrored

variable {t : Table} {stale : Finset Ctid} {lsn : Lsn}

theorem initial (dec : TupleDecoder) {desc : TableDesc} {sink : DeltaSink}
    (hconforms : sink.Conforms desc) (hlog : sink.log = []) {s : Snapshot}
    (htyped : ∀ r ∈ s.rows, r.2.Typed desc.cols) :
    ((Table.opened desc sink).initialSnapshot dec s).Mirrored ∅ s.cutover := by
  refine ⟨.initial dec hconforms hlog htyped, fun e he => ?_, le_rfl⟩
  rw [initialSnapshot_emitted dec desc hlog] at he
  obtain ⟨k, hk, rfl⟩ := List.mem_mapIdx.mp he
  exact le_rfl

theorem commit (h : t.Mirrored stale lsn) {lsn' : Lsn} (hlt : lsn < lsn') (now : Instant)
    {ops : List Op} (htyped : ∀ op ∈ ops, op.Typed t.desc.cols) (needs : Bool) :
    { t.commitOps now lsn' ops with needsResnapshot := needs }.Mirrored
      (KeyedLog.staleAll t.mirrorRows stale (ops.map Op.change)) lsn' := by
  have hdedupe : t.dedupeBelow < lsn' := lt_of_le_of_lt h.dedupe hlt
  have hbefore : t.Before lsn' := fun e he => .inl (lt_of_le_of_lt (h.bound e he) hlt)
  obtain ⟨hstreams, hbefore'⟩ := h.streams.commitOps hbefore hdedupe now htyped
  refine ⟨⟨hstreams.conforms, hstreams.typed, hstreams.versions, hstreams.shown⟩, fun e he => ?_, ?_⟩
  · rcases hbefore' e he with hlt | ⟨heq, -⟩
    · exact hlt.le
    · exact heq.le
  · exact ((t.commitOps_of_lt hdedupe now ops).dedupeBelow.trans_le hdedupe.le)

theorem flush (h : t.Mirrored stale lsn) (restart : Lsn) : (t.flush restart).Mirrored stale lsn := by
  refine ⟨h.streams.appended rfl rfl rfl rfl, fun e he => h.bound e ?_, h.dedupe⟩
  simpa [Table.emitted, Table.flush, PendingBatch.clear] using he

theorem flushAll {e : Engine} {i : Nat} (h : ∀ t, e.tables[i]? = some t → t.Mirrored stale lsn)
    (ok : AppendOk) (now : Instant) (persisted : Lsn) {t' : Table}
    (ht' : (e.flushAll ok now persisted).1.tables[i]? = some t') : t'.Mirrored stale lsn := by
  unfold Engine.flushAll at ht'
  split at ht'
  · exact h t' ht'
  · obtain ⟨t, ht, rfl | ⟨-, rfl⟩⟩ := flushTables_cases ht'
    · exact h t' ht
    · exact (h t ht).flush _

theorem uncompacted (h : t.Mirrored stale lsn) :
    { t with rowsSinceCompaction := 0 }.Mirrored stale lsn :=
  ⟨⟨h.streams.conforms, h.streams.typed, h.streams.versions, h.streams.shown⟩, h.bound, h.dedupe⟩

theorem compacted (h : t.Mirrored stale lsn) (hflushed : t.pending.rows = []) (hpk : t.desc.pk ≠ [])
    (hmirror : t.CompactsToMirror) {sink : DeltaSink} {before after : Nat}
    (hdone : t.sink.compact t.desc = .done sink before after) :
    { t with sink, rowsSinceCompaction := 0 }.Mirrored ∅ lsn := by
  obtain ⟨hstreams, hversions⟩ := h.streams.compact hflushed hpk hmirror hdone
  refine ⟨hstreams, fun e he => ?_, h.dedupe⟩
  obtain ⟨e', he', heq⟩ := List.mem_map.mp (hversions (List.mem_map_of_mem he))
  have hlsn : e'.lsn = e.lsn := congrArg (fun v => (ofLex v).1) heq
  exact hlsn ▸ h.bound e' he'

end Table.Mirrored

theorem Mirroring.mirrored {dec : TupleDecoder} {i : Nat} {e : Engine} {stale : Finset Ctid} {lsn : Lsn}
    (h : Mirroring dec i e stale lsn) {t : Table} (ht : e.tables[i]? = some t) :
    t.Mirrored stale lsn := by
  induction h generalizing t with
  | start hconforms hlog htyped htable =>
    obtain rfl := Option.some.inj (htable.symm.trans ht)
    exact .initial dec hconforms hlog htyped
  | record now ev _ hlt htable htyped ih =>
    obtain ⟨u, hu, needs, rfl⟩ := Engine.applyEffect_committed ht
    obtain rfl := Option.some.inj (htable.symm.trans hu)
    exact (ih htable).commit hlt now htyped needs
  | applied _ _ ih => exact ih ht
  | flush ok now persisted _ ih =>
    exact .flushAll (fun _ => ih) ok now persisted ht
  | @compact e e' stale lsn ok now persisted restart _ hflush hkept ih =>
    obtain ⟨u, hu, hcase⟩ := Engine.maybeCompact_stepped ht
    have hmirrored : u.Mirrored stale lsn := by
      refine .flushAll (fun _ => ih) ok now persisted ?_
      rw [hflush]
      exact hu
    rcases hcase with rfl | rfl | ⟨-, sink, before, after, -, rfl⟩
    · exact hmirrored
    · exact hmirrored.uncompacted
    · -- The sink is the same after all.
      rw [Engine.Rewrites, ht, hu, not_not] at hkept
      obtain rfl : sink = u.sink := Option.some.inj hkept
      exact hmirrored.uncompacted
  | @rewrite e e' stale lsn ok now persisted restart _ hflush hrewrites hmirror ih =>
    obtain ⟨u, hu, hcase⟩ := Engine.maybeCompact_stepped ht
    have hmirrored : u.Mirrored stale lsn := by
      refine .flushAll (fun _ => ih) ok now persisted ?_
      rw [hflush]
      exact hu
    rw [Engine.Rewrites, ht, hu] at hrewrites
    rcases hcase with rfl | rfl | ⟨hpk, sink, before, after, hdone, rfl⟩
    · exact absurd rfl hrewrites
    · exact absurd rfl hrewrites
    · have hflushed := Engine.flushAll_rows hflush (List.mem_of_getElem? hu)
      exact hmirrored.compacted hflushed hpk (hmirror u hu) hdone

/-- With nothing pending, the mirror that a restart would rebuild is the mirror if and only if
no address is stale. -/
theorem reloadedRows_eq_mirrorRows_iff {dec : TupleDecoder} {i : Nat} {e : Engine}
    {stale : Finset Ctid} {lsn : Lsn} (h : Mirroring dec i e stale lsn) {t : Table}
    (ht : e.tables[i]? = some t) (hrows : t.pending.rows = []) :
    (∀ a, t.sink.reloadedRows dec t.desc a = t.mirrorRows a) ↔ stale = ∅ := by
  have hshown := (h.mirrored ht).streams.shown
  have hreread : t.reread = t.sink.readLog t.desc := by
    simp [Table.reread, hrows]
  rw [hreread, ← DeltaSink.reloadedRows_eq dec] at hshown
  exact hshown.eq_iff

/-! ## A row that is moved -/

namespace Sample

/-- `t (id int primary key)`, snapshotted while empty, with its log compacted early. -/
def reloadable : Engine := { snapshotted with compactRows := 1 }

/-- `insert into t values (1)`. -/
def inserted : Engine :=
  (reloadable.applyEffect 0 10 (.ops 7 0 [.insert (0, 1) ⟨[some (.i32 1)], none⟩])).applyEffect 0 20
    (.commit 7 [])

/-- The same, and then `update t set id = id`. -/
def rewritten : Engine :=
  (inserted.applyEffect 0 30 (.ops 8 0 [.update (0, 1) (0, 2) ⟨[some (.i32 1)], none⟩])).applyEffect 0
    40 (.commit 8 [])

theorem sink_conforms : (sink (desc "t" 16384)).Conforms (desc "t" 16384) where
  names := by decide
  pk := by decide
  columns := by
    have hcols : (sink (desc "t" 16384)).deltaCols =
        DeltaSink.addColumns 0 (desc "t" 16384).cols [] := rfl
    exact DeltaSink.matches_of_addColumns (by decide) (by simp) hcols
  types := by decide
  stamped := by decide
  versions := by decide

theorem row_typed (n : Int) : Row.Typed (desc "t" 16384).cols [some (.i32 n)] := by
  refine ⟨rfl, fun i c v hc hv => ?_⟩
  cases i with
  | zero =>
    obtain rfl := Option.some.inj hc
    obtain rfl := Option.some.inj (Option.some.inj hv)
    rfl
  | succ i => cases hc

theorem inserted_mirroring : Mirroring .reject 0 inserted ∅ 20 := by
  have hstart : Mirroring .reject 0 reloadable ∅ 5 :=
    .start sink_conforms rfl (s := ⟨5, [], ∅⟩) (by simp) rfl
  have hop : Mirroring .reject 0 _ ∅ 10 :=
    .record 0 ⟨10, .ops 7 0 [.insert (0, 1) ⟨[some (.i32 1)], none⟩]⟩ hstart (by decide) rfl
      (fun _ hop => by cases hop)
  refine .record 0 ⟨20, .commit 7 []⟩ hop (by decide) rfl fun op hop => ?_
  obtain rfl : op = .insert (0, 1) ⟨[some (.i32 1)], none⟩ := List.mem_singleton.mp hop
  exact row_typed 1

theorem rewritten_mirroring : Mirroring .reject 0 rewritten {(0, 1)} 40 := by
  have hop : Mirroring .reject 0 _ ∅ 30 :=
    .record 0 ⟨30, .ops 8 0 [.update (0, 1) (0, 2) ⟨[some (.i32 1)], none⟩]⟩ inserted_mirroring
      (by decide) rfl (fun _ hop => by cases hop)
  refine .record 0 ⟨40, .commit 8 []⟩ hop (by decide) rfl fun op hop => ?_
  obtain rfl : op = .update (0, 1) (0, 2) ⟨[some (.i32 1)], none⟩ := List.mem_singleton.mp hop
  exact row_typed 1

/-- The round that flushes the update and then compacts the log. -/
def rewrittenFlushed : Engine := (rewritten.flushAll (fun _ _ => true) 0 0).1

theorem rewrittenFlushed_compacts {t : Table} (ht : rewrittenFlushed.tables[0]? = some t) :
    t.CompactsToMirror := by
  obtain rfl := Option.some.inj ht
  refine ⟨?_, .inr ?_, fun a row ha => ?_, ?_⟩
  · unfold DeltaSink.KeysApart
    decide
  · unfold DeltaSink.IndicesFit
    decide
  · obtain ⟨v, hv, rfl⟩ := Option.map_eq_some_iff.mp ha
    have hentry := List.mem_singleton.mp (AList.mem_lookup_iff.mp hv)
    cases hentry
    decide
  · decide

end Sample

theorem reloadedRows_eq_mirrorRows_iff_compacted :
    ∃ t, Sample.rewrittenFlushed.maybeCompact.1.tables[0]? = some t ∧
      t.mirrorRows (0, 2) = some [some (.i32 1)] ∧
      ∀ a, t.sink.reloadedRows .reject t.desc a = t.mirrorRows a := by
  have hrewrites : Sample.rewrittenFlushed.Rewrites 0 := by
    unfold Engine.Rewrites
    decide
  have hflush : Sample.rewritten.flushAll (fun _ _ => true) 0 0 = (Sample.rewrittenFlushed, _, true) :=
    rfl
  have hrun : Mirroring .reject 0 Sample.rewrittenFlushed.maybeCompact.1 ∅ 40 :=
    .rewrite Sample.rewritten_mirroring hflush hrewrites fun _ => Sample.rewrittenFlushed_compacts
  have ht : Sample.rewrittenFlushed.maybeCompact.1.tables[0]? = some _ := rfl
  exact ⟨_, ht, rfl, (reloadedRows_eq_mirrorRows_iff hrun ht rfl).mpr rfl⟩

/-- Before the compaction a restart brings the row back at the address it has left. -/
theorem reload_shows_moved_row :
    Mirroring .reject 0 Sample.rewrittenFlushed {(0, 1)} 40 ∧
      ∃ t, Sample.rewrittenFlushed.tables[0]? = some t ∧ t.pending.rows = [] ∧
        t.sink.reloadedRows .reject t.desc (0, 1) = some [some (.i32 1)] ∧
        t.mirrorRows (0, 1) = none := by
  refine ⟨.flush _ 0 0 Sample.rewritten_mirroring, _, rfl, rfl, ?_, rfl⟩
  decide

end Ltap
