-- SUMMARY: When a completed re-snapshot makes the lake equal to the snapshot.
import OpenLtap.Engine.Reached
import OpenLtap.Resnapshot.RemapTable

/-!
# Complete re-snapshots

Readers take the newest row of every primary key and drop tombstones. A re-snapshot
tombstones what the mirror holds and appends the snapshot, so what readers see afterwards
depends on how the tombstones compare with the rows already logged, and the snapshot with
both. The tombstone LSN of most callers is one above the dedupe watermark, which does not
move while rows are streamed.
-/

namespace Ltap

def Snapshot.rowSet (s : Snapshot) : Set Row := { row | ∃ ctid, (ctid, row) ∈ s.rows }

/-- A snapshot of a table with a primary key: rows of the column types, each with its own
key. -/
structure Snapshot.Of (s : Snapshot) (desc : TableDesc) : Prop where
  typed : ∀ r ∈ s.rows, r.2.Typed desc.cols
  keys : (s.rows.map fun r => desc.keyOf r.2).Nodup

namespace Table

/-! ## What readers see -/

/-- The newest row of a key in the change log, unless it is a tombstone. -/
def visibleRow (t : Table) (k : List (Option Value)) : Option Row :=
  LatestPerKey.live (fun e => t.desc.keyOf e.row) EmitRow.version (·.deleted) (·.row) k
    (t.sink.readLog t.desc)

def visibleRows (t : Table) : Set Row := { row | ∃ k, t.visibleRow k = some row }

theorem keyOf_of_visibleRow {t : Table} {k : List (Option Value)} {row : Row}
    (h : t.visibleRow k = some row) : t.desc.keyOf row = k := by
  obtain ⟨e, -, hk, rfl⟩ := LatestPerKey.live_mem _ _ h
  exact hk

/-- The visible rows are those of a snapshot if and only if they are, key by key. -/
theorem visibleRows_eq_iff {t : Table} {s : Snapshot} :
    t.visibleRows = s.rowSet ↔
      (∀ r ∈ s.rows, t.visibleRow (t.desc.keyOf r.2) = some r.2) ∧
        ∀ k, (∀ r ∈ s.rows, t.desc.keyOf r.2 ≠ k) → t.visibleRow k = none := by
  constructor
  · intro heq
    refine ⟨fun r hr => ?_, fun k hk => ?_⟩
    · obtain ⟨k, hvis⟩ := (Set.ext_iff.mp heq r.2).mpr ⟨r.1, hr⟩
      rwa [keyOf_of_visibleRow hvis]
    · refine Option.eq_none_iff_forall_ne_some.mpr fun row hvis => ?_
      obtain ⟨ctid, hmem⟩ := (Set.ext_iff.mp heq row).mp ⟨k, hvis⟩
      exact hk _ hmem (keyOf_of_visibleRow hvis)
  · rintro ⟨hin, hout⟩
    ext row
    constructor
    · rintro ⟨k, hvis⟩
      by_cases hk : ∃ r ∈ s.rows, t.desc.keyOf r.2 = k
      · obtain ⟨r, hr, rfl⟩ := hk
        obtain rfl := Option.some.inj ((hin r hr).symm.trans hvis)
        exact ⟨r.1, hr⟩
      · simp only [not_exists, not_and] at hk
        rw [hout k hk] at hvis
        cases hvis
    · rintro ⟨ctid, hmem⟩
      exact ⟨_, hin _ hmem⟩

/-! ## The state before the call -/

/-- The change log and the pending rows, as readers will see them. -/
def readEmitted (t : Table) : List EmitRow :=
  t.sink.readLog t.desc ++ t.pending.rows.map (t.sink.storedRow t.desc)

/-- The newest row of a key, logged or pending. -/
def newest (t : Table) (k : List (Option Value)) : Option EmitRow :=
  LatestPerKey.latest (fun e => t.desc.keyOf e.row) EmitRow.version k t.readEmitted

/-- The key under which a row is stored. -/
def storedKey (t : Table) (row : Row) : List (Option Value) :=
  t.desc.keyOf (t.sink.stored t.desc row)

/-- The version of the tombstone for the mirror's row `i`. -/
def tombstoneVersion (t : Table) (lsn : Lsn) (i : Nat) : Lsn ×ₗ Nat :=
  toLex (lsn, t.pending.seq + 1 + i)

/-- The version of row `j` of a snapshot. -/
def snapshotVersion (t : Table) (s : Snapshot) (j : Nat) : Lsn ×ₗ Nat :=
  toLex (s.cutover, t.pending.seq + t.mirror.entries.length + 1 + j)

/-- Tombstones at this LSN hide the key: it is not live, or a mirror row with that key gets a
tombstone newer than its newest row. -/
def Hides (t : Table) (tombstoneLsn : Lsn) (k : List (Option Value)) : Prop :=
  ∀ e, t.newest k = some e → e.deleted = true ∨ ∃ i v, t.mirror.entries[i]? = some v ∧
    t.storedKey v.2.row = k ∧ e.version < t.tombstoneVersion tombstoneLsn i

/-- Row `j` of the snapshot shows: it is newer than the tombstones and the newest row of its
key, or that newest row is a live copy of it that neither of them beats. -/
def Shows (t : Table) (tombstoneLsn : Lsn) (s : Snapshot) (j : Nat) (row : Row) : Prop :=
  ((∃ v ∈ t.mirror.entries, t.storedKey v.2.row = t.desc.keyOf row) → tombstoneLsn ≤ s.cutover) ∧
    (∀ e, t.newest (t.desc.keyOf row) = some e → e.version < t.snapshotVersion s j) ∨
  ∃ e, t.newest (t.desc.keyOf row) = some e ∧ e.deleted = false ∧ e.row = row ∧
    t.snapshotVersion s j ≤ e.version ∧
    ∀ i v, t.mirror.entries[i]? = some v → t.storedKey v.2.row = t.desc.keyOf row →
      t.tombstoneVersion tombstoneLsn i ≤ e.version

/-- The re-snapshot overwrites what readers see: the tombstones hide every key that the
snapshot lacks, and every row of the snapshot shows. -/
structure Overwrites (t : Table) (tombstoneLsn : Lsn) (s : Snapshot) : Prop where
  hides : ∀ k, (∀ r ∈ s.rows, t.desc.keyOf r.2 ≠ k) → t.Hides tombstoneLsn k
  shows : ∀ j r, s.rows[j]? = some r → t.Shows tombstoneLsn s j r.2

theorem tombstoneVersion_lt_iff {t : Table} {lsn : Lsn} {s : Snapshot} {i j : Nat}
    (hi : i < t.mirror.entries.length) :
    t.tombstoneVersion lsn i < t.snapshotVersion s j ↔ lsn ≤ s.cutover := by
  have hseq : t.pending.seq + 1 + i < t.pending.seq + t.mirror.entries.length + 1 + j := by
    omega
  simp only [tombstoneVersion, snapshotVersion, Prod.Lex.toLex_lt_toLex]
  constructor
  · rintro (hlt | ⟨heq, -⟩)
    · exact le_of_lt hlt
    · exact le_of_eq heq
  · intro hle
    rcases lt_or_eq_of_le hle with hlt | heq
    · exact .inl hlt
    · exact .inr ⟨heq, hseq⟩

theorem mem_storedTombstones {t : Table} {lsn : Lsn} {x : EmitRow} :
    x ∈ (t.tombstones lsn).map (t.sink.storedRow t.desc) ↔
      ∃ i v, t.mirror.entries[i]? = some v ∧
        x = ⟨lsn, t.pending.seq + 1 + i, true, v.1, t.sink.stored t.desc v.2.row⟩ := by
  rw [List.mem_map]
  constructor
  · rintro ⟨y, hy, rfl⟩
    obtain ⟨i, hi⟩ := List.getElem?_of_mem hy
    rw [tombstones, List.getElem?_mapIdx] at hi
    obtain ⟨v, hv, rfl⟩ := Option.map_eq_some_iff.mp hi
    exact ⟨i, v, hv, rfl⟩
  · rintro ⟨i, v, hv, rfl⟩
    refine ⟨⟨lsn, t.pending.seq + 1 + i, true, v.1, v.2.row⟩, List.mem_of_getElem? (i := i) ?_, rfl⟩
    rw [tombstones, List.getElem?_mapIdx, hv]
    rfl

/-- The rows of a snapshot read back as they are. -/
theorem mem_storedSnapshot {t : Table} {s : Snapshot} {seq : Nat} {x : EmitRow}
    (ht : t.sink.Matches t.desc.cols) (hs : s.Of t.desc) :
    x ∈ (snapshotRows seq s).map (t.sink.storedRow t.desc) ↔
      ∃ j r, s.rows[j]? = some r ∧ x = ⟨s.cutover, seq + 1 + j, false, r.1, r.2⟩ := by
  have hstored : ∀ r ∈ s.rows, t.sink.stored t.desc r.2 = r.2 :=
    fun r hr => DeltaSink.stored_eq ht (hs.typed r hr)
  rw [List.mem_map]
  constructor
  · rintro ⟨y, hy, rfl⟩
    obtain ⟨j, hj⟩ := List.getElem?_of_mem hy
    rw [snapshotRows, List.getElem?_mapIdx] at hj
    obtain ⟨r, hr, rfl⟩ := Option.map_eq_some_iff.mp hj
    refine ⟨j, r, hr, ?_⟩
    rw [DeltaSink.storedRow, hstored r (List.mem_of_getElem? hr)]
  · rintro ⟨j, r, hr, rfl⟩
    refine ⟨⟨s.cutover, seq + 1 + j, false, r.1, r.2⟩, List.mem_of_getElem? (i := j) ?_, ?_⟩
    · rw [snapshotRows, List.getElem?_mapIdx, hr]
      rfl
    · rw [DeltaSink.storedRow, hstored r (List.mem_of_getElem? hr)]

/-! ## The state after the call -/

/-- Tombstones above everything that was emitted and not above the cutover do it, as long as
every live key has its row in the mirror. -/
theorem overwrites_of_lsns {t : Table} {tombstoneLsn : Lsn} {s : Snapshot}
    (hlsn : ∀ e ∈ t.readEmitted, e.lsn < tombstoneLsn) (hcut : tombstoneLsn ≤ s.cutover)
    (hmirror : ∀ k e, t.newest k = some e → e.deleted = false →
      ∃ v ∈ t.mirror.entries, t.storedKey v.2.row = k) : t.Overwrites tombstoneLsn s := by
  have hnewest : ∀ k e, t.newest k = some e → e.lsn < tombstoneLsn := fun k e he =>
    hlsn e (LatestPerKey.latest_mem _ _ he).1
  constructor
  · intro k _ e he
    by_cases hd : e.deleted = true
    · exact .inl hd
    · obtain ⟨v, hv, hkv⟩ := hmirror k e he (by simpa using hd)
      obtain ⟨i, hi⟩ := List.getElem?_of_mem hv
      exact .inr ⟨i, v, hi, hkv, Prod.Lex.toLex_lt_toLex.mpr (.inl (hnewest k e he))⟩
  · intro j r _
    refine .inl ⟨fun _ => hcut, fun e he => Prod.Lex.toLex_lt_toLex.mpr (.inl ?_)⟩
    exact lt_of_lt_of_le (hnewest _ e he) hcut

namespace Resnapshotted

variable {dec : TupleDecoder} {t t' : Table} {args : RemapArgs} {s : Snapshot}

theorem readLog_eq (h : t.Resnapshotted dec args s t') :
    t'.sink.readLog t'.desc = t.readEmitted ++
      (t.tombstones args.tombstoneLsn).map (t.sink.storedRow t.desc) ++
      (snapshotRows (t.pending.seq + t.mirror.entries.length) s).map
        (t.sink.storedRow t.desc) := by
  rw [h.desc, h.readLog, readEmitted, List.map_append]
  simp only [List.append_assoc]

theorem tombstones_deleted (t : Table) (lsn : Lsn) :
    ∀ x ∈ (t.tombstones lsn).map (t.sink.storedRow t.desc), x.deleted = true := by
  intro x hx
  obtain ⟨i, v, -, rfl⟩ := mem_storedTombstones.mp hx
  rfl

/-- On a key that the snapshot lacks only the tombstones may change what readers see. -/
theorem visibleRow_eq_none_iff (h : t.Resnapshotted dec args s t')
    (ht : t.sink.Matches t.desc.cols) (hs : s.Of t.desc) {k : List (Option Value)}
    (hk : ∀ r ∈ s.rows, t.desc.keyOf r.2 ≠ k) :
    t'.visibleRow k = none ↔ t.Hides args.tombstoneLsn k := by
  have hother : ∀ x ∈ (snapshotRows (t.pending.seq + t.mirror.entries.length) s).map
      (t.sink.storedRow t.desc), t.desc.keyOf x.row ≠ k := by
    intro x hx
    obtain ⟨j, r, hr, rfl⟩ := (mem_storedSnapshot ht hs).mp hx
    exact hk r (List.mem_of_getElem? hr)
  rw [visibleRow, h.readLog_eq, h.desc, LatestPerKey.live,
    LatestPerKey.latest_append_of_ne _ _ hother, ← LatestPerKey.live,
    LatestPerKey.live_append_dead_iff _ _ (tombstones_deleted t _)]
  refine forall₂_congr fun e _ => or_congr_right ?_
  constructor
  · rintro ⟨x, hx, hkx, hlt⟩
    obtain ⟨i, v, hv, rfl⟩ := mem_storedTombstones.mp hx
    exact ⟨i, v, hv, hkx, hlt⟩
  · rintro ⟨i, v, hv, hkv, hlt⟩
    exact ⟨_, mem_storedTombstones.mpr ⟨i, v, hv, rfl⟩, hkv, hlt⟩

theorem visibleRow_eq_some_iff (h : t.Resnapshotted dec args s t')
    (ht : t.sink.Matches t.desc.cols) (hs : s.Of t.desc) {j : Nat} {r : Ctid × Row}
    (hr : s.rows[j]? = some r) :
    t'.visibleRow (t.desc.keyOf r.2) = some r.2 ↔ t.Shows args.tombstoneLsn s j r.2 := by
  have honly : ∀ x ∈ (snapshotRows (t.pending.seq + t.mirror.entries.length) s).map
      (t.sink.storedRow t.desc), t.desc.keyOf x.row = t.desc.keyOf r.2 →
      x = ⟨s.cutover, t.pending.seq + t.mirror.entries.length + 1 + j, false, r.1, r.2⟩ := by
    intro x hx hkx
    obtain ⟨j', r', hr', rfl⟩ := (mem_storedSnapshot ht hs).mp hx
    have hj : j' < s.rows.length := (List.getElem?_eq_some_iff.mp hr').1
    obtain rfl : j' = j :=
      (List.getElem?_inj (by simpa using hj) hs.keys).mp (by simp [hr, hr', hkx])
    rw [Option.some.inj (hr.symm.trans hr')]
  rw [visibleRow, h.readLog_eq, h.desc]
  refine (LatestPerKey.live_replaced_iff _ _ (tombstones_deleted t _)
    ((mem_storedSnapshot ht hs).mpr ⟨j, r, hr, rfl⟩) rfl honly rfl).trans
    (or_congr (and_congr_left' ?_) ?_)
  · constructor
    · rintro hlt ⟨v, hv, hkv⟩
      obtain ⟨i, hi⟩ := List.getElem?_of_mem hv
      have := hlt _ (mem_storedTombstones.mpr ⟨i, v, hi, rfl⟩) hkv
      exact (tombstoneVersion_lt_iff (List.getElem?_eq_some_iff.mp hi).1).mp this
    · intro hle x hx hkx
      obtain ⟨i, v, hi, rfl⟩ := mem_storedTombstones.mp hx
      exact (tombstoneVersion_lt_iff (List.getElem?_eq_some_iff.mp hi).1).mpr
        (hle ⟨v, List.mem_of_getElem? hi, hkx⟩)
  · refine exists_congr fun e => and_congr_right fun _ => and_congr_right fun _ =>
      and_congr_right fun _ => and_congr_right fun _ => ?_
    constructor
    · intro hle i v hv hkv
      exact hle _ (mem_storedTombstones.mpr ⟨i, v, hv, rfl⟩) hkv
    · intro hle x hx hkx
      obtain ⟨i, v, hv, rfl⟩ := mem_storedTombstones.mp hx
      exact hle i v hv hkx

theorem visibleRows_eq_rowSet_iff (h : t.Resnapshotted dec args s t')
    (ht : t.sink.Matches t.desc.cols) (hs : s.Of t.desc) :
    t'.visibleRows = s.rowSet ↔ t.Overwrites args.tombstoneLsn s := by
  rw [visibleRows_eq_iff, h.desc]
  constructor
  · rintro ⟨hin, hout⟩
    exact ⟨fun k hk => (h.visibleRow_eq_none_iff ht hs hk).mp (hout k hk),
      fun j r hr => (h.visibleRow_eq_some_iff ht hs hr).mp (hin r (List.mem_of_getElem? hr))⟩
  · intro hover
    refine ⟨fun r hr => ?_, fun k hk => (h.visibleRow_eq_none_iff ht hs hk).mpr (hover.hides k hk)⟩
    obtain ⟨j, hj⟩ := List.getElem?_of_mem hr
    exact (h.visibleRow_eq_some_iff ht hs hj).mpr (hover.shows j r hj)

end Resnapshotted

end Table

/-! ## Every caller -/

theorem RemapCall.Made.matches {call : RemapCall} {t : Table} {args : RemapArgs}
    (h : call.Made t args) (hcols : call.table.sink.Matches call.table.desc.cols)
    (hdesc : t.desc.WellFormed) : t.sink.Matches t.desc.cols := by
  cases call with
  | remapCheck u fresh ddlLsn restart =>
    obtain ⟨-, hadopt, -⟩ := h
    have hfresh : t.desc = fresh := by
      have := (u.adopt_spec fresh).2.2.1
      rw [hadopt] at this
      exact this rfl
    exact (Table.adopt_matches (hfresh ▸ hdesc) hcols hadopt).1
  | resume u restart | gapCheck u firstLsn | resnapshotAll u =>
    obtain ⟨rfl, -⟩ := h
    exact hcols

/-- After a re-snapshot that returned `Ok` readers see exactly the snapshot if and only if
it overwrites what they saw before. This is for any caller and any reachable state of an
attached table. -/
theorem visibleRows_eq_snapshot_iff {dec : TupleDecoder} {call : RemapCall} {t t' : Table}
    {args : RemapArgs} {s : Snapshot} {now : Instant} {ok : AppendSite → Bool}
    (hreached : call.table.Reached dec) (hattached : call.table.desc.relNode ≠ 0)
    (hmade : call.Made t args) (hdesc : t.desc.WellFormed) (hs : s.Of t.desc)
    (hok : t.remapTable dec now args (some s) ok = (t', true)) :
    t'.visibleRows = s.rowSet ↔ t.Overwrites call.tombstoneLsn s := by
  have hcols := hmade.matches (hreached.columnsMatch.2.resolve_left hattached) hdesc
  obtain ⟨s', hsnap, hresnap⟩ := Table.remapTable_ok hok
  obtain rfl := Option.some.inj hsnap
  rw [← hmade.tombstoneLsn_eq]
  exact hresnap.visibleRows_eq_rowSet_iff hcols hs

/-! ## A gap and a loss -/

namespace Sample

theorem oneRow_reached : oneRow.Reached .reject := by
  have hopened : (Table.opened (desc "t" 16384) (sink (desc "t" 16384))).Reached .reject := by
    have hopen : openTables (env [desc "t" 16384] 100) cfg [desc "t" 16384] =
        some [Table.opened (desc "t" 16384) (sink (desc "t" 16384))] := rfl
    exact .opened hopen List.mem_cons_self (by simp [TableDesc.WellFormed, Table.opened, desc])
  exact hopened.resume (oneRowEnv [desc "t" 16384] 100) cfg 0 true 0

/-- A later snapshot, with `id = 2` instead. -/
def atThreeHundred : Snapshot := ⟨300, [((0, 2), [some (.i32 2)])], ∅⟩

theorem atThreeHundred_of : atThreeHundred.Of oneRow.desc := by
  refine ⟨fun r hr => ⟨?_, fun i c v hc hv => ?_⟩, List.nodup_singleton _⟩
  · obtain rfl := List.mem_singleton.mp hr
    rfl
  · obtain rfl := List.mem_singleton.mp hr
    cases i with
    | zero =>
      obtain rfl := Option.some.inj hc
      obtain rfl := Option.some.inj (Option.some.inj hv)
      rfl
    | succ i => simp at hv

/-- Decodes tuples of one int4 column without NULLs. -/
def int4 : TupleDecoder :=
  { TupleDecoder.reject with
    decodeInsertTuple := fun data _ _ _ =>
      match data.drop 6 with
      | [a, b, c, d] => .ok ([some (.i32 (fromLe [a, b, c, d]))], [a, b, c, d])
      | _ => .error (.other "rejected") }

/-- The embedded driver after a first start with an empty table at 100. -/
def embedded : EmbedState := ⟨(started [desc "t" 16384] 100).engine, 100, none⟩

/-- Transaction 7 inserts `id = 1` at (0,1). -/
def insertRecord : Bytes :=
  [59, 0, 0, 0, 7, 0, 0, 0, 0, 0, 0, 0, 0, 0, 0, 0, 0, 10, 0, 0, 145, 53, 132, 39, 0, 32, 10, 0, 127,
    6, 0, 0, 5, 0, 0, 0, 0, 64, 0, 0, 0, 0, 0, 0, 255, 3, 1, 0, 0, 8, 24, 0, 1, 0, 0, 0, 1, 0, 0]

/-- The source starts at 90; the insert commits at 150. -/
def insertAt150 : List EmbedState.Turn :=
  [⟨env [desc "t" 16384] 100, 0, .event (.progress 90)⟩,
    ⟨env [desc "t" 16384] 100, 0, .event (.raw 140 insertRecord)⟩,
    ⟨env [desc "t" 16384] 100, 0, .event (.commit 150 7 [])⟩]

def beforeLoss : EmbedState := (embedded.run int4 cfg insertAt150).getD embedded

/-- The table is empty at 200. -/
def afterLoss : EmbedState × Bool :=
  beforeLoss.step int4 (env [desc "t" 16384] 200) cfg 0 (.event (.lost 1))

end Sample

/-- The row is deleted and another inserted while nobody follows; the gap check puts it
right. -/
theorem visibleRows_eq_snapshot_iff_gap :
    ∃ t', Sample.oneRow.remapTable .reject 0 Sample.gapArgs (some Sample.atThreeHundred)
        (fun _ => true) = (t', true) ∧ t'.visibleRows = Sample.atThreeHundred.rowSet := by
  have hmade : (RemapCall.gapCheck Sample.oneRow 200).Made Sample.oneRow Sample.gapArgs :=
    ⟨rfl, rfl⟩
  have hdesc : Sample.oneRow.desc.WellFormed := by
    simp [TableDesc.WellFormed, Sample.oneRow, Table.initialSnapshot, Table.opened, Sample.desc]
  have hok : Sample.oneRow.remapTable .reject 0 Sample.gapArgs (some Sample.atThreeHundred)
      (fun _ => true) = (_, true) := rfl
  have hread : Sample.oneRow.readEmitted = [⟨100, 0, false, (0, 1), [some (.i32 1)]⟩] := by
    decide
  refine ⟨_, hok, (visibleRows_eq_snapshot_iff Sample.oneRow_reached (by decide) hmade hdesc
    Sample.atThreeHundred_of hok).mpr (Table.overwrites_of_lsns (by decide) (by decide) ?_)⟩
  intro k e he _
  obtain ⟨hmem, rfl⟩ := LatestPerKey.latest_mem _ _ he
  rw [hread, List.mem_singleton] at hmem
  subst hmem
  exact ⟨⟨(0, 1), ⟨[some (.i32 1)], some [1, 0, 0, 0]⟩⟩, by decide, by decide⟩

/-- Row 1 is committed at 150, and its deletion is among lost records. The tombstone has the
LSN 101, so readers still see the row, although the snapshot at 200 is empty. -/
theorem lost_resnapshot_keeps_deleted_row :
    ∃ s s' t t', Sample.embedded.run Sample.int4 Sample.cfg Sample.insertAt150 = some s ∧
      s.step Sample.int4 (Sample.env [Sample.desc "t" 16384] 200) Sample.cfg 0
        (.event (.lost 1)) = (s', true) ∧
      s.engine.tables = [t] ∧ s'.engine.tables = [t'] ∧
      (∀ e ∈ t.sink.log ++ t.pending.rows, e.lsn ≤ 200) ∧ t.dedupeBelow ≤ 200 ∧
      (Sample.env [Sample.desc "t" 16384] 200).snapshot t.desc = some ⟨200, [], ∅⟩ ∧
      t'.visibleRows ≠ (⟨200, [], ∅⟩ : Snapshot).rowSet := by
  have hrun : Sample.embedded.run Sample.int4 Sample.cfg Sample.insertAt150 =
      some Sample.beforeLoss := by
    have hsome : (Sample.embedded.run Sample.int4 Sample.cfg Sample.insertAt150).isSome := by
      decide +kernel
    obtain ⟨s, hs⟩ := Option.isSome_iff_exists.mp hsome
    rw [Sample.beforeLoss, hs, Option.getD_some]
  have hstep : Sample.beforeLoss.step Sample.int4 (Sample.env [Sample.desc "t" 16384] 200)
      Sample.cfg 0 (.event (.lost 1)) = (Sample.afterLoss.1, true) := by
    have hok : Sample.afterLoss.2 = true := by decide +kernel
    change Sample.afterLoss = (Sample.afterLoss.1, true)
    rw [← hok]
  obtain ⟨t, ht⟩ : ∃ t, Sample.beforeLoss.engine.tables = [t] :=
    List.length_eq_one_iff.mp (by decide +kernel)
  obtain ⟨t', ht'⟩ : ∃ t', Sample.afterLoss.1.engine.tables = [t'] :=
    List.length_eq_one_iff.mp (by decide +kernel)
  have hlsns : ∀ t ∈ Sample.beforeLoss.engine.tables,
      (∀ e ∈ t.sink.log ++ t.pending.rows, e.lsn ≤ 200) ∧ t.dedupeBelow ≤ 200 := by
    decide +kernel
  have hvisible : Sample.afterLoss.1.engine.tables.map (·.visibleRow [some (.i32 1)]) =
      [some [some (.i32 1)]] := by
    decide +kernel
  rw [ht', List.map_singleton, List.singleton_inj] at hvisible
  obtain ⟨hlog, hded⟩ := hlsns t (by simp [ht])
  refine ⟨_, _, t, t', hrun, hstep, ht, ht', hlog, hded, rfl, fun heq => ?_⟩
  obtain ⟨ctid, hmem⟩ := (Set.ext_iff.mp heq _).mp ⟨_, hvisible⟩
  cases hmem

end Ltap
