-- SUMMARY: Catalog re-checks: re-snapshotting, schema changes, detaching and attaching tables (`remap_table`, `remap_check`, `attach_table`).
import OpenLtap.Engine.Record

/-!
# Remapping

A DDL-suspect commit makes the engine read the catalog again. A table whose
filenode changed or whose contents are suspect is re-snapshotted by `remapTable`:
everything the mirror holds is tombstoned in one Delta commit and the snapshot is
committed in a second one. What the Postgres endpoint and the object store answer
during one call is an argument, `PgEnv`.
-/

namespace Ltap

/-- `snapshot::take`: the cutover LSN, the rows with their addresses, and the on-page
attribute bytes where they are known. -/
structure Snapshot where
  cutover : Lsn
  rows : List (Ctid × Row)
  rawAttrs : Map Ctid Bytes

/-- The answers of Postgres and the object store during one call. `none` is an error. -/
structure PgEnv where
  catalogFilenodes : Option (List Oid)
  discoverByOid : Oid → Option TableDesc
  listTables : Option (List (Oid × String))
  discover : String → Option TableDesc
  snapshot : TableDesc → Option Snapshot
  rawAttrs : TableDesc → Option (Map Ctid Bytes)
  /-- The Delta table stored at a URI. -/
  lake : String → Option DeltaTable
  appendOk : AppendOk

structure Config where
  lake : String
  /-- Tables to transcode; `none` is every table of the public schema. -/
  tables : Option (List String)
  snapshot : Bool
  flushRows : Nat
  flushInterval : Nat
  tailRetain : Nat
  tailMaxRows : Nat
  compactRows : Nat

/-- `{lake}/{table}`, with trailing slashes of the lake dropped. -/
def deltaUri (lake name : String) : String :=
  String.ofList ((lake.toList.reverse.dropWhile (· = '/')).reverse ++ '/' :: name.toList)

/-! ## Re-snapshotting one table -/

/-- What a caller of `remap_table` passes. -/
structure RemapArgs where
  tombstoneLsn : Lsn
  oldFilenode : Oid
  restartLsn : Lsn
  deriving DecidableEq, Repr

namespace Table

variable (dec : TupleDecoder)

/-- The mirror a snapshot seeds. -/
def snapshotMirror (desc : TableDesc) (s : Snapshot) : Mirror :=
  s.rows.foldl (fun m (ctid, row) =>
    m.insert ctid { row, attrs := (s.rawAttrs.lookup ctid).or (dec.encodeAttrs row desc) }) ∅

/-- Emit a tombstone for everything the mirror holds and empty it. -/
def drainMirror (t : Table) (now : Instant) (tombstoneLsn : Lsn) : Table :=
  { t with
    mirror := ∅
    pending := t.mirror.entries.foldl
      (fun p e => p.emit now tombstoneLsn true e.1 e.2.row) t.pending }

/-- Commit the pending rows, tombstones included, under the old filenode. -/
def appendTombstones (t : Table) (args : RemapArgs) : Table :=
  { t with
    sink := t.sink.append t.pending.rows t.pending.maxCommitLsn args.restartLsn args.oldFilenode
    pending := t.pending.clear }

/-- Change rows of a snapshot, numbered from `seq + 1`. -/
def snapshotRows (seq : Nat) (s : Snapshot) : List EmitRow :=
  s.rows.mapIdx fun i (ctid, row) =>
    { lsn := s.cutover, seq := seq + 1 + i, deleted := false, ctid, row }

/-- Seed the mirror and number the snapshot rows. -/
def takeSnapshot (t : Table) (s : Snapshot) : Table :=
  { t with
    mirror := snapshotMirror dec t.desc s
    pending := { t.pending with seq := t.pending.seq + s.rows.length } }

/-- Commit the snapshot under the live filenode. -/
def appendSnapshot (t : Table) (seq : Nat) (args : RemapArgs) (s : Snapshot) : Table :=
  { t with
    sink := t.sink.append (snapshotRows seq s) s.cutover args.restartLsn t.desc.relNode
    dedupeBelow := s.cutover }

/-- Tombstone everything the mirror holds and re-snapshot the table. The descriptor
is already the fresh one. -/
def remapTable (t : Table) (now : Instant) (args : RemapArgs) (snap : Option Snapshot)
    (ok : AppendSite → Bool) : Table × Bool :=
  let t₁ := t.drainMirror now args.tombstoneLsn
  if t₁.pending.rows ≠ [] ∧ ¬ ok .tombstone then (t₁, false)
  else
    let t₂ := if t₁.pending.rows = [] then t₁ else t₁.appendTombstones args
    match snap with
    | none => (t₂, false)
    | some s =>
      let t₃ := t₂.takeSnapshot dec s
      if ok .snapshot then (t₃.appendSnapshot t₂.pending.seq args s, true) else (t₃, false)

/-! ## Reconciling one table with the catalog -/

/-- Re-shape rows from an old live-column order to a new one, by name. -/
def reshapeRow (oldCols newCols : List Col) (row : Row) : Row :=
  newCols.map fun nc =>
    (oldCols.findIdx? (·.name = nc.name)).bind fun i => (row[i]?).join

def reshapeRows (mirror : Mirror) (oldCols newCols : List Col) : Mirror where
  entries := mirror.entries.map fun e =>
    ⟨e.1, { e.2 with row := reshapeRow oldCols newCols e.2.row }⟩
  nodupKeys := by
    have h := mirror.nodupKeys
    simp only [List.NodupKeys, List.keys, List.map_map] at h ⊢
    exact h

/-- A detached table routes nowhere: 0 is no valid filenode. -/
def detach (t : Table) : Table :=
  { t with desc := { t.desc with relNode := 0, toastRelNode := none } }

def colsChanged (t : Table) (fresh : TableDesc) : Bool := fresh.cols ≠ t.desc.cols

/-- Whether the fresh descriptor asks for a re-snapshot under an unchanged filenode. -/
def wantsResnapshot (t : Table) (fresh : TableDesc) : Bool :=
  t.needsResnapshot ||
    (t.colsChanged fresh && fresh.cols.length > t.desc.cols.length && fresh.hasFastDefaults)

/-- Arguments of the `remap_table` call in `remap_check`. With an unchanged filenode the
tombstones are stamped with filenode 0, so that an interrupted remap shows at startup. -/
def remapCheckArgs (t : Table) (fresh : TableDesc) (ddlLsn restart : Lsn) : RemapArgs :=
  { tombstoneLsn := ddlLsn
    oldFilenode := if fresh.relNode ≠ t.desc.relNode then t.desc.relNode else 0
    restartLsn := restart }

/-- The table under the fresh descriptor, with its mirror in the new column order. -/
def adopt (t : Table) (fresh : TableDesc) : Table × Bool :=
  if t.colsChanged fresh then
    let (sink, ok) := t.sink.evolve fresh.cols
    if ok then
      ({ t with sink, mirror := reshapeRows t.mirror t.desc.cols fresh.cols, desc := fresh }, true)
    else ({ t with sink }, false)
  else ({ t with desc := fresh }, true)

/-- Result of one step of the catalog loop. -/
structure Remapped where
  table : Table
  changed : Bool
  ok : Bool

/-- Reconcile one tracked table with the catalog. -/
def remapStep (t : Table) (env : PgEnv) (now : Instant) (ti : Nat) (ddlLsn restart : Lsn) :
    Remapped :=
  if t.desc.relNode = 0 then { table := t, changed := false, ok := true }
  else
    match env.discoverByOid t.desc.oid with
    | none => { table := t.detach, changed := true, ok := true }
    | some fresh =>
      let remap := decide (fresh.relNode ≠ t.desc.relNode) || t.wantsResnapshot fresh
      if ¬ remap ∧ ¬ t.colsChanged fresh then
        { table := { t with desc := fresh }, changed := false, ok := true }
      else
        let (t₁, adopted) := t.adopt fresh
        if ¬ adopted then { table := t₁.detach, changed := true, ok := true }
        else if remap then
          let (t₂, ok) := t₁.remapTable dec now (t.remapCheckArgs fresh ddlLsn restart)
            (env.snapshot fresh) (env.appendOk ti)
          { table := if ok then { t₂ with needsResnapshot := false } else t₂, changed := true, ok }
        else { table := t₁, changed := true, ok := true }

/-- What one step of the catalog loop can do. -/
inductive RemapStepped (t : Table) (env : PgEnv) (now : Instant) (ti : Nat) (ddlLsn restart : Lsn) :
    Remapped → Prop where
  | detached : t.desc.relNode = 0 → RemapStepped t env now ti ddlLsn restart ⟨t, false, true⟩
  | vanished : t.desc.relNode ≠ 0 → env.discoverByOid t.desc.oid = none →
    RemapStepped t env now ti ddlLsn restart ⟨t.detach, true, true⟩
  | quiet (fresh : TableDesc) : t.desc.relNode ≠ 0 → env.discoverByOid t.desc.oid = some fresh →
    fresh.relNode = t.desc.relNode → t.wantsResnapshot fresh = false →
    t.colsChanged fresh = false →
    RemapStepped t env now ti ddlLsn restart ⟨{ t with desc := fresh }, false, true⟩
  /-- Delta cannot follow the change. -/
  | refused (fresh : TableDesc) (t₁ : Table) : t.desc.relNode ≠ 0 →
    env.discoverByOid t.desc.oid = some fresh → t.adopt fresh = (t₁, false) →
    RemapStepped t env now ti ddlLsn restart ⟨t₁.detach, true, true⟩
  | evolved (fresh : TableDesc) (t₁ : Table) : t.desc.relNode ≠ 0 →
    env.discoverByOid t.desc.oid = some fresh → fresh.relNode = t.desc.relNode →
    t.wantsResnapshot fresh = false → t.colsChanged fresh = true → t.adopt fresh = (t₁, true) →
    RemapStepped t env now ti ddlLsn restart ⟨t₁, true, true⟩
  | remapped (fresh : TableDesc) (t₁ t₂ : Table) : t.desc.relNode ≠ 0 →
    env.discoverByOid t.desc.oid = some fresh →
    (fresh.relNode ≠ t.desc.relNode ∨ t.wantsResnapshot fresh = true) → t.adopt fresh = (t₁, true) →
    t₁.remapTable dec now (t.remapCheckArgs fresh ddlLsn restart) (env.snapshot fresh)
      (env.appendOk ti) = (t₂, true) →
    RemapStepped t env now ti ddlLsn restart ⟨{ t₂ with needsResnapshot := false }, true, true⟩
  | failed (fresh : TableDesc) (t₁ t₂ : Table) : t.desc.relNode ≠ 0 →
    env.discoverByOid t.desc.oid = some fresh →
    (fresh.relNode ≠ t.desc.relNode ∨ t.wantsResnapshot fresh = true) → t.adopt fresh = (t₁, true) →
    t₁.remapTable dec now (t.remapCheckArgs fresh ddlLsn restart) (env.snapshot fresh)
      (env.appendOk ti) = (t₂, false) →
    RemapStepped t env now ti ddlLsn restart ⟨t₂, true, false⟩

theorem remapStep_stepped (t : Table) (env : PgEnv) (now : Instant) (ti : Nat)
    (ddlLsn restart : Lsn) :
    t.RemapStepped dec env now ti ddlLsn restart (t.remapStep dec env now ti ddlLsn restart) := by
  unfold remapStep
  by_cases hnode : t.desc.relNode = 0
  · rw [if_pos hnode]
    exact .detached hnode
  · rw [if_neg hnode]
    cases hfresh : env.discoverByOid t.desc.oid with
    | none => exact .vanished hnode hfresh
    | some fresh =>
      dsimp only
      by_cases hremap : fresh.relNode ≠ t.desc.relNode ∨ t.wantsResnapshot fresh = true
      · have hflag : (decide (fresh.relNode ≠ t.desc.relNode) || t.wantsResnapshot fresh) = true := by
          simpa using hremap
        rw [hflag, if_neg (by simp)]
        cases hadopt : t.adopt fresh with
        | mk t₁ adopted =>
          cases adopted with
          | false => exact .refused fresh t₁ hnode hfresh hadopt
          | true =>
            rw [if_neg (by simp), if_pos rfl]
            cases hcall : t₁.remapTable dec now (t.remapCheckArgs fresh ddlLsn restart)
                (env.snapshot fresh) (env.appendOk ti) with
            | mk t₂ done =>
              cases done with
              | false => exact .failed fresh t₁ t₂ hnode hfresh hremap hadopt hcall
              | true => exact .remapped fresh t₁ t₂ hnode hfresh hremap hadopt hcall
      · obtain ⟨hsame, hwants⟩ : fresh.relNode = t.desc.relNode ∧ t.wantsResnapshot fresh = false := by
          simpa using hremap
        have hflag : (decide (fresh.relNode ≠ t.desc.relNode) || t.wantsResnapshot fresh) = false := by
          simp [hsame, hwants]
        rw [hflag]
        cases hcols : t.colsChanged fresh with
        | false =>
          rw [if_pos (by simp)]
          exact .quiet fresh hnode hfresh hsame hwants hcols
        | true =>
          rw [if_neg (by simp)]
          cases hadopt : t.adopt fresh with
          | mk t₁ adopted =>
            cases adopted with
            | false => exact .refused fresh t₁ hnode hfresh hadopt
            | true => exact .evolved fresh t₁ hnode hfresh hsame hwants hcols hadopt

/-- Bring a table under management mid-stream, at a fresh cutover. -/
def attach (env : PgEnv) (cfg : Config) (ti : Nat) (name : String) : Option Table := do
  let desc ← env.discover name
  let uri := deltaUri cfg.lake desc.name
  let sink ← (DeltaSink.openOrCreate uri (env.lake uri) desc).toOption
  let s ← env.snapshot desc
  let emits := s.rows.mapIdx fun i (ctid, row) =>
    { lsn := s.cutover, seq := i, deleted := false, ctid, row : EmitRow }
  if env.appendOk ti .snapshot then
    return {
      desc
      sink := sink.append emits s.cutover s.cutover desc.relNode
      mirror := snapshotMirror dec desc s
      dedupeBelow := s.cutover
      pending := .empty
      needsResnapshot := false
      rowsSinceCompaction := 0 }
  else none

end Table

/-! ## The catalog check -/

/-- Step through the tables from index `i` on, up to the first failure. -/
def remapTables (dec : TupleDecoder) (env : PgEnv) (now : Instant) (ddlLsn restart : Lsn) :
    Nat → List Table → List Table × Bool × Bool
  | _, [] => ([], false, true)
  | i, t :: ts =>
    let r := t.remapStep dec env now i ddlLsn restart
    if r.ok then
      let (ts', changed, ok) := remapTables dec env now ddlLsn restart (i + 1) ts
      (r.table :: ts', r.changed || changed, ok)
    else (r.table :: ts, r.changed, false)

/-- Catalog entries that auto-attach should try: untracked oids whose name has not failed. -/
def tablesToAttach (tracked : Finset Oid) (attachFailed : Finset String)
    (catalog : List (Oid × String)) : List (Oid × String) :=
  catalog.filter fun (oid, name) => oid ∉ tracked ∧ name ∉ attachFailed

namespace Engine

variable (dec : TupleDecoder)

def rebuildRouting (e : Engine) : Engine :=
  { e with
    relToTable := e.tables.zipIdx.foldl (fun m (t, i) => m.insert t.desc.relNode i) ∅
    toastRels := (e.tables.filterMap (·.desc.toastRelNode)).toFinset }

/-- Attach one new table; a failure is remembered under its name. -/
def attachOne (env : PgEnv) (cfg : Config) (e : Engine) (name : String) : Engine :=
  match Table.attach dec env cfg e.tables.length name with
  | some t => { e with tables := e.tables ++ [t] }
  | none => { e with attachFailed := insert name e.attachFailed }

/-- In auto mode, attach the tables created since the last check. -/
def attachNew (env : PgEnv) (cfg : Config) (e : Engine) : Engine :=
  match cfg.tables, env.listTables with
  | none, some catalog =>
    let tracked := (e.tables.map (·.desc.oid)).toFinset
    (tablesToAttach tracked e.attachFailed catalog).foldl
      (fun e (_, name) => e.attachOne dec env cfg name) e
  | _, _ => e

/-- Re-read the catalog and reconcile every tracked table. -/
def remapCheck (e : Engine) (env : PgEnv) (cfg : Config) (now : Instant) (ddlLsn : Lsn)
    (persistedRestart : Lsn) : Engine × Lsn × Bool :=
  -- Everything pending was decoded under the old schema and is made durable first.
  let (e₁, persisted, flushed) := e.flushAll env.appendOk now persistedRestart
  if ¬ flushed then (e₁, persisted, false)
  else
    let e₂ := match env.catalogFilenodes with
      | some nodes => { e₁ with catalogRels := nodes.toFinset }
      | none => e₁
    let (tables, changed, ok) := remapTables dec env now ddlLsn e₂.restartLsn 0 e₂.tables
    let e₃ := { e₂ with tables }
    if ¬ ok then (e₃, persisted, false)
    else
      let e₄ := e₃.attachNew dec env cfg
      let attached := e₃.tables.length < e₄.tables.length
      (if changed || attached then e₄.rebuildRouting else e₄, persisted, true)

/-- A catalog check flushes, steps through the tables, and attaches new ones. -/
theorem remapCheck_spec {dec : TupleDecoder} {e e' : Engine} {env : PgEnv} {cfg : Config}
    {now : Instant} {ddlLsn persisted persisted' : Lsn} {ok : Bool}
    (h : e.remapCheck dec env cfg now ddlLsn persisted = (e', persisted', ok)) :
    ∃ e₁ flushed, e.flushAll env.appendOk now persisted = (e₁, persisted', flushed) ∧
      (flushed = false ∧ ok = false ∧ e' = e₁ ∨
       flushed = true ∧ ∃ catalogRels tables changed done,
        remapTables dec env now ddlLsn e₁.restartLsn 0 e₁.tables = (tables, changed, done) ∧
        (done = false ∧ ok = false ∧ e' = { e₁ with catalogRels, tables } ∨
         done = true ∧ ok = true ∧ ∃ e₂, e₂ = { e₁ with catalogRels, tables }.attachNew dec env cfg ∧
          e' = if changed || decide (tables.length < e₂.tables.length) then e₂.rebuildRouting
            else e₂)) := by
  simp only [remapCheck] at h
  generalize hflush : e.flushAll env.appendOk now persisted = res at h
  obtain ⟨e₁, persisted₁, flushed⟩ := res
  split at h
  · rename_i hfailed
    simp only [Prod.mk.injEq] at h
    obtain ⟨rfl, rfl, rfl⟩ := h
    exact ⟨e₁, flushed, rfl, .inl ⟨by simpa using hfailed, rfl, rfl⟩⟩
  · rename_i hflushed
    obtain ⟨nodes, hnodes⟩ : ∃ catalogRels, (match env.catalogFilenodes with
        | some nodes => { e₁ with catalogRels := nodes.toFinset }
        | none => e₁) = { e₁ with catalogRels } := by
      split
      · exact ⟨_, rfl⟩
      · exact ⟨e₁.catalogRels, rfl⟩
    simp only [hnodes] at h
    generalize htables : remapTables dec env now ddlLsn _ 0 e₁.tables = res at h
    obtain ⟨tables, changed, done⟩ := res
    split at h
    · rename_i hfailed
      simp only [Prod.mk.injEq] at h
      obtain ⟨rfl, rfl, rfl⟩ := h
      exact ⟨e₁, flushed, rfl, .inr ⟨by simpa using hflushed, nodes, tables, changed, done, htables,
        .inl ⟨by simpa using hfailed, rfl, rfl⟩⟩⟩
    · rename_i hdone
      simp only [Prod.mk.injEq] at h
      obtain ⟨rfl, rfl, rfl⟩ := h
      exact ⟨e₁, flushed, rfl, .inr ⟨by simpa using hflushed, nodes, tables, changed, done, htables,
        .inr ⟨by simpa using hdone, rfl, _, rfl, rfl⟩⟩⟩

/-- The same without the condition of the rebuild. -/
theorem remapCheck_cases {dec : TupleDecoder} {e e' : Engine} {env : PgEnv} {cfg : Config}
    {now : Instant} {ddlLsn persisted persisted' : Lsn} {ok : Bool}
    (h : e.remapCheck dec env cfg now ddlLsn persisted = (e', persisted', ok)) :
    ∃ e₁ flushed, e.flushAll env.appendOk now persisted = (e₁, persisted', flushed) ∧
      (flushed = false ∧ ok = false ∧ e' = e₁ ∨
       flushed = true ∧ ∃ catalogRels tables changed done,
        remapTables dec env now ddlLsn e₁.restartLsn 0 e₁.tables = (tables, changed, done) ∧
        (done = false ∧ ok = false ∧ e' = { e₁ with catalogRels, tables } ∨
         done = true ∧ ok = true ∧ ∃ e₂, e₂ = { e₁ with catalogRels, tables }.attachNew dec env cfg ∧
          (e' = e₂ ∨ e' = e₂.rebuildRouting))) := by
  obtain ⟨e₁, flushed, hflush, hfailed | ⟨hflushed, nodes, tables, changed, done, htables, hcase⟩⟩ :=
    remapCheck_spec h
  · exact ⟨e₁, flushed, hflush, .inl hfailed⟩
  · refine ⟨e₁, flushed, hflush, .inr ⟨hflushed, nodes, tables, changed, done, htables, ?_⟩⟩
    refine hcase.imp_right fun ⟨hdone, hok, e₂, he₂, he'⟩ => ⟨hdone, hok, e₂, he₂, ?_⟩
    split at he'
    · exact .inr he'
    · exact .inl he'

end Engine

end Ltap
