-- SUMMARY: Opening and resuming the tracked tables at process start (`open_tables`, `resume_tables`, `build_engine`).
import OpenLtap.Engine.Remap

/-!
# Startup

A starting process opens one Delta table per discovered descriptor and resumes it
from its watermarks: the dedupe watermark and the mirror come from the Delta log.
A table that changed while the process was down is re-snapshotted, and a table
without watermarks gets its initial snapshot.
-/

namespace Ltap

namespace Table

variable (dec : TupleDecoder)

/-- A table whose process has just opened its sink. -/
def opened (desc : TableDesc) (sink : DeltaSink) : Table :=
  { desc, sink, mirror := ∅, dedupeBelow := 0, pending := .empty, needsResnapshot := false,
    rowsSinceCompaction := 0 }

/-- The `remap_table` call of `resume_tables`, if it makes one: a column with a fast
default was added while the process was down, or the stored filenode is not the live
one. -/
def resumeArgs (t : Table) (restart : Lsn) : Option RemapArgs :=
  let tombstoneLsn := t.dedupeBelow + 1
  if t.sink.schemaAddedColumns && t.desc.hasFastDefaults then
    some { tombstoneLsn, oldFilenode := 0, restartLsn := restart }
  else
    t.sink.resumeState.filenode.bind fun stored =>
      if stored ≠ t.desc.relNode then
        some { tombstoneLsn, oldFilenode := stored, restartLsn := restart }
      else none

/-- Fill in attribute bytes that the change log could not reproduce. -/
def refreshAttrs (mirror : Mirror) (raw : Map Ctid Bytes) : Mirror where
  entries := mirror.entries.map fun e => ⟨e.1, { e.2 with attrs := e.2.attrs.or (raw.lookup e.1) }⟩
  nodupKeys := by
    have h := mirror.nodupKeys
    simp only [List.NodupKeys, List.keys, List.map_map] at h ⊢
    exact h

/-- The table as its watermarks describe it, before any re-snapshot. -/
def resumed (t : Table) (raw : Map Ctid Bytes) : Table :=
  { t with
    dedupeBelow := t.sink.resumeState.commitLsn.getD 0
    mirror := refreshAttrs (t.sink.loadMirror dec t.desc) raw }

/-- First contact with a table: snapshot it, in one Delta commit unless it is empty. -/
def initialSnapshot (t : Table) (s : Snapshot) : Table :=
  let emits := s.rows.mapIdx fun i (ctid, row) =>
    { lsn := s.cutover, seq := i, deleted := false, ctid, row : EmitRow }
  { t with
    mirror := snapshotMirror dec t.desc s
    sink := if s.rows = [] then t.sink
      else t.sink.append emits s.cutover s.cutover t.desc.relNode
    dedupeBelow := s.cutover }

/-- Resume one table, or take its initial snapshot. Returns the table, its restart
candidate, and whether the step succeeded. -/
def resume (t : Table) (env : PgEnv) (cfg : Config) (now : Instant) (oraclePreimages : Bool)
    (ti : Nat) : Table × Option Lsn × Bool :=
  match t.sink.resumeState.restartLsn with
  | some r =>
    match (if oraclePreimages then some ∅ else env.rawAttrs t.desc) with
    | none => (t, none, false)
    | some raw =>
      let t₁ := t.resumed dec raw
      match t₁.resumeArgs r with
      | none => (t₁, some r, true)
      | some args =>
        let (t₂, ok) := t₁.remapTable dec now args (env.snapshot t₁.desc) (env.appendOk ti)
        (t₂, if ok then some r else none, ok)
  | none =>
    let t₁ := { t with dedupeBelow := t.sink.resumeState.commitLsn.getD 0 }
    if cfg.snapshot then
      match env.snapshot t₁.desc with
      | none => (t₁, none, false)
      | some s =>
        if s.rows ≠ [] ∧ ¬ env.appendOk ti .snapshot then (t₁, none, false)
        else (t₁.initialSnapshot dec s, some s.cutover, true)
    else (t₁, none, true)

end Table

variable (dec : TupleDecoder)

/-- The descriptors of the configured tables, or of every table of the public schema. A
configured table has to be readable, a discovered one is skipped. -/
def discoverAll (env : PgEnv) (cfg : Config) : Option (List TableDesc) :=
  let descs : Option (List TableDesc) := match cfg.tables with
    | some names => names.mapM env.discover
    | none => env.listTables.map fun (catalog : List (Oid × String)) =>
      catalog.filterMap fun (_, name) => env.discover name
  descs.filter (· ≠ [])

/-- Open the Delta tables of the discovered descriptors. With auto-discovery an
unopenable one is skipped. -/
def openTables (env : PgEnv) (cfg : Config) : List TableDesc → Option (List Table)
  | [] => some []
  | desc :: descs => do
    let uri := deltaUri cfg.lake desc.name
    match DeltaSink.openOrCreate uri (env.lake uri) desc with
    | .ok sink => return Table.opened desc sink :: (← openTables env cfg descs)
    | .error _ => if cfg.tables = none then openTables env cfg descs else none

/-- Resume the tables in order, collecting the restart candidates. -/
def resumeTables (env : PgEnv) (cfg : Config) (now : Instant) (oraclePreimages : Bool) :
    Nat → List Table → List Table × List Lsn × Bool
  | _, [] => ([], [], true)
  | i, t :: ts =>
    let (t', cand, ok) := t.resume dec env cfg now oraclePreimages i
    if ok then
      let (ts', cands, ok') := resumeTables env cfg now oraclePreimages (i + 1) ts
      (t' :: ts', cand.toList ++ cands, ok')
    else (t' :: ts, cand.toList, false)

/-- Assemble the engine around resumed tables. The resume point is the restart floor
until the first commit. -/
def buildEngine (env : PgEnv) (cfg : Config) (tables : List Table) (lastCommitLsn : Lsn)
    (oracle : Option Oracle) : Option Engine := do
  let first ← tables.head?
  let catalog ← env.catalogFilenodes
  let e : Engine := {
    tables
    relToTable := ∅
    toastRels := ∅
    txbuf := .empty
    toast := .empty
    lastCommitLsn
    catalogRels := catalog.toFinset
    smgrSuspects := ∅
    remapAt := none
    attachFailed := ∅
    tail := .empty
    tailRetain := cfg.tailRetain
    tailMaxRows := cfg.tailMaxRows
    compactRows := cfg.compactRows
    dbOid := first.desc.dbOid
    oracle }
  return e.rebuildRouting

/-! ## What startup leaves -/

section Leaves

variable {dec : TupleDecoder} {env : PgEnv} {cfg : Config} {now : Instant} {oraclePreimages : Bool}

/-- Every table after `resumeTables` was resumed, or was not reached. -/
theorem resumeTables_cases {i k : Nat} {ts : List Table} {t' : Table}
    (h : (resumeTables dec env cfg now oraclePreimages i ts).1[k]? = some t') :
    ∃ t, ts[k]? = some t ∧
      (t' = t ∨ t' = (t.resume dec env cfg now oraclePreimages (i + k)).1) := by
  induction ts generalizing i k with
  | nil => simp [resumeTables] at h
  | cons t ts ih =>
    simp only [resumeTables] at h
    split at h
    · cases k with
      | zero => exact ⟨t, rfl, .inr (by simpa using h.symm)⟩
      | succ k =>
        obtain ⟨u, hu, hcase⟩ := ih (i := i + 1) (k := k) (by simpa using h)
        exact ⟨u, by simpa using hu, by rwa [Nat.add_right_comm, Nat.add_assoc] at hcase⟩
    · cases k with
      | zero => exact ⟨t, rfl, .inr (by simpa using h.symm)⟩
      | succ k => exact ⟨t', by simpa using h, .inl rfl⟩

/-- When all succeeded, every table was resumed and its candidate collected. -/
theorem resumeTables_ok {i k : Nat} {ts ts' : List Table} {cands : List Lsn} {t : Table}
    (h : resumeTables dec env cfg now oraclePreimages i ts = (ts', cands, true))
    (ht : ts[k]? = some t) :
    let res := t.resume dec env cfg now oraclePreimages (i + k)
    ts'[k]? = some res.1 ∧ res.2.2 = true ∧ ∀ r ∈ res.2.1, r ∈ cands := by
  induction ts generalizing i k ts' cands with
  | nil => simp at ht
  | cons u ts ih =>
    simp only [resumeTables] at h
    split at h
    · rename_i hok
      simp only [Prod.mk.injEq] at h
      obtain ⟨rfl, rfl, hok'⟩ := h
      cases k with
      | zero =>
        obtain rfl : u = t := by simpa using ht
        refine ⟨by simp, hok, ?_⟩
        intro r hr
        simp only [Nat.add_zero] at hr
        simp [Option.mem_toList.mpr hr]
      | succ k =>
        have := ih (i := i + 1) (k := k) (Prod.ext rfl (Prod.ext rfl hok')) (by simpa using ht)
        rw [Nat.add_right_comm, Nat.add_assoc] at this
        obtain ⟨hk, hok, hcand⟩ := this
        exact ⟨by simpa using hk, hok, fun r hr => by simp [hcand r hr]⟩
    · simp at h

theorem resumeTables_length (i : Nat) (ts : List Table) :
    (resumeTables dec env cfg now oraclePreimages i ts).1.length = ts.length := by
  induction ts generalizing i with
  | nil => rfl
  | cons t ts ih =>
    simp only [resumeTables]
    split
    · simp [ih]
    · simp

theorem buildEngine_some {tables : List Table} {lastCommitLsn : Lsn} {oracle : Option Oracle}
    {e : Engine} (h : buildEngine env cfg tables lastCommitLsn oracle = some e) :
    e.tables = tables ∧ e.txbuf = .empty ∧ e.lastCommitLsn = lastCommitLsn := by
  simp only [buildEngine, bind, Option.bind_eq_some_iff, pure, Option.some.injEq] at h
  obtain ⟨_, -, _, -, rfl⟩ := h
  exact ⟨rfl, rfl, rfl⟩

end Leaves

/-! ## A small installation -/

namespace Sample

/-- `create table name (id int primary key)`. -/
def desc (name : String) (oid : Oid) : TableDesc where
  name := name
  oid := oid
  dbOid := 5
  relNode := oid
  toastRelNode := none
  cols := [⟨"id", .int4⟩]
  phys := [.live ⟨"id", .int4⟩]
  hasFastDefaults := false
  pk := ["id"]

/-- The sink of a new Delta table for `desc`. -/
def sink (desc : TableDesc) : DeltaSink where
  uri := deltaUri "lake" desc.name
  table := { cols := desc.cols, files := [], watermarks := ⟨none, none, none⟩ }
  arrowSchema := buildArrowSchema (DeltaSink.addColumns 0 desc.cols [])
  deltaCols := DeltaSink.addColumns 0 desc.cols []
  schemaDirty := false

def cfg : Config where
  lake := "lake"
  tables := none
  snapshot := true
  flushRows := 1000
  flushInterval := 0
  tailRetain := 0
  tailMaxRows := 1000
  compactRows := 0

/-- A reachable server with empty tables; every append succeeds. -/
def env (descs : List TableDesc) (cutover : Lsn) : PgEnv where
  catalogFilenodes := some [1249, 1259]
  discoverByOid oid := descs.find? (·.oid = oid)
  listTables := some (descs.map fun d => (d.oid, d.name))
  discover name := descs.find? (·.name = name)
  snapshot _ := some { cutover, rows := [], rawAttrs := ∅ }
  rawAttrs _ := some ∅
  lake _ := none
  appendOk _ _ := true

/-- A server whose tables hold the row `id = 1`. -/
def oneRowEnv (descs : List TableDesc) (cutover : Lsn) : PgEnv :=
  { env descs cutover with
    snapshot := fun _ => some
      ⟨cutover, [((0, 1), [some (.i32 1)])], AList.singleton (0, 1) [1, 0, 0, 0]⟩ }

/-- An engine over freshly opened tables. -/
def engine (descs : List TableDesc) : Engine where
  tables := descs.map fun d => Table.opened d (sink d)
  relToTable := ∅
  toastRels := ∅
  txbuf := .empty
  toast := .empty
  lastCommitLsn := 0
  catalogRels := ∅
  smgrSuspects := ∅
  remapAt := none
  attachFailed := ∅
  tail := .empty
  tailRetain := cfg.tailRetain
  tailMaxRows := cfg.tailMaxRows
  compactRows := cfg.compactRows
  dbOid := 5
  oracle := none

end Sample

end Ltap
