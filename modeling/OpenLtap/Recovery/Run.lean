-- SUMMARY: Runs of the engine over one WAL stream with flush rounds, crashes, and restarts.
import Mathlib.Logic.Relation
import OpenLtap.Engine.Startup
import OpenLtap.Recovery.Emission

/-!
# Runs with crashes

One WAL stream, read by a process that may die at any moment. What survives a crash
are the sinks. A booting process reopens them, resumes every table from its
watermarks (or snapshots it, if it has none yet), and streams again from the minimum
of the persisted restart positions or from anywhere before it. The process may also
die while booting, or inside a flush round between the appends of two tables.
-/

namespace Ltap

/-- The engine, how far it has read, and where its tables started. -/
structure Sys where
  engine : Engine
  /-- A process is streaming. Otherwise only the sinks of `engine` mean anything. -/
  running : Bool
  /-- Number of records handled so far. -/
  pos : Nat
  /-- Per table, the cutover of the snapshot it started from. -/
  cutover : Nat → Lsn
  /-- Per table, the change log right after that snapshot. -/
  base : Nat → List EmitRow

/-- A new process opened the sink of a table. The table did not change its columns
while the process was down. -/
def Table.Reopens (t t' : Table) : Prop :=
  ∃ sink, DeltaSink.openOrCreate t.sink.uri (some t.sink.table) t.desc = .ok sink ∧
    (sink.schemaAddedColumns && t.desc.hasFastDefaults) = false ∧
    t' = Table.opened t.desc sink

namespace Sys

variable (dec : TupleDecoder)

/-- Tables without watermarks start over: the boot that snapshots them determines
their cutover and their first change log. -/
def startedAt (s : Sys) (opened booted : List Table) (engine : Engine) (running : Bool)
    (pos : Nat) : Sys where
  engine := engine
  running := running
  pos := pos
  cutover i := match opened[i]?, booted[i]? with
    | some t, some t' =>
      if t.sink.resumeState.restartLsn = none then t'.dedupeBelow else s.cutover i
    | _, _ => s.cutover i
  base i := match opened[i]?, booted[i]? with
    | some t, some t' =>
      if t.sink.resumeState.restartLsn = none then t'.sink.log else s.base i
    | _, _ => s.base i

/-- No transaction straddles a cutover on the table the snapshot was taken of. -/
def NoStraddle (w : List WalEvent) (s : Sys) (tables : List Table) : Prop :=
  ∀ i < tables.length, Covers w i (s.cutover i) (s.cutover i)

inductive Step (w : List WalEvent) : Sys → Sys → Prop where
  /-- The next record is handled. -/
  | event {s : Sys} (now : Instant) (ev : WalEvent) :
    s.running → w[s.pos]? = some ev →
    Step w s { s with
      engine := s.engine.applyEffect now ev.lsn ev.effect
      pos := s.pos + 1 }
  /-- A flush round. A failed append ends the process. -/
  | flush {s : Sys} (ok : AppendOk) (now : Instant) (persisted : Lsn) :
    s.running →
    Step w s { s with
      engine := (s.engine.flushAll ok now persisted).1
      running := (s.engine.flushAll ok now persisted).2.2 }
  /-- The process dies, if it runs, and a new one starts streaming. -/
  | boot {s : Sys} (env : PgEnv) (cfg : Config) (now : Instant) (oracle : Option Oracle)
    (opened booted : List Table) (cands : List Lsn) (resumeFrom start : Lsn) (engine : Engine) :
    cfg.snapshot →
    List.Forall₂ Table.Reopens s.engine.tables opened →
    resumeTables dec env cfg now oracle.isSome 0 opened = (booted, cands, true) →
    cands.min? = some resumeFrom →
    buildEngine env cfg booted resumeFrom oracle = some engine →
    start ≤ resumeFrom →
    NoStraddle w (s.startedAt opened booted engine true
      (w.takeWhile (·.lsn < start)).length) booted →
    Step w s (s.startedAt opened booted engine true (w.takeWhile (·.lsn < start)).length)
  /-- The process dies, and a new one does not get to stream. -/
  | failedBoot {s : Sys} (env : PgEnv) (cfg : Config) (now : Instant) (oraclePreimages : Bool)
    (opened booted : List Table) (cands : List Lsn) (ok : Bool) :
    cfg.snapshot →
    List.Forall₂ Table.Reopens s.engine.tables opened →
    resumeTables dec env cfg now oraclePreimages 0 opened = (booted, cands, ok) →
    NoStraddle w (s.startedAt opened booted { s.engine with tables := booted } false 0) booted →
    Step w s (s.startedAt opened booted { s.engine with tables := booted } false 0)

/-- No process has run yet, and the Delta tables are new. -/
def Initial (s : Sys) : Prop :=
  s.running = false ∧ (∀ i, s.base i = []) ∧
    ∀ t ∈ s.engine.tables, t.sink.resumeState = ⟨none, none, none⟩ ∧ t.sink.log = []

end Sys

/-! ## Booting -/

theorem DeltaSink.openOrCreate_table {uri : String} {table : DeltaTable} {desc : TableDesc}
    {sink : DeltaSink} (h : openOrCreate uri (some table) desc = .ok sink) :
    sink.table = table := by
  simp only [openOrCreate, Option.getD_some, bind, Except.bind] at h
  cases hmatch : matchColumns desc.cols table.cols with
  | error msg => simp [hmatch] at h
  | ok known =>
    simp only [hmatch, pure, Except.pure, Except.ok.injEq] at h
    rw [← h]

namespace Table

variable (dec : TupleDecoder) (env : PgEnv) (cfg : Config) (now : Instant) (oraclePreimages : Bool)

/-- A table with watermarks keeps its sink and resumes where they say. -/
theorem resume_of_watermarks {t : Table} {c r : Lsn}
    (hw : t.sink.resumeState = ⟨some c, some r, some t.desc.relNode⟩)
    (hcols : (t.sink.schemaAddedColumns && t.desc.hasFastDefaults) = false) (ti : Nat) :
    let res := t.resume dec env cfg now oraclePreimages ti
    res.1.sink = t.sink ∧ res.1.desc = t.desc ∧ res.1.pending = t.pending ∧
      (res.2.2 = true → res.1.dedupeBelow = c ∧ res.2.1 = some r) := by
  have hargs : ∀ raw, (t.resumed dec raw).resumeArgs r = none := by
    intro raw
    simp only [resumeArgs, resumed, hcols, hw, Option.bind_some]
    simp
  unfold resume
  simp only [hw]
  split
  · simp
  · simp only [hargs]
    simp [resumed, hw]

/-- A table without watermarks is snapshotted. Nothing is appended for an empty one. -/
theorem resume_of_fresh {t : Table} (hw : t.sink.resumeState = ⟨none, none, none⟩)
    (hsnap : cfg.snapshot = true) (ti : Nat) :
    let res := t.resume dec env cfg now oraclePreimages ti
    res.1.desc = t.desc ∧ res.1.pending = t.pending ∧
      (res.1.sink = t.sink ∨ res.1.sink.resumeState =
        ⟨some res.1.dedupeBelow, some res.1.dedupeBelow, some t.desc.relNode⟩ ∧
        ∃ rows, res.1.sink.log = t.sink.log ++ rows ∧ ∀ e ∈ rows, e.lsn = res.1.dedupeBelow) ∧
      (res.2.2 = true → res.2.1 = some res.1.dedupeBelow) := by
  unfold resume
  simp only [hw, hsnap, if_true]
  split
  · simp
  · split
    · simp
    · refine ⟨rfl, rfl, ?_, fun _ => rfl⟩
      simp only [initialSnapshot]
      split
      · exact .inl rfl
      · refine .inr ⟨rfl, _, DeltaSink.append_log .., ?_⟩
        intro e he
        obtain ⟨k, hk, rfl⟩ := List.mem_mapIdx.mp he
        rfl

end Table

end Ltap
