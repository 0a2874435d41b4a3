-- SUMMARY: The pgwire driver: startup and the replication loop (`main.rs`).
import OpenLtap.Engine.Startup

/-!
# The replication loop

One iteration handles one message of the replication stream or one timer tick.
The WAL position confirmed to the slot, `persistedRestart`, only moves with a flush
round. `statuses` records the status updates sent, as (received, flushed).
-/

namespace Ltap

structure MainState where
  engine : Engine
  reader : WalReader
  lastRecvLsn : Lsn
  persistedRestart : Lsn
  statuses : List (Lsn × Lsn)

/-- What wakes the loop up. -/
inductive MainInput where
  | xlogData (startLsn walEnd : Lsn) (data : Bytes)
  | keepalive (walEnd : Lsn) (replyRequested : Bool)
  | flushTick
  | statusTick
  deriving DecidableEq, Repr

namespace MainState

variable (dec : TupleDecoder)

/-- Start the loop on opened tables. `slotRestart` and `flushLsn` are what the server
answered; the stream starts at the page the resume position is on. -/
def start (env : PgEnv) (cfg : Config) (now : Instant) (opened : List Table)
    (slotRestart : Option Lsn) (flushLsn : Lsn) (oracle : Option Oracle) : Option MainState :=
  let (tables, cands, ok) := resumeTables dec env cfg now oracle.isSome 0 opened
  if ok then
    let resumeFrom := (cands.min?.or slotRestart).getD flushLsn
    let startLsn := resumeFrom / xlogPageSize * xlogPageSize
    (buildEngine env cfg tables resumeFrom oracle).map fun engine =>
      { engine, reader := .new startLsn, lastRecvLsn := startLsn,
        persistedRestart := resumeFrom, statuses := [] }
  else none

def sendStatus (s : MainState) : MainState :=
  { s with statuses := s.statuses ++ [(s.lastRecvLsn, s.persistedRestart)] }

/-- Handle the records of one payload in order. An unparseable record is skipped; a
parse that panics stops the process. -/
def handleRecords (now : Instant) : List (Lsn × Bytes) → Engine → Engine × Bool
  | [], e => (e, true)
  | (lsn, bytes) :: rest, e =>
    match parseRecord bytes with
    | .ok rec => handleRecords now rest (e.handleRecord dec now lsn rec)
    | .error .panic => (e, false)
    | .error _ => handleRecords now rest e

/-- Take in one `XLogData` payload and hand its records to the engine. -/
def receive (s : MainState) (now : Instant) (startLsn walEnd : Lsn) (data : Bytes) :
    MainState × Bool :=
  let s := { s with lastRecvLsn := max walEnd s.lastRecvLsn }
  match s.reader.feed startLsn data with
  | .error _ => (s, false)
  | .ok (reader, recs) =>
    let (engine, ok) := handleRecords dec now recs s.engine
    ({ s with reader, engine }, ok)

/-- `if let Some(ddl_lsn) = engine.remap_at.take()`. -/
def checkRemap (s : MainState) (env : PgEnv) (cfg : Config) (now : Instant) : MainState × Bool :=
  match s.engine.remapAt with
  | none => (s, true)
  | some ddlLsn =>
    let (engine, persistedRestart, ok) :=
      { s.engine with remapAt := none }.remapCheck dec env cfg now ddlLsn s.persistedRestart
    ({ s with engine, persistedRestart }, ok)

def setApplied (s : MainState) : MainState :=
  { s with engine := { s.engine with tail := { s.engine.tail with appliedLsn := s.lastRecvLsn } } }

/-- A flush round and, if it succeeded, compaction. -/
def flush (s : MainState) (env : PgEnv) (now : Instant) : MainState × Bool :=
  let (engine, persistedRestart, ok) := s.engine.flushAll env.appendOk now s.persistedRestart
  if ok then
    let (engine, ok) := engine.maybeCompact
    ({ s with engine, persistedRestart }, ok)
  else ({ s with engine, persistedRestart }, false)

/-- One iteration of the loop: the state reached and whether the process goes on. -/
def iterate (s : MainState) (env : PgEnv) (cfg : Config) (now : Instant) :
    MainInput → MainState × Bool
  | .xlogData startLsn walEnd data =>
    let (s₁, ok) := s.receive dec now startLsn walEnd data
    if ¬ ok then (s₁, false)
    else
      let (s₂, ok) := s₁.checkRemap dec env cfg now
      if ¬ ok then (s₂, false)
      else
        let s₃ := s₂.setApplied
        if cfg.flushRows ≤ s₃.engine.pendingTotal then s₃.flush env now else (s₃, true)
  | .keepalive walEnd replyRequested =>
    let s₁ := { s with lastRecvLsn := max walEnd s.lastRecvLsn }.setApplied
    (if replyRequested then s₁.sendStatus else s₁, true)
  | .flushTick =>
    if (s.engine.oldestBatchAge now).any (cfg.flushInterval ≤ ·) then
      let (s₁, ok) := s.flush env now
      if ok then (s₁.sendStatus, true) else (s₁, false)
    else (s, true)
  | .statusTick => (s.sendStatus, true)

/-- A payload was taken in, its catalog check made, and perhaps a flush round. -/
theorem iterate_xlogData {dec : TupleDecoder} {s s' : MainState} {env : PgEnv} {cfg : Config}
    {now : Instant} {startLsn walEnd : Lsn} {data : Bytes}
    (h : s.iterate dec env cfg now (.xlogData startLsn walEnd data) = (s', true)) :
    ∃ s₁ s₂, s.receive dec now startLsn walEnd data = (s₁, true) ∧
      s₁.checkRemap dec env cfg now = (s₂, true) ∧
      (s' = s₂.setApplied ∨ s₂.setApplied.flush env now = (s', true)) := by
  simp only [iterate] at h
  split at h
  · cases h
  · rename_i hrecv
    split at h
    · cases h
    · rename_i hremap
      simp only [Bool.not_eq_true, Bool.not_eq_false] at hrecv hremap
      refine ⟨_, _, Prod.ext rfl hrecv, Prod.ext rfl hremap, ?_⟩
      split at h
      · exact .inr h
      · exact .inl (Prod.ext_iff.mp h).1.symm

/-- A flush tick does nothing, or makes a flush round and reports it. -/
theorem iterate_flushTick {dec : TupleDecoder} {s s' : MainState} {env : PgEnv} {cfg : Config}
    {now : Instant} (h : s.iterate dec env cfg now .flushTick = (s', true)) :
    s' = s ∨ ∃ s₁, s.flush env now = (s₁, true) ∧ s' = s₁.sendStatus := by
  simp only [iterate] at h
  split at h
  · split at h
    · rename_i hok
      exact .inr ⟨_, Prod.ext rfl hok, (Prod.ext_iff.mp h).1.symm⟩
    · cases h
  · exact .inl (Prod.ext_iff.mp h).1.symm

/-- One iteration's surroundings and input. -/
structure Iteration where
  env : PgEnv
  now : Instant
  input : MainInput

/-- Run the loop over some iterations; `none` when the process stopped. -/
def run (cfg : Config) : MainState → List Iteration → Option MainState
  | s, [] => some s
  | s, it :: its =>
    match s.iterate dec it.env cfg it.now it.input with
    | (s', true) => run cfg s' its
    | (_, false) => none

/-- A run goes through the state after each of its iterations. -/
theorem run_append {dec : TupleDecoder} {cfg : Config} {s s' : MainState}
    {its its' : List Iteration} :
    s.run dec cfg (its ++ its') = some s' ↔
      ∃ u, s.run dec cfg its = some u ∧ u.run dec cfg its' = some s' := by
  induction its generalizing s with
  | nil => simp [run]
  | cons it its ih =>
    simp only [List.cons_append, run]
    split
    · exact ih
    · simp

theorem run_concat {dec : TupleDecoder} {cfg : Config} {s s' : MainState}
    {its : List Iteration} {it : Iteration} :
    s.run dec cfg (its ++ [it]) = some s' ↔
      ∃ u, s.run dec cfg its = some u ∧ u.iterate dec it.env cfg it.now it.input = (s', true) := by
  rw [run_append]
  refine exists_congr fun u => and_congr_right fun _ => ?_
  simp only [run]
  split
  · simp [*]
  · simp [*]

end MainState

namespace Sample

/-- The loop right after a first start with empty tables. -/
def started (descs : List TableDesc) (cutover : Lsn) : MainState where
  engine := Engine.rebuildRouting { engine descs with
    tables := descs.map fun d =>
      (Table.opened d (sink d)).initialSnapshot .reject ⟨cutover, [], ∅⟩
    catalogRels := [1249, 1259].toFinset
    lastCommitLsn := cutover }
  reader := .new cutover
  lastRecvLsn := cutover
  persistedRestart := cutover
  statuses := []

/-- The page header at 0/1000000. -/
def pageHeader : Bytes :=
  [22, 209, 2, 0, 1, 0, 0, 0, 0, 0, 0, 1, 0, 0, 0, 0, 0, 0, 0, 0, 0, 0, 0, 0, 0, 0, 0, 0, 0, 0, 0,
    0, 0, 0, 0, 0, 0, 0, 0, 0]

/-- Transaction 7 commits. -/
def commitRecord : Bytes :=
  [34, 0, 0, 0, 7, 0, 0, 0, 0, 0, 0, 0, 0, 0, 0, 0, 0, 1, 0, 0, 211, 129, 254, 7, 255, 8, 0, 0, 0,
    0, 0, 0, 0, 0]

end Sample

end Ltap
