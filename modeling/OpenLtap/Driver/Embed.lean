-- SUMMARY: The embedded driver: in-process events, the gap check, and recovery from lost records (`embed.rs`).
import OpenLtap.Engine.Startup

/-!
# The embedded driver

The source replays from wherever it is. Before its first event with an LSN is
handled, tables whose watermark lies below that LSN are re-snapshotted. After lost
records every table is.
-/

namespace Ltap

/-- One event of the source, already translated for the engine. -/
inductive SourceEvent where
  | raw (lsn : Lsn) (rec : Bytes)
  | commit (lsn : Lsn) (xid : Xid) (subxids : List Xid)
  | abort (lsn : Lsn) (xid : Xid) (subxids : List Xid)
  | smgrCreate (xid : Xid) (db : Oid)
  | progress (lsn : Lsn)
  | lost (count : Nat)
  deriving DecidableEq, Repr

def SourceEvent.lsn : SourceEvent → Option Lsn
  | .raw lsn _ | .commit lsn _ _ | .abort lsn _ _ | .progress lsn => some lsn
  | .smgrCreate .. | .lost _ => none

structure EmbedState where
  engine : Engine
  persistedRestart : Lsn
  streamStart : Option Lsn

/-! ## Re-snapshot policies -/

/-- The `remap_table` call of `gap_check`, if it makes one for this table. -/
def Table.gapCheckArgs (t : Table) (firstLsn : Lsn) : Option RemapArgs :=
  if 0 < t.dedupeBelow ∧ t.dedupeBelow < firstLsn then
    some { tombstoneLsn := t.dedupeBelow + 1, oldFilenode := t.desc.relNode,
           restartLsn := t.dedupeBelow }
  else none

/-- The `remap_table` call of `resnapshot_all`. -/
def Table.resnapshotAllArgs (t : Table) : RemapArgs :=
  { tombstoneLsn := t.dedupeBelow + 1, oldFilenode := t.desc.relNode, restartLsn := t.dedupeBelow }

/-- Call `remap_table` on every table that `args` selects, up to the first failure. -/
def resnapshotTables (dec : TupleDecoder) (env : PgEnv) (now : Instant)
    (args : Table → Option RemapArgs) : Nat → List Table → List Table × Bool
  | _, [] => ([], true)
  | i, t :: ts =>
    match args t with
    | none =>
      let (ts', ok) := resnapshotTables dec env now args (i + 1) ts
      (t :: ts', ok)
    | some a =>
      let (t', ok) := t.remapTable dec now a (env.snapshot t.desc) (env.appendOk i)
      if ok then
        let (ts', ok') := resnapshotTables dec env now args (i + 1) ts
        (t' :: ts', ok')
      else (t' :: ts, false)

namespace EmbedState

variable (dec : TupleDecoder)

def gapCheck (e : Engine) (env : PgEnv) (now : Instant) (firstLsn : Lsn) : Engine × Bool :=
  let (tables, ok) := resnapshotTables dec env now (·.gapCheckArgs firstLsn) 0 e.tables
  ({ e with tables }, ok)

def resnapshotAll (e : Engine) (env : PgEnv) (now : Instant) : Engine × Bool :=
  let (tables, ok) := resnapshotTables dec env now (fun t => some t.resnapshotAllArgs) 0 e.tables
  ({ e with tables }, ok)

/-! ## The event loop -/

private def applied (e : Engine) (lsn : Lsn) : Engine :=
  { e with tail := { e.tail with appliedLsn := lsn } }

/-- The event itself, after the gap check and before the catalog check. -/
def handleEvent (e : Engine) (env : PgEnv) (now : Instant) : SourceEvent → Engine × Bool
  | .raw lsn bytes =>
    match parseRecord bytes with
    | .ok rec => (applied (e.handleRecord dec now lsn rec) lsn, true)
    | .error .panic => (e, false)
    | .error _ => (applied e lsn, true)
  | .commit lsn xid subxids => (applied (e.handleCommit now lsn xid subxids) lsn, true)
  | .abort _ xid subxids => (e.handleAbort xid subxids, true)
  | .smgrCreate xid db => (e.handleSmgrCreate xid db, true)
  | .progress lsn => (applied e lsn, true)
  | .lost _ =>
    resnapshotAll dec { e with txbuf := .empty, toast := .empty, smgrSuspects := ∅ } env now

/-- The gap check, before the first event that has an LSN. -/
def checkGap (s : EmbedState) (env : PgEnv) (now : Instant) (ev : SourceEvent) :
    EmbedState × Bool :=
  match s.streamStart, ev.lsn with
  | none, some first =>
    let (engine, ok) := gapCheck dec s.engine env now first
    ({ s with engine, streamStart := some first }, ok)
  | _, _ => (s, true)

/-- `if let Some(ddl_lsn) = engine.remap_at.take()`. -/
def checkRemap (s : EmbedState) (env : PgEnv) (cfg : Config) (now : Instant) :
    EmbedState × Bool :=
  match s.engine.remapAt with
  | none => (s, true)
  | some ddlLsn =>
    let (engine, persistedRestart, ok) :=
      { s.engine with remapAt := none }.remapCheck dec env cfg now ddlLsn s.persistedRestart
    ({ s with engine, persistedRestart }, ok)

/-- A flush round and, if it succeeded, compaction. -/
def flush (s : EmbedState) (env : PgEnv) (now : Instant) : EmbedState × Bool :=
  let (engine, persistedRestart, ok) := s.engine.flushAll env.appendOk now s.persistedRestart
  if ok then
    let (engine, ok) := engine.maybeCompact
    ({ s with engine, persistedRestart }, ok)
  else ({ s with engine, persistedRestart }, false)

/-- What wakes the loop up. -/
inductive Input where
  | event (ev : SourceEvent)
  | flushTick
  deriving DecidableEq, Repr

/-- One turn of the loop: the state reached and whether the driver goes on. -/
def step (s : EmbedState) (env : PgEnv) (cfg : Config) (now : Instant) :
    Input → EmbedState × Bool
  | .event ev =>
    let (s₁, ok) := s.checkGap dec env now ev
    if ¬ ok then (s₁, false)
    else
      let (engine, ok) := handleEvent dec s₁.engine env now ev
      let s₂ := { s₁ with engine }
      if ¬ ok then (s₂, false)
      else
        let (s₃, ok) := s₂.checkRemap dec env cfg now
        if ¬ ok then (s₃, false)
        else if cfg.flushRows ≤ s₃.engine.pendingTotal then s₃.flush env now
        else (s₃, true)
  | .flushTick =>
    if (s.engine.oldestBatchAge now).any (cfg.flushInterval ≤ ·) then s.flush env now
    else (s, true)

/-- One turn's surroundings and input. -/
structure Turn where
  env : PgEnv
  now : Instant
  input : Input

/-- Run the loop over some turns; `none` when the driver stopped. -/
def run (cfg : Config) : EmbedState → List Turn → Option EmbedState
  | s, [] => some s
  | s, turn :: turns =>
    match s.step dec turn.env cfg turn.now turn.input with
    | (s', true) => run cfg s' turns
    | (_, false) => none

/-- The source is gone for good: what is pending becomes durable and the driver ends. -/
def close (s : EmbedState) (env : PgEnv) (now : Instant) : EmbedState × Bool :=
  let (engine, persistedRestart, ok) := s.engine.flushAll env.appendOk now s.persistedRestart
  ({ s with engine, persistedRestart }, ok)

end EmbedState

end Ltap
