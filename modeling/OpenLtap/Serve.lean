-- SUMMARY: The served tail of recently committed rows (`serve.rs`).
import OpenLtap.Sink

/-!
# The freshness tail

Committed rows are served from memory until they are durable in Delta, and for a
retention window afterwards. Instants are numbers of a clock that the caller reads.
-/

namespace Ltap

abbrev Instant := Nat

structure TailBatch where
  batch : RecordBatch
  /-- `none` while pending; set when the batch became durable. -/
  flushedAt : Option Instant
  deriving DecidableEq, Repr

structure TailStore where
  /-- WAL position fully applied to the tails. -/
  appliedLsn : Lsn
  tables : Map String (List TailBatch)

namespace TailStore

def empty : TailStore := { appliedLsn := 0, tables := ∅ }

def batches (s : TailStore) (table : String) : List TailBatch :=
  (s.tables.lookup table).getD []

def push (s : TailStore) (table : String) (batch : RecordBatch) : TailStore :=
  { s with tables := s.tables.insert table (s.batches table ++ [{ batch, flushedAt := none }]) }

/-- Start the retention clock of the pending batches and drop the expired ones. -/
def markFlushed (s : TailStore) (now : Instant) (table : String) (retain : Nat) : TailStore :=
  match s.tables.lookup table with
  | none => s
  | some bs =>
    let bs' := bs.map fun b => { b with flushedAt := some (b.flushedAt.getD now) }
    let kept := bs'.filter fun b => b.flushedAt.all fun t => now - t < retain
    { s with tables := s.tables.insert table kept }

def numRows (bs : List TailBatch) : Nat := (bs.map (·.batch.rows.length)).sum

/-- Evict the oldest flushed batch while the table is over `cap`. The list shrinks
with every eviction, so its length bounds the turns. -/
def evict (cap : Nat) : Nat → List TailBatch → List TailBatch
  | 0, bs => bs
  | fuel + 1, bs =>
    if numRows bs > cap then
      match bs.findIdx? (·.flushedAt.isSome) with
      | some pos => evict cap fuel (bs.eraseIdx pos)
      | none => bs
    else bs

def enforceCap (s : TailStore) (table : String) (cap : Nat) : TailStore :=
  match s.tables.lookup table with
  | none => s
  | some bs => { s with tables := s.tables.insert table (evict cap bs.length bs) }

/-- Whether a request with `min_lsn` passes the long poll. -/
def ready (s : TailStore) (minLsn : Lsn) : Bool := minLsn ≤ s.appliedLsn

end TailStore

end Ltap
