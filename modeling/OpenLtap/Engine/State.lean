-- SUMMARY: The transcoding state and its commit, abort, and flush operations (`engine.rs`).
import OpenLtap.Serve

/-!
# Engine state

N tables fed by one WAL stream. `handleCommit` moves the ops of a committed
transaction into the mirrors and pending batches of its tables, and `flushAll`
makes pending batches durable. Functions that the source makes fallible return
the state reached and whether they succeeded; a failed Delta commit leaves the
state of the tables handled before it.
-/

namespace Ltap

/-- Committed change rows waiting to be flushed as one Delta commit. -/
structure PendingBatch where
  rows : List EmitRow
  firstAt : Option Instant
  /-- Highest commit LSN among the rows emitted so far. -/
  maxCommitLsn : Lsn
  seq : Nat
  deriving DecidableEq, Repr

namespace PendingBatch

def empty : PendingBatch := { rows := [], firstAt := none, maxCommitLsn := 0, seq := 0 }

def emit (p : PendingBatch) (now : Instant) (lsn : Lsn) (deleted : Bool) (ctid : Ctid)
    (row : Row) : PendingBatch :=
  { rows := p.rows ++ [{ lsn, seq := p.seq + 1, deleted, ctid, row }]
    firstAt := some (p.firstAt.getD now)
    maxCommitLsn := max p.maxCommitLsn lsn
    seq := p.seq + 1 }

/-- The batch after its rows became durable. -/
def clear (p : PendingBatch) : PendingBatch := { p with rows := [], firstAt := none }

end PendingBatch

/-- Last committed version of every live row, by physical address. -/
abbrev Mirror := Map Ctid RowVersion

structure Table where
  desc : TableDesc
  sink : DeltaSink
  mirror : Mirror
  /-- Commits at or below this are already in the table's Delta log. -/
  dedupeBelow : Lsn
  pending : PendingBatch
  needsResnapshot : Bool
  rowsSinceCompaction : Nat

/-- The GetPage oracle: the page of a block just before a record. -/
abbrev Oracle := RelTag → Nat → Lsn → Option Bytes

structure Engine where
  tables : List Table
  /-- Main-table relfilenode to index into `tables`. -/
  relToTable : Map Oid Nat
  toastRels : Finset Oid
  txbuf : TxBuffer
  toast : ToastCache
  lastCommitLsn : Lsn
  catalogRels : Finset Oid
  /-- Transactions whose commit might be DDL on a tracked table. -/
  smgrSuspects : Finset Xid
  /-- Set when a suspect committed or a decode hit schema drift. -/
  remapAt : Option Lsn
  attachFailed : Finset String
  tail : TailStore
  tailRetain : Nat
  tailMaxRows : Nat
  compactRows : Nat
  dbOid : Oid
  oracle : Option Oracle

/-! ## Committing -/

/-- Apply one committed op: the mirror follows the op and the change is emitted. -/
def Table.applyOp (t : Table) (now : Instant) (lsn : Lsn) : Op → Table
  | .insert ctid ver =>
    { t with
      pending := t.pending.emit now lsn false ctid ver.row
      mirror := t.mirror.insert ctid ver }
  | .update oldCtid ctid ver =>
    { t with
      pending := t.pending.emit now lsn false ctid ver.row
      mirror := (t.mirror.erase oldCtid).insert ctid ver }
  | .delete ctid oldRow =>
    let row := (oldRow.or ((t.mirror.lookup ctid).map (·.row))).getD
      (List.replicate t.desc.cols.length none)
    { t with
      mirror := t.mirror.erase ctid
      pending := t.pending.emit now lsn true ctid row }

/-- A replayed commit is already in this table's Delta log and is dropped. -/
def Table.commitOp (t : Table) (now : Instant) (lsn : Lsn) (op : Op) : Table :=
  if lsn ≤ t.dedupeBelow then t else t.applyOp now lsn op

/-- Publish the rows past `start` of a table's pending batch to the tail. -/
def publish (tailMaxRows : Nat) (tail : TailStore) (start : Nat) (t : Table) : TailStore :=
  if start < t.pending.rows.length then
    (tail.push t.desc.name (t.sink.makeBatch (t.pending.rows.drop start))).enforceCap
      t.desc.name tailMaxRows
  else tail

namespace Engine

def pendingTotal (e : Engine) : Nat := (e.tables.map (·.pending.rows.length)).sum

/-- Age of the oldest pending batch. -/
def oldestBatchAge (e : Engine) (now : Instant) : Option Nat :=
  (e.tables.filterMap fun t => t.pending.firstAt.map (now - ·)).max?

/-- Apply a committed transaction's ops, each to its table. -/
def commitOps (now : Instant) (lsn : Lsn) (tables : List Table) (ops : List PendingOp) :
    List Table :=
  ops.foldl (fun ts p => ts.modify p.table (·.commitOp now lsn p.op)) tables

def handleCommit (e : Engine) (now : Instant) (lsn : Lsn) (xid : Xid) (subxids : List Xid) :
    Engine :=
  -- `any` stops at the first suspect subtransaction, so only that one is removed.
  let hit := (xid :: subxids).find? (· ∈ e.smgrSuspects)
  let (ops, txbuf) := e.txbuf.commit xid subxids
  let tables := commitOps now lsn e.tables ops
  { e with
    lastCommitLsn := lsn
    smgrSuspects := match hit with
      | some x => e.smgrSuspects.erase x
      | none => e.smgrSuspects
    remapAt := if hit.isSome then some lsn else e.remapAt
    txbuf
    toast := (xid :: subxids).foldl ToastCache.gcXid e.toast
    tables
    tail := (e.tables.zip tables).foldl
      (fun tail (t, t') => publish e.tailMaxRows tail t.pending.rows.length t') e.tail }

def handleAbort (e : Engine) (xid : Xid) (subxids : List Xid) : Engine :=
  { e with
    smgrSuspects := e.smgrSuspects \ (xid :: subxids).toFinset
    toast := (xid :: subxids).foldl ToastCache.gcXid e.toast
    txbuf := (e.txbuf.abort xid subxids).2 }

def handleSmgrCreate (e : Engine) (xid : Xid) (db : Oid) : Engine :=
  if db = e.dbOid ∧ xid ≠ 0 then { e with smgrSuspects := insert xid e.smgrSuspects } else e

/-! ## Flushing -/

/-- The WAL position stamped into a flush as the place to resume reading from. -/
def restartLsn (e : Engine) : Lsn := e.txbuf.oldestFirstLsn.getD e.lastCommitLsn

end Engine

/-- Where a Delta commit is made. -/
inductive AppendSite where
  | flush
  | tombstone
  | snapshot
  deriving DecidableEq, Repr

/-- Outcome of the Delta commits of one call, by table index and site. -/
abbrev AppendOk := Nat → AppendSite → Bool

/-- Append the pending rows of one table with the global restart LSN. -/
def Table.flush (t : Table) (restart : Lsn) : Table :=
  { t with
    sink := t.sink.append t.pending.rows t.pending.maxCommitLsn restart t.desc.relNode
    rowsSinceCompaction := t.rowsSinceCompaction + t.pending.rows.length
    pending := t.pending.clear }

/-- Flush the tables with pending rows from index `i` on, up to the first failure. -/
def flushTables (ok : AppendOk) (restart : Lsn) : Nat → List Table → List Table × Bool
  | _, [] => ([], true)
  | i, t :: ts =>
    if t.pending.rows = [] then
      let (ts', done) := flushTables ok restart (i + 1) ts
      (t :: ts', done)
    else if ok i .flush then
      let (ts', done) := flushTables ok restart (i + 1) ts
      (t.flush restart :: ts', done)
    else (t :: ts, false)

/-- The tail after the tables that `flushTables` made durable were marked. -/
def flushTail (now : Instant) (retain maxRows : Nat) (before after : List Table)
    (tail : TailStore) : TailStore :=
  (before.zip after).foldl (fun tail (t, t') =>
    if t'.pending.rows.length < t.pending.rows.length then
      (tail.markFlushed now t.desc.name retain).enforceCap t.desc.name maxRows
    else tail) tail

/-- Flush every table with pending rows (one round). The slot position only advances
when the whole round succeeded. -/
def Engine.flushAll (e : Engine) (ok : AppendOk) (now : Instant) (persistedRestart : Lsn) :
    Engine × Lsn × Bool :=
  if e.pendingTotal = 0 then (e, persistedRestart, true)
  else
    let restart := e.restartLsn
    let (tables, done) := flushTables ok restart 0 e.tables
    let tail := flushTail now e.tailRetain e.tailMaxRows e.tables tables e.tail
    ({ e with tables, tail }, if done then restart else persistedRestart, done)

/-- Compact the tables whose change log has grown past the threshold. A panic stops
the process. -/
def Engine.compactTables (compactRows : Nat) : List Table → List Table × Bool
  | [] => ([], true)
  | t :: ts =>
    if t.rowsSinceCompaction < compactRows ∨ t.desc.pk = [] then
      let (ts', ok) := compactTables compactRows ts
      (t :: ts', ok)
    else
      match t.sink.compact t.desc with
      | .panicked => (t :: ts, false)
      | .skipped =>
        let (ts', ok) := compactTables compactRows ts
        ({ t with rowsSinceCompaction := 0 } :: ts', ok)
      | .done sink _ _ =>
        let (ts', ok) := compactTables compactRows ts
        ({ t with sink, rowsSinceCompaction := 0 } :: ts', ok)

def Engine.maybeCompact (e : Engine) : Engine × Bool :=
  if e.compactRows = 0 then (e, true)
  else
    let (tables, ok) := Engine.compactTables e.compactRows e.tables
    ({ e with tables }, ok)

/-! ## What a flush round changes -/

/-- A round leaves a table as it was or flushes its pending rows. -/
theorem flushTables_cases {ok : AppendOk} {restart : Lsn} {i k : Nat} {ts : List Table}
    {t' : Table} (h : (flushTables ok restart i ts).1[k]? = some t') :
    ∃ t, ts[k]? = some t ∧ (t' = t ∨ t.pending.rows ≠ [] ∧ t' = t.flush restart) := by
  induction ts generalizing i k with
  | nil => simp [flushTables] at h
  | cons t ts ih =>
    simp only [flushTables] at h
    split at h
    · cases k with
      | zero => exact ⟨t, rfl, .inl (by simpa using h.symm)⟩
      | succ k => simpa using ih (i := i + 1) (k := k) (by simpa using h)
    · rename_i hrows
      split at h
      · cases k with
        | zero => exact ⟨t, rfl, .inr ⟨hrows, by simpa using h.symm⟩⟩
        | succ k => simpa using ih (i := i + 1) (k := k) (by simpa using h)
      · exact ⟨t', h, .inl rfl⟩

theorem Engine.exists_pending {e : Engine} (h : e.pendingTotal ≠ 0) :
    ∃ t ∈ e.tables, t.pending.rows ≠ [] := by
  by_contra hnone
  simp only [not_exists, not_and, not_not] at hnone
  refine h (List.sum_eq_zero_iff_forall_eq_nat.mpr fun n hn => ?_)
  obtain ⟨t, ht, rfl⟩ := List.mem_map.mp hn
  simp [hnone t ht]

/-- A complete round flushes every table with pending rows. -/
theorem flushTables_done {ok : AppendOk} {restart : Lsn} {i : Nat} {ts ts' : List Table}
    (h : flushTables ok restart i ts = (ts', true)) :
    ts' = ts.map fun t => if t.pending.rows = [] then t else t.flush restart := by
  induction ts generalizing i ts' with
  | nil =>
    obtain rfl := (Prod.ext_iff.mp h).1
    rfl
  | cons t ts ih =>
    simp only [flushTables] at h
    split at h
    · rename_i hrows
      simp only [Prod.mk.injEq] at h
      obtain ⟨rfl, hdone⟩ := h
      simp [hrows, ih (Prod.ext rfl hdone)]
    · rename_i hrows
      split at h
      · simp only [Prod.mk.injEq] at h
        obtain ⟨rfl, hdone⟩ := h
        simp [hrows, ih (Prod.ext rfl hdone)]
      · simp at h

theorem flushTables_succeeds (restart : Lsn) (i : Nat) (ts : List Table) :
    (flushTables (fun _ _ => true) restart i ts).2 = true := by
  induction ts generalizing i with
  | nil => rfl
  | cons t ts ih =>
    simp only [flushTables, if_true]
    split
    · exact ih (i + 1)
    · exact ih (i + 1)

/-- A round that succeeds leaves nothing pending. -/
theorem Engine.flushAll_rows {e e' : Engine} {ok : AppendOk} {now : Instant} {persisted restart : Lsn}
    (h : e.flushAll ok now persisted = (e', restart, true)) {t : Table} (ht : t ∈ e'.tables) :
    t.pending.rows = [] := by
  unfold flushAll at h
  split at h
  · rename_i hzero
    obtain rfl := (Prod.ext_iff.mp h).1
    have hmem : t.pending.rows.length ∈ e.tables.map (·.pending.rows.length) :=
      List.mem_map.mpr ⟨t, ht, rfl⟩
    exact List.length_eq_zero_iff.mp (List.sum_eq_zero_iff_forall_eq_nat.mp hzero _ hmem)
  · simp only [Prod.mk.injEq] at h
    obtain ⟨rfl, -, hdone⟩ := h
    have hround : flushTables ok e.restartLsn 0 e.tables =
        ((flushTables ok e.restartLsn 0 e.tables).1, true) := Prod.ext rfl hdone
    simp only at ht
    rw [flushTables_done hround] at ht
    obtain ⟨u, -, rfl⟩ := List.mem_map.mp ht
    split
    · assumption
    · rfl

theorem Engine.flushAll_succeeds (e : Engine) (now : Instant) (persisted : Lsn) :
    (e.flushAll (fun _ _ => true) now persisted).2.2 = true := by
  unfold flushAll
  split
  · rfl
  · exact flushTables_succeeds _ _ _

end Ltap
