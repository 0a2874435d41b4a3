-- SUMMARY: The Delta sink: change-log rows, watermarks, schema evolution, mirror rebuild, compaction (`sink.rs`).
import Mathlib.Data.Prod.Lex
import OpenLtap.Base.LatestPerKey
import OpenLtap.TxBuffer

/-!
# The Delta sink

A Delta table is its committed files and the three watermarks that every commit
carries. A file is kept as the rows handed to `make_batch` and the columns they
were written under; `RecordBatch.cell` computes the stored cell. Object-store
effects of one commit are atomic.
-/

namespace Ltap

/-- One change-log entry bound for the lake. -/
structure EmitRow where
  lsn : Lsn
  seq : Nat
  deleted : Bool
  ctid : Ctid
  row : Row
  deriving DecidableEq, Repr

/-- `(_ltap_lsn, _ltap_seq)`, ordered lexicographically. -/
def EmitRow.version (e : EmitRow) : Lsn ×ₗ Nat := toLex (e.lsn, e.seq)

/-- A column of the Delta table, and where its values come from in emitted rows.
`none` is a column dropped in Postgres that keeps receiving NULLs. -/
structure DeltaCol where
  col : Col
  live : Option Nat
  deriving DecidableEq, Repr

/-- Rows and the Delta columns they are written under. -/
structure RecordBatch where
  cols : List DeltaCol
  rows : List EmitRow
  deriving DecidableEq, Repr

/-- The watermarks read back at startup. -/
structure ResumeState where
  commitLsn : Option Lsn
  restartLsn : Option Lsn
  filenode : Option Oid
  deriving DecidableEq, Repr

/-- The durable state of a Delta table. -/
structure DeltaTable where
  /-- User columns of the table schema. -/
  cols : List Col
  files : List RecordBatch
  watermarks : ResumeState
  deriving DecidableEq, Repr

/-- All rows of the change log, in append order. -/
def DeltaTable.log (t : DeltaTable) : List EmitRow :=
  t.files.flatMap (·.rows)

inductive ArrowType where
  | boolean | int16 | int32 | int64 | float32 | float64 | utf8 | binary | date32
  | timestamp (utc : Bool)
  deriving DecidableEq, Repr

structure DeltaSink where
  uri : String
  table : DeltaTable
  arrowSchema : List (String × ArrowType)
  deltaCols : List DeltaCol
  /-- The table schema needs a metadata commit before the next append. -/
  schemaDirty : Bool
  deriving DecidableEq, Repr

/-! ## Column types -/

/-- The Delta representation of a column type: types with one representation can
stand in for each other. -/
inductive DeltaType where
  | boolean | short | integer | long | float | double | string | binary | date
  | timestampNtz | timestamp
  deriving DecidableEq, Repr

def deltaType : PgType → DeltaType
  | .bool => .boolean
  | .int2 => .short
  | .int4 => .integer
  | .int8 => .long
  | .float4 => .float
  | .float8 => .double
  | .text | .uuid | .numeric | .jsonb => .string
  | .bytea => .binary
  | .date => .date
  | .timestamp => .timestampNtz
  | .timestampTz => .timestamp

def arrowType : PgType → ArrowType
  | .bool => .boolean
  | .int2 => .int16
  | .int4 => .int32
  | .int8 => .int64
  | .float4 => .float32
  | .float8 => .float64
  | .text | .uuid | .numeric | .jsonb => .utf8
  | .bytea => .binary
  | .date => .date32
  | .timestamp => .timestamp false
  | .timestampTz => .timestamp true

def buildArrowSchema (deltaCols : List DeltaCol) : List (String × ArrowType) :=
  deltaCols.map (fun dc => (dc.col.name, arrowType dc.col.ty)) ++
    [("_ltap_lsn", .int64), ("_ltap_seq", .int64), ("_ltap_deleted", .boolean),
     ("_ltap_ctid", .int64)]

/-- The type tag recovered from a Delta schema. -/
def pgFromDelta : DeltaType → PgType
  | .boolean => .bool
  | .short => .int2
  | .integer => .int4
  | .long => .int8
  | .float => .float4
  | .double => .float8
  | .string => .text
  | .binary => .bytea
  | .date => .date
  | .timestampNtz => .timestamp
  | .timestamp => .timestampTz

/-- `col_vals!` keeps a value whose variant fits the column's array and reads any
other one as NULL. -/
def PgType.accepts : PgType → Value → Bool
  | .bool, .bool _ => true
  | .int2, .i16 _ => true
  | .int4, .i32 _ | .date, .i32 _ => true
  | .int8, .i64 _ | .timestamp, .i64 _ | .timestampTz, .i64 _ => true
  | .float4, .f32 _ => true
  | .float8, .f64 _ => true
  | .text, .text _ | .uuid, .text _ | .numeric, .text _ | .jsonb, .text _ => true
  | .bytea, .bytes _ => true
  | _, _ => false

/-- The cell `make_batch` writes for a row under a Delta column. -/
def DeltaCol.cell (dc : DeltaCol) (row : Row) : Option Value :=
  dc.live.bind fun li => ((row[li]?).join).filter dc.col.ty.accepts

/-- The cell of a stored row under a column name; absent columns read as NULL. -/
def RecordBatch.cell (b : RecordBatch) (e : EmitRow) (name : String) : Option Value :=
  (b.cols.find? (·.col.name = name)).bind (·.cell e.row)

namespace DeltaSink

def log (s : DeltaSink) : List EmitRow := s.table.log

def resumeState (s : DeltaSink) : ResumeState := s.table.watermarks

def schemaAddedColumns (s : DeltaSink) : Bool := s.schemaDirty

def makeBatch (s : DeltaSink) (rows : List EmitRow) : RecordBatch :=
  { cols := s.deltaCols, rows }

/-- One Delta commit with the new rows and watermarks. A changed schema is
committed first. -/
def append (s : DeltaSink) (rows : List EmitRow) (commitLsn restartLsn : Lsn) (filenode : Oid) :
    DeltaSink :=
  let batch := s.makeBatch rows
  let cols := if s.schemaDirty then s.deltaCols.map (·.col) else s.table.cols
  { s with
    schemaDirty := false
    table := {
      cols
      files := s.table.files ++ [batch]
      watermarks := {
        commitLsn := some commitLsn
        restartLsn := some restartLsn
        filenode := some filenode } } }

/-! ## Opening and evolving -/

/-- Add the live columns that Delta does not have yet. -/
def addColumns : Nat → List Col → List DeltaCol → List DeltaCol
  | _, [], dcs => dcs
  | li, c :: rest, dcs =>
    addColumns (li + 1) rest
      (if dcs.any (·.col.name = c.name) then dcs else dcs ++ [{ col := c, live := some li }])

/-- The existing user columns, matched against the live ones by name. -/
def matchColumns (cols : List Col) : List Col → Except String (List DeltaCol)
  | [] => .ok []
  | field :: rest => do
    if field.name.startsWith "_ltap_" then matchColumns cols rest
    else
      let ty := pgFromDelta (deltaType field.ty)
      let live := cols.findIdx? (·.name = field.name)
      match live.bind (cols[·]?) with
      | some c =>
        if deltaType c.ty ≠ deltaType ty then .error s!"column '{field.name}' changed type"
        else return { col := { name := field.name, ty }, live } :: (← matchColumns cols rest)
      | none => return { col := { name := field.name, ty }, live } :: (← matchColumns cols rest)

/-- Open the Delta table at `uri`, or create it from the descriptor. -/
def openOrCreate (uri : String) (existing : Option DeltaTable) (desc : TableDesc) :
    Except String DeltaSink := do
  let table := existing.getD
    { cols := desc.cols, files := [], watermarks := ⟨none, none, none⟩ }
  let known ← matchColumns desc.cols table.cols
  let deltaCols := addColumns 0 desc.cols known
  return { uri, table, arrowSchema := buildArrowSchema deltaCols, deltaCols,
           schemaDirty := known.length < deltaCols.length }

/-- Point every Delta column at its live position. Stops at the first column whose
type changed, with that column already repointed. -/
def repoint (cols : List Col) : List DeltaCol → List DeltaCol × Bool
  | [] => ([], true)
  | dc :: rest =>
    let live := cols.findIdx? (·.name = dc.col.name)
    let dc' := { dc with live }
    let typeChanged : Bool := match live.bind (cols[·]?) with
      | some c => decide (deltaType c.ty ≠ deltaType dc.col.ty)
      | none => false
    if typeChanged then (dc' :: rest, false)
    else
      let (rest', ok) := repoint cols rest
      (dc' :: rest', ok)

/-- Adjust to a new live column set; the flag is false on a type change. -/
def evolve (s : DeltaSink) (cols : List Col) : DeltaSink × Bool :=
  let (dcs, ok) := repoint cols s.deltaCols
  if ok then
    let dcs' := addColumns 0 cols dcs
    ({ s with
       deltaCols := dcs'
       schemaDirty := s.schemaDirty || decide (dcs.length < dcs'.length)
       arrowSchema := buildArrowSchema dcs' }, true)
  else ({ s with deltaCols := dcs }, false)

/-! ## Rebuilding the mirror -/

/-- Newest entry per address so far: its version, tombstone flag, and row. -/
abbrev LatestByCtid := Map Ctid ((Lsn ×ₗ Nat) × Bool × Row)

def loadEntry (desc : TableDesc) (b : RecordBatch) (latest : LatestByCtid) (e : EmitRow) :
    LatestByCtid :=
  let entry := (e.version, e.deleted, desc.cols.map fun c => b.cell e c.name)
  match latest.lookup e.ctid with
  | some (v, _, _) => if e.version ≤ v then latest else latest.insert e.ctid entry
  | none => latest.insert e.ctid entry

def loadLatest (s : DeltaSink) (desc : TableDesc) : LatestByCtid :=
  s.table.files.foldl (fun acc b => b.rows.foldl (loadEntry desc b) acc) ∅

/-- The latest entry per address, tombstones removed. -/
def loadMirror (dec : TupleDecoder) (s : DeltaSink) (desc : TableDesc) : Map Ctid RowVersion :=
  (s.loadLatest desc).entries.foldr (fun e mirror =>
    if e.2.2.1 then mirror
    else mirror.insert e.1 { row := e.2.2.2, attrs := dec.encodeAttrs e.2.2.2 desc }) ∅

/-! ## Compaction -/

private def hexDigit (n : Nat) : Char := "0123456789abcdef".toList.getD n '0'

def hexOf (b : Bytes) : String :=
  String.ofList (b.flatMap fun x => [hexDigit (x.toNat / 16), hexDigit (x.toNat % 16)])

/-- The grouping key of a cell. `none` is the panic of the downcast of a date array
to an int array. -/
def arrowCellKey (ty : PgType) : Option Value → Option String
  | none => some "\x00NULL"
  | some v =>
    match ty, v with
    | .date, _ => none
    | _, .bool b => some (if b then "1" else "0")
    | _, .i16 x | _, .i32 x | _, .i64 x => some (toString x)
    | _, .f32 bits => some (toString bits.toNat)
    | _, .f64 bits => some (toString bits.toNat)
    | _, .text s => some s
    | _, .bytes b => some (hexOf b)

/-- A stored row conformed to the current columns. -/
structure StoredRow where
  entry : EmitRow
  cells : List (Option Value)
  deriving DecidableEq, Repr

def storedRows (s : DeltaSink) : List StoredRow :=
  s.table.files.flatMap fun b => b.rows.map fun e =>
    { entry := e, cells := s.deltaCols.map fun dc => b.cell e dc.col.name }

def rowKey (pk : List (Nat × PgType)) (r : StoredRow) : Option String :=
  pk.foldlM (fun key (ci, ty) => do
    return key ++ (← arrowCellKey ty (r.cells[ci]?).join) ++ "\x1f") ""

/-- The newest row of every key: version, row index as a `u32`, tombstone flag. -/
abbrev BestByKey := Map String ((Lsn ×ₗ Nat) × Nat × Bool)

def bestStep (pk : List (Nat × PgType)) (best : BestByKey) (ri : StoredRow × Nat) :
    Option BestByKey := do
  let key ← rowKey pk ri.1
  let entry := (ri.1.entry.version, ri.2 % 2 ^ 32, ri.1.entry.deleted)
  match best.lookup key with
  | some (v, _, _) =>
    if ri.1.entry.version ≤ v then return best else return best.insert key entry
  | none => return best.insert key entry

/-- The positions of the primary-key columns among the Delta columns. -/
def pkIdx (s : DeltaSink) (desc : TableDesc) : List Nat :=
  desc.pk.filterMap fun n => s.deltaCols.findIdx? (·.col.name = n)

/-- Their types. `none` is the `unwrap` of a key column that is not among the live ones. -/
def pkTypes (desc : TableDesc) : Option (List PgType) :=
  desc.pk.mapM fun n => (desc.cols.find? (·.name = n)).map (·.ty)

inductive CompactOutcome where
  | skipped
  | panicked
  | done (s : DeltaSink) (before after : Nat)

/-- The compacted file: the rows as they were conformed, under the current columns. -/
def compactedFile (s : DeltaSink) (rows : List StoredRow) : RecordBatch where
  cols := s.deltaCols.mapIdx fun i dc => { dc with live := some i }
  rows := rows.map fun r => { r.entry with row := r.cells }

/-- Replace the change log by these rows, carrying the watermarks forward. -/
def rewrite (s : DeltaSink) (desc : TableDesc) (rows : List StoredRow) : DeltaSink :=
  let w := s.table.watermarks
  { s with table := { s.table with
    files := if rows = [] then [] else [s.compactedFile rows]
    watermarks := { w with filenode := some (w.filenode.getD desc.relNode) } } }

/-- Rewrite the change log as the newest row of every key, tombstones dropped. -/
def compact (s : DeltaSink) (desc : TableDesc) : CompactOutcome :=
  if desc.pk = [] ∨ (s.pkIdx desc).length ≠ desc.pk.length then .skipped
  else
    let all := s.storedRows
    if all = [] then .skipped
    else
      let best := (pkTypes desc).bind fun types =>
        all.zipIdx.foldlM (bestStep ((s.pkIdx desc).zip types)) (∅ : BestByKey)
      match best with
      | none => .panicked
      | some best =>
        let keep := best.entries.filterMap fun e => if e.2.2.2 then none else some e.2.2.1
        let survivors := keep.insertionSort (· ≤ ·)
        if survivors.length = all.length ∧ s.table.files.length ≤ 1 then .skipped
        else .done (s.rewrite desc (survivors.filterMap (all[·]?))) all.length survivors.length

/-! ## What an append changes -/

@[simp] theorem append_log (s : DeltaSink) (rows : List EmitRow) (c r : Lsn) (f : Oid) :
    (s.append rows c r f).log = s.log ++ rows := by
  simp [append, log, DeltaTable.log, makeBatch]

@[simp] theorem append_uri (s : DeltaSink) (rows : List EmitRow) (c r : Lsn) (f : Oid) :
    (s.append rows c r f).uri = s.uri := rfl

@[simp] theorem append_watermarks (s : DeltaSink) (rows : List EmitRow) (c r : Lsn) (f : Oid) :
    (s.append rows c r f).table.watermarks = ⟨some c, some r, some f⟩ := rfl

end DeltaSink

end Ltap
