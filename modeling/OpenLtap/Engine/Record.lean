-- SUMMARY: Routing and decoding of one WAL record, and what it does to the engine (`Engine::handle_record`).
import OpenLtap.Engine.State

/-!
# Handling a record

`handle_record` first works out what a record means for the tracked tables and
then changes the state. The two halves are separate here: `effectOf` routes and
decodes without touching the state, and `applyEffect` performs the change.
-/

namespace Ltap

/-- What a record does to the engine. -/
inductive Effect where
  /-- Untracked, unparseable, or without a row change. -/
  | skip
  /-- The transaction created a relation or wrote to the catalogs. -/
  | suspect (xid : Xid)
  | toastChunk (xid : Xid) (valueid : Oid) (seq : Int) (data : Bytes)
  /-- Row changes of one record, in order. -/
  | ops (xid : Xid) (table : Nat) (ops : List Op)
  /-- The tuple has more attributes than the table's descriptor. -/
  | drift (table : Nat)
  | commit (xid : Xid) (subxids : List Xid)
  | abort (xid : Xid) (subxids : List Xid)
  deriving DecidableEq, Repr

namespace Engine

variable (dec : TupleDecoder)

/-- An open transaction's own version wins over the last committed one. -/
def preimage (e : Engine) (table : Nat) (ctid : Ctid) : Option RowVersion :=
  (e.txbuf.lookup table ctid).or ((e.tables[table]?).bind (·.mirror.lookup ctid))

/-- The row changes of a record, or what `note_decode_error` makes of a failure: only
schema drift has an effect beyond the log line. -/
def tableEffect (xid : Xid) (table : Nat) : Except DecodeError (List Op) → Effect
  | .ok ops => .ops xid table ops
  | .error .schemaDrift => .drift table
  | .error (.other _) => .skip

/-- A record of a catalog relation marks its transaction. -/
def catalogEffect (rec : Record) : Effect :=
  if rec.xid ≠ 0 then .suspect rec.xid else .skip

def writesCatalog (e : Engine) (block0 : BlockRef) : Bool :=
  block0.rel.db = e.dbOid && block0.rel.rel ∈ e.catalogRels

/-- The tracked table of a relfilenode. -/
def tableOf (e : Engine) (rel : Oid) : Option (Nat × Table) :=
  (e.relToTable.lookup rel).bind fun ti => (e.tables[ti]?).map fun t => (ti, t)

/-! ## HEAP records -/

/-- The chunk of an out-of-line value that an insert into a toast relation carries. -/
def toastChunkOf (rec : Record) (block0 : BlockRef) (fmt : HeapFmt) :
    Except DecodeError (Oid × Int × Bytes) :=
  if block0.data ≠ [] then dec.decodeToastChunkFromWal block0.data fmt
  else match block0.image with
    | some img => do
      let page ← dec.restore img
      dec.decodeToastChunkFromPage page (← insertOffnum rec.mainData)
    | none => .error (.other "toast insert with neither data nor image")

def toastInsertEffect (rec : Record) (block0 : BlockRef) (fmt : HeapFmt) : Effect :=
  match toastChunkOf dec rec block0 fmt with
  | .ok (valueid, seq, data) => .toastChunk rec.xid valueid seq data
  | .error _ => .skip

def insertChange (e : Engine) (rec : Record) (block0 : BlockRef) (t : Table) (fmt : HeapFmt) :
    Except DecodeError (List Op) := do
  let (row, attrs) ←
    if block0.data ≠ [] then dec.decodeInsertTuple block0.data t.desc e.toast fmt
    else match block0.image with
      | some img => do
        let page ← dec.restore img
        dec.decodeTupleFromPage page (← insertOffnum rec.mainData) t.desc e.toast
      | none => .error (.other "insert with neither data nor image")
  let offnum ← insertOffnum rec.mainData
  return [.insert (block0.blkno, offnum) { row, attrs := some attrs }]

/-- The page of a block just before the record, from the oracle. -/
def oraclePage (e : Engine) (rel : RelTag) (blkno : Nat) (lsn : Lsn) : Option Bytes :=
  e.oracle.bind fun page => page rel blkno lsn

def deleteChange (e : Engine) (lsn : Lsn) (rec : Record) (block0 : BlockRef) (ti : Nat)
    (t : Table) : Except DecodeError (List Op) := do
  let offnum ← deleteOffnum rec.mainData
  let ctid := (block0.blkno, offnum)
  let fromPage := (e.oraclePage block0.rel block0.blkno lsn).bind fun page =>
    (dec.decodeTupleFromPage page offnum t.desc e.toast).toOption.map (·.1)
  let oldRow := ((e.preimage ti ctid).map (·.row)).or fromPage
  return [.delete ctid oldRow]

/-- `handle_update`: find the pre-image and rebuild the new tuple from it. -/
def updateChange (e : Engine) (lsn : Lsn) (rec : Record) (block0 : BlockRef) (ti : Nat)
    (t : Table) (fmt : HeapFmt) : Except DecodeError (List Op) := do
  let info ← parseUpdateMain rec.mainData fmt
  -- Block 0 is the new tuple's page, block 1 the old one if it differs.
  let oldBlock := (rec.blocks.find? (·.id = 1)).getD block0
  let oldCtid := (oldBlock.blkno, info.oldOffnum)
  let newCtid := (block0.blkno, info.newOffnum)
  let pre := e.preimage ti oldCtid
  let page := e.oraclePage oldBlock.rel oldBlock.blkno lsn
  let oldAttrs := (pre.bind (·.attrs)).or
    (page.bind fun p => (dec.rawAttrsFromPage p info.oldOffnum).toOption)
  let oldRow := (pre.map (·.row)).or
    (page.bind fun p =>
      (dec.decodeTupleFromPage p info.oldOffnum t.desc e.toast).toOption.map (·.1))
  let (row, attrs) ←
    if block0.data ≠ [] then
      dec.decodeUpdateNewTuple block0.data info.flags oldAttrs oldRow t.desc e.toast fmt
    else match block0.image with
      | some img => do
        let p ← dec.restore img
        dec.decodeTupleFromPage p info.newOffnum t.desc e.toast
      | none => .error (.other "update with neither data nor image")
  return [.update oldCtid newCtid { row, attrs := some attrs }]

/-- The changes of a HEAP record to a tracked table. Other opcodes make none. -/
def heapChange (e : Engine) (lsn : Lsn) (rec : Record) (op : Nat) (fmt : HeapFmt)
    (block0 : BlockRef) (ti : Nat) (t : Table) : Except DecodeError (List Op) :=
  if op = xlogHeapInsert then e.insertChange dec rec block0 t fmt
  else if op = xlogHeapDelete then e.deleteChange dec lsn rec block0 ti t
  else if op = xlogHeapUpdate ∨ op = xlogHeapHotUpdate then
    e.updateChange dec lsn rec block0 ti t fmt
  else .ok []

def heapEffect (e : Engine) (lsn : Lsn) (rec : Record) (op : Nat) (fmt : HeapFmt) : Effect :=
  match rec.blocks.find? (·.id = 0) with
  | none => .skip
  | some block0 =>
    if e.writesCatalog block0 then catalogEffect rec
    else if op = xlogHeapInsert ∧ block0.rel.rel ∈ e.toastRels then
      toastInsertEffect dec rec block0 fmt
    else
      match e.tableOf block0.rel.rel with
      | none => .skip
      | some (ti, t) => tableEffect rec.xid ti (e.heapChange dec lsn rec op fmt block0 ti t)

/-! ## HEAP2 records -/

def multiInsertChange (e : Engine) (rec : Record) (block0 : BlockRef) (t : Table)
    (fmt : HeapFmt) : Except DecodeError (List Op) := do
  let rows ←
    if block0.data ≠ [] then dec.decodeMultiInsert block0.data rec.mainData t.desc e.toast
    else match block0.image with
      | some img => do
        let page ← dec.restore img
        (← multiInsertOffsets rec.mainData rec.info fmt).mapM fun off =>
          dec.decodeTupleFromPage page off t.desc e.toast
      | none => .error (.other "multi-insert with neither data nor image")
  let offsets ← multiInsertOffsets rec.mainData rec.info fmt
  if rows.length = offsets.length then
    return (rows.zip offsets).map fun ((row, attrs), offnum) =>
      .insert (block0.blkno, offnum) { row, attrs := some attrs }
  else .error (.other "multi-insert: rows vs offsets")

def heap2Effect (e : Engine) (rec : Record) (op : Nat) (fmt : HeapFmt) : Effect :=
  if op ≠ xlogHeap2MultiInsert then .skip
  else
    match rec.blocks.find? (·.id = 0) with
    | none => .skip
    | some block0 =>
      if e.writesCatalog block0 then catalogEffect rec
      else
        match e.tableOf block0.rel.rel with
        | none => .skip
        | some (ti, t) => tableEffect rec.xid ti (e.multiInsertChange dec rec block0 t fmt)

/-! ## SMGR and XACT records -/

def smgrEffect (e : Engine) (rec : Record) : Effect :=
  if rec.info &&& 0xF0 = xlogSmgrCreate then
    match parseSmgrCreate rec.mainData with
    | .ok (some (db, _)) => if db = e.dbOid ∧ rec.xid ≠ 0 then .suspect rec.xid else .skip
    | _ => .skip
  else .skip

/-- Only one-phase commits and aborts are outcomes here. -/
def xactEffect (rec : Record) : Effect :=
  let op := rec.info &&& xlogXactOpmask
  let subxids := (parseXactSubxacts rec.info rec.mainData).toOption.getD []
  if op = xlogXactCommit then .commit rec.xid subxids
  else if op = xlogXactAbort then .abort rec.xid subxids
  else .skip

def effectOf (e : Engine) (lsn : Lsn) (rec : Record) : Effect :=
  match normalizeDml rec.rmid rec.info with
  | none => .skip
  | some (rmid, op, fmt) =>
    if rmid = Rmgr.smgr then e.smgrEffect rec
    else if rmid = Rmgr.heap then e.heapEffect dec lsn rec op fmt
    else if rmid = Rmgr.heap2 then e.heap2Effect dec rec op fmt
    else if rmid = Rmgr.xact then xactEffect rec
    else .skip

/-! ## Performing the effect -/

/-- Schema drift schedules a catalog check and a re-snapshot of the table. -/
def noteDrift (e : Engine) (lsn : Lsn) (table : Nat) : Engine :=
  { e with
    tables := e.tables.modify table fun t => { t with needsResnapshot := true }
    remapAt := some (e.remapAt.getD lsn) }

def addOps (b : TxBuffer) (xid : Xid) (lsn : Lsn) (table : Nat) (ops : List Op) : TxBuffer :=
  ops.foldl (fun b op => b.addOp xid lsn table op) b

def applyEffect (e : Engine) (now : Instant) (lsn : Lsn) : Effect → Engine
  | .skip => e
  | .suspect xid => { e with smgrSuspects := insert xid e.smgrSuspects }
  | .toastChunk xid valueid seq data => { e with toast := e.toast.addChunk xid valueid seq data }
  | .ops xid table ops => { e with txbuf := addOps e.txbuf xid lsn table ops }
  | .drift table => e.noteDrift lsn table
  | .commit xid subxids => e.handleCommit now lsn xid subxids
  | .abort xid subxids => e.handleAbort xid subxids

def handleRecord (e : Engine) (now : Instant) (lsn : Lsn) (rec : Record) : Engine :=
  e.applyEffect now lsn (e.effectOf dec lsn rec)

end Engine

end Ltap
