-- SUMMARY: Table descriptors from the pages of `pg_class`, `pg_attribute` and `pg_index` (`catalog.rs`).
import OpenLtap.Base.Keyed
import OpenLtap.Base.Utf8
import OpenLtap.Page.Clog
import OpenLtap.Page.Reconstruct

/-!
# The catalog on its pages

The catalogs are heap relations. Every visible tuple on their pages is a row, in the order of
the pages. A table is looked up in the rows by its name.
-/

namespace Ltap

def pgIndexOid : Oid := 2610

/-- The oid of the namespace `public`. -/
def publicNamespaceOid : Oid := 2200

/-- The `relkind` of an ordinary table. -/
def relkindTable : UInt8 := 0x72

/-- Where the pages of the main forks of one database come from, as of one LSN. -/
structure PageSource where
  db : Oid
  relNblocks : Oid → Except Fault Nat
  getPage : Oid → Nat → Except Fault Bytes
  relPages : Oid → Except Fault (List Bytes) := fun filenode => do
    let n ← relNblocks filenode
    (List.range n).mapM (getPage filenode)

/-- The filenodes that are known before `pg_class` can be read. -/
structure MappedRels where
  pgClass : Oid
  pgAttribute : Oid
  pgIndex : Option Oid

/-! ## Tuples of a page -/

structure CatalogTuple where
  xmin : Xid
  xmax : Xid
  infomask : Nat
  /-- The bytes from `t_hoff` on. -/
  attrs : Bytes
  deriving DecidableEq, Repr

/-- The tuple of the line pointer at this offset, if the pointer is normal. -/
def pageTuple (page : Bytes) (lpOff : Nat) : Option CatalogTuple :=
  let lp := fromLe ((page.drop lpOff).take 4)
  let off := lp &&& 0x7FFF
  let flags := (lp >>> 15) &&& 3
  let len := lp >>> 17
  if flags ≠ lpNormal ∨ off + len > pageSize ∨ len < 23 then none
  else
    let tup := (page.drop off).take len
    let tHoff := (tup.getD 22 0).toNat
    if tHoff ≤ len then
      some {
        xmin := fromLe (tup.take 4), xmax := fromLe ((tup.drop 4).take 4)
        infomask := fromLe ((tup.drop 20).take 2), attrs := tup.drop tHoff }
    else none

def pageTuples (page : Bytes) : List CatalogTuple :=
  if page.length ≠ pageSize then []
  else
    let pdLower := fromLe ((page.drop 12).take 2)
    -- Every fourth offset from 24 up to the end of the line pointers.
    (List.range ((min pdLower pageSize - 24 + 3) / 4)).filterMap fun i => pageTuple page (24 + 4 * i)

/-- The visible tuples. One whose visibility is unknown is left out with a warning. -/
def visibleTuples (clog : ClogSource) : List CatalogTuple → Except Fault (List Bytes)
  | [] => .ok []
  | t :: ts =>
    match clog.tupleVisible t.xmin t.xmax t.infomask with
    | .error .panic => .error .panic
    | .ok true => do
      let rest ← visibleTuples clog ts
      return t.attrs :: rest
    | .ok false | .error (.error _) => visibleTuples clog ts

def scan (src : PageSource) (clog : ClogSource) (filenode : Oid) : Except Fault (List Bytes) := do
  let pages ← src.relPages filenode
  visibleTuples clog (pages.flatMap pageTuples)

/-! ## Rows -/

/-- A name in 64 bytes, up to the first zero. -/
def name64 (b : Bytes) : String := Utf8.lossy (b.take ((b.findIdx? (· = 0)).getD (min b.length 64)))

def leAt (a : Bytes) (off n : Nat) : Option Nat := (slice a off n).map fromLe

structure ClassRow where
  oid : Oid
  name : String
  nspOid : Oid
  filenode : Oid
  toastrelid : Oid
  relkind : UInt8
  natts : Int
  deriving DecidableEq, Repr

def parsePgClass (a : Bytes) : Option ClassRow := do
  let oid ← leAt a 0 4
  let name ← slice a 4 64
  let nspOid ← leAt a 68 4
  let filenode ← leAt a 88 4
  let toastrelid ← leAt a 108 4
  let relkind ← a[115]?
  let natts ← leAt a 116 2
  return { oid, name := name64 name, nspOid, filenode, toastrelid, relkind, natts := fromTwos 16 natts }

structure AttRow where
  attrelid : Oid
  name : String
  typid : Oid
  attlen : Int
  attnum : Int
  attalign : UInt8
  hasmissing : Bool
  isdropped : Bool
  deriving DecidableEq, Repr

def parsePgAttribute (a : Bytes) : Option AttRow := do
  let attrelid ← leAt a 0 4
  let name ← slice a 4 64
  let typid ← leAt a 68 4
  let attlen ← leAt a 72 2
  let attnum ← leAt a 74 2
  let attalign ← a[87]?
  let hasmissing : UInt8 ← a[92]?
  let isdropped : UInt8 ← a[95]?
  return {
    attrelid, name := name64 name, typid, attlen := fromTwos 16 attlen, attnum := fromTwos 16 attnum
    attalign, hasmissing := hasmissing != 0, isdropped := isdropped != 0 }

structure IndexRow where
  indrelid : Oid
  isprimary : Bool
  keyAttnums : List Int
  deriving DecidableEq, Repr

/-- The key columns of an index. The columns behind them are only included. -/
def parsePgIndex (a : Bytes) : Option IndexRow := do
  let indrelid ← leAt a 4 4
  let nkeyatts ← leAt a 10 2
  let isprimary : UInt8 ← a[14]?
  let dim1 ← leAt a 40 4
  let nkeys := min (max (fromTwos 16 nkeyatts) 0) (max (fromTwos 32 dim1) 0)
  let keyAttnums ← (List.range nkeys.toNat).mapM fun i => (leAt a (48 + i * 2) 2).map (fromTwos 16)
  return { indrelid, isprimary := isprimary != 0, keyAttnums }

/-! ## Descriptors -/

/-- `PgType::from_oid`. -/
def PgType.fromOid : Oid → Except Fault PgType
  | 16 => .ok .bool
  | 21 => .ok .int2
  | 23 => .ok .int4
  | 20 => .ok .int8
  | 700 => .ok .float4
  | 701 => .ok .float8
  | 25 | 1043 | 1042 => .ok .text
  | 114 | 142 => .ok .text
  | 17 => .ok .bytea
  | 2950 => .ok .uuid
  | 1700 => .ok .numeric
  | 3802 => .ok .jsonb
  | 1082 => .ok .date
  | 1114 => .ok .timestamp
  | 1184 => .ok .timestampTz
  | other => bail s!"unsupported column type oid {other} (supported: bool/int2/int4/int8/float4/float8/text/varchar/bytea/uuid/numeric/jsonb/date/timestamp/timestamptz)"

/-- The columns and slots of attributes in order, and whether a live one has a fast default. -/
def columnsOf (align : UInt8 → Except Fault Nat) (type : AttRow → Except Fault PgType) :
    List AttRow → Except Fault (List Col × List PhysCol × Bool)
  | [] => .ok ([], [], false)
  | a :: atts => do
    if a.isdropped then
      let align' ← align a.attalign
      let rest ← columnsOf align type atts
      return (rest.1, .dropped a.attlen align' :: rest.2.1, rest.2.2)
    else
      let ty ← type a
      let rest ← columnsOf align type atts
      return (⟨a.name, ty⟩ :: rest.1, .live ⟨a.name, ty⟩ :: rest.2.1, a.hasmissing || rest.2.2)

def attalignOf (c : UInt8) : Except Fault Nat :=
  if c = 0x63 then .ok 1
  else if c = 0x73 then .ok 2
  else if c = 0x69 then .ok 4
  else if c = 0x64 then .ok 8
  else bail s!"attalign '{Char.ofNat c.toNat}'?"

/-- The catalog of one database, as its pages have it. -/
structure PageCatalog where
  db : Oid
  classRows : List ClassRow
  attRows : List AttRow
  indexRows : List IndexRow

namespace PageCatalog

def load (src : PageSource) (clog : ClogSource) (mapped : MappedRels) : Except Fault PageCatalog := do
  let classRows := (← scan src clog mapped.pgClass).filterMap parsePgClass
  let attRows := (← scan src clog mapped.pgAttribute).filterMap parsePgAttribute
  let indexNode := mapped.pgIndex.or
    (((classRows.find? (·.oid = pgIndexOid)).map (·.filenode)).filter (· ≠ 0))
  match indexNode with
  | some node =>
    let indexRows := (← scan src clog node).filterMap parsePgIndex
    return { db := src.db, classRows, attRows, indexRows }
  | none => return { db := src.db, classRows, attRows, indexRows := [] }

variable (c : PageCatalog)

/-- The ordinary tables of `public`. -/
def tableNames : List String :=
  (c.classRows.filter fun r => r.relkind = relkindTable ∧ r.nspOid = publicNamespaceOid).map (·.name)

def toastRelNode (cls : ClassRow) : Option Oid :=
  if cls.toastrelid ≠ 0 then (c.classRows.find? (·.oid = cls.toastrelid)).map (·.filenode) else none

def atts (cls : ClassRow) : List AttRow :=
  (Keyed.orderBy (·.attnum) (c.attRows.filter fun a => a.attrelid = cls.oid ∧ a.attnum ≥ 1)).destutter
    (fun a b => a.attnum ≠ b.attnum)

def pkName (table : String) (atts : List AttRow) (attnum : Int) : Except Fault String :=
  match atts.find? fun a => a.attnum = attnum ∧ ¬ a.isdropped with
  | none => bail s!"pk attnum {attnum} of '{table}' not a live column"
  | some a => .ok a.name

def pk (table : String) (cls : ClassRow) (atts : List AttRow) : Except Fault (List String) :=
  match c.indexRows.find? fun i => i.indrelid = cls.oid ∧ i.isprimary with
  | none => .ok []
  | some idx => idx.keyAttnums.mapM (pkName table atts)

/-- The descriptor of the table of this row. -/
def descOf (table : String) (cls : ClassRow) : Except Fault TableDesc :=
  let atts := c.atts cls
  if (atts.length : Int) ≠ cls.natts then
    bail s!"pg_attribute yielded {atts.length} atts for '{table}', pg_class.relnatts says {cls.natts}"
  else do
    let columns ← columnsOf attalignOf (PgType.fromOid ·.typid) atts
    let pk ← c.pk table cls atts
    return {
      name := table, oid := cls.oid, dbOid := c.db, relNode := cls.filenode
      toastRelNode := c.toastRelNode cls
      cols := columns.1, phys := columns.2.1, hasFastDefaults := columns.2.2, pk }

/-- The descriptor of the first ordinary table of this name. -/
def desc (table : String) : Except Fault TableDesc :=
  match c.classRows.find? fun r => r.name = table ∧ r.relkind = relkindTable with
  | none => bail s!"table '{table}' not found in pg_class pages"
  | some cls => c.descOf table cls

end PageCatalog

end Ltap
