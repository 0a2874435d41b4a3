-- SUMMARY: Table descriptors and decoded values, as `schema.rs` and `wal/heap.rs` define them.
import Mathlib.Algebra.Ring.Nat
import Mathlib.Data.Finset.Basic

/-!
# Descriptors and rows

The data that flows through the transcoder: column types, the descriptor of a
tracked table, decoded values, and the physical address of a tuple. Machine
integers are `Nat` or `Int` here; nothing in this file does arithmetic on them.
-/

namespace Ltap

/-- A WAL position. -/
abbrev Lsn := Nat

/-- A (sub)transaction id. -/
abbrev Xid := Nat

/-- A catalog oid or a relfilenode. -/
abbrev Oid := Nat

abbrev Bytes := List UInt8

/-- (block number, line-pointer offset): a tuple's physical address. -/
abbrev Ctid := Nat × Nat

inductive PgType where
  | bool
  | int2
  | int4
  | int8
  | float4
  | float8
  | text
  | bytea
  | uuid
  | numeric
  | jsonb
  | date
  | timestamp
  | timestampTz
  deriving DecidableEq, Repr

structure Col where
  name : String
  ty : PgType
  deriving DecidableEq, Repr

/-- One physical attribute slot as tuples store them. Dropped columns keep their
width and alignment so that tuples remain walkable. -/
inductive PhysCol where
  | live (col : Col)
  | dropped (attlen : Int) (align : Nat)
  deriving DecidableEq, Repr

structure TableDesc where
  name : String
  /-- The stable identity of the table. A rename changes `name`, a rewrite changes
  `relNode`, and neither changes the oid. -/
  oid : Oid
  dbOid : Oid
  relNode : Oid
  toastRelNode : Option Oid
  /-- Live columns in attnum order: the shape of a row. -/
  cols : List Col
  /-- All attribute slots in attnum order: the layout of a tuple. -/
  phys : List PhysCol
  hasFastDefaults : Bool
  /-- Primary-key column names in key order, empty without a primary key. -/
  pk : List String
  deriving DecidableEq, Repr

/-- A decoded value. Floats are their bit patterns. -/
inductive Value where
  | bool (b : Bool)
  | i16 (x : Int)
  | i32 (x : Int)
  | i64 (x : Int)
  | f32 (bits : BitVec 32)
  | f64 (bits : BitVec 64)
  | text (s : String)
  | bytes (b : Bytes)
  deriving DecidableEq, Repr

/-- Values in the order of the live columns. -/
abbrev Row := List (Option Value)

/-- The value under a column name, by the position of that column in `cols`. -/
def Row.get (cols : List Col) (row : Row) (name : String) : Option Value :=
  (cols.findIdx? (·.name = name)).bind fun i => (row[i]?).join

/-- The primary-key tuple of a row. -/
def TableDesc.keyOf (desc : TableDesc) (row : Row) : List (Option Value) :=
  desc.pk.map (Row.get desc.cols row)

end Ltap
