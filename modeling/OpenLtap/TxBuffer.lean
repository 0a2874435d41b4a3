-- SUMMARY: Per-transaction change buffering (`txbuf.rs`).
import Mathlib.Data.List.Sort
import OpenLtap.Wal.Heap

/-!
# The transaction buffer

Ops of open transactions wait in `TxBuffer` until their transaction ends. Each
open transaction keeps an overlay of its own uncommitted row versions. The order
in which a hash map hands out its entries is the order of the map's entry list.
-/

namespace Ltap

/-- An address as the `_ltap_ctid` column has it. Blocks have 32 bits and offsets 16, so the
`i64` is never negative. -/
def packCtid : Ctid → Nat
  | (blk, off) => blk <<< 16 ||| off

def unpackCtid (packed : Nat) : Ctid := ((packed >>> 16) % 2 ^ 32, (packed &&& 0xFFFF) % 2 ^ 16)

/-- Change rows therefore carry their address itself here. -/
theorem unpackCtid_packCtid {ctid : Ctid} (hblk : ctid.1 < 2 ^ 32) (hoff : ctid.2 < 2 ^ 16) :
    unpackCtid (packCtid ctid) = ctid := by
  obtain ⟨blk, off⟩ := ctid
  have hpack : packCtid (blk, off) = blk * 2 ^ 16 + off := by
    rw [packCtid, ← Nat.shiftLeft_add_eq_or_of_lt hoff, Nat.shiftLeft_eq]
  have hand : (blk * 2 ^ 16 + off) &&& 0xFFFF = (blk * 2 ^ 16 + off) % 2 ^ 16 :=
    Nat.and_two_pow_sub_one_eq_mod _ 16
  rw [hpack, unpackCtid, hand, Nat.shiftRight_eq_div_pow]
  simp only at hblk hoff
  refine Prod.ext ?_ ?_
  · simp only
    omega
  · simp only
    omega

/-- A row version: decoded values and the on-page attribute bytes, if known. -/
structure RowVersion where
  row : Row
  attrs : Option Bytes
  deriving DecidableEq, Repr

inductive Op where
  | insert (ctid : Ctid) (ver : RowVersion)
  | update (oldCtid ctid : Ctid) (ver : RowVersion)
  | delete (ctid : Ctid) (oldRow : Option Row)
  deriving DecidableEq, Repr

structure PendingOp where
  lsn : Lsn
  /-- Index into the tracked tables. -/
  table : Nat
  op : Op
  deriving DecidableEq, Repr

structure OpenTx where
  firstLsn : Lsn
  ops : List PendingOp
  overlay : Map (Nat × Ctid) RowVersion

structure TxBuffer where
  openTxs : Map Xid OpenTx

namespace TxBuffer

def empty : TxBuffer := ⟨∅⟩

/-- The effect of an op on its transaction's overlay. -/
def overlayOp (table : Nat) (overlay : Map (Nat × Ctid) RowVersion) :
    Op → Map (Nat × Ctid) RowVersion
  | .insert ctid ver => overlay.insert (table, ctid) ver
  | .update oldCtid ctid ver => (overlay.erase (table, oldCtid)).insert (table, ctid) ver
  | .delete ctid _ => overlay.erase (table, ctid)

def addOp (b : TxBuffer) (xid : Xid) (lsn : Lsn) (table : Nat) (op : Op) : TxBuffer :=
  let tx := (b.openTxs.lookup xid).getD { firstLsn := lsn, ops := [], overlay := ∅ }
  ⟨b.openTxs.insert xid { tx with
    overlay := overlayOp table tx.overlay op
    ops := tx.ops ++ [{ lsn, table, op }] }⟩

/-- An uncommitted version of a row in any open transaction. -/
def lookup (b : TxBuffer) (table : Nat) (ctid : Ctid) : Option RowVersion :=
  b.openTxs.entries.findSome? fun e => e.2.overlay.lookup (table, ctid)

/-- The buffered ops of a transaction. -/
def opsOf (b : TxBuffer) (xid : Xid) : List PendingOp :=
  ((b.openTxs.lookup xid).map (·.ops)).getD []

/-- Forget a transaction. -/
def remove (b : TxBuffer) (xid : Xid) : TxBuffer := ⟨b.openTxs.erase xid⟩

/-- Take the ops of `xid` and then of each subtransaction out of the buffer. -/
def drain (b : TxBuffer) : List Xid → List PendingOp × TxBuffer
  | [] => ([], b)
  | xid :: rest =>
    let (ops, b') := (b.remove xid).drain rest
    (b.opsOf xid ++ ops, b')

/-- The drained transactions are gone, and the others are as they were. -/
theorem drain_lookup (b : TxBuffer) (xs : List Xid) (x : Xid) :
    (b.drain xs).2.openTxs.lookup x = if x ∈ xs then none else b.openTxs.lookup x := by
  induction xs generalizing b with
  | nil => rfl
  | cons y ys ih =>
    refine (ih (b.remove y)).trans ?_
    by_cases hy : x = y
    · rw [if_pos (List.mem_cons.mpr (.inl hy)), remove, hy, AList.lookup_erase, ite_self]
    · rw [remove, AList.lookup_erase_ne hy]
      simp only [List.mem_cons, hy, false_or]

/-- The transaction committed: its ops and those of its subtransactions in WAL order. -/
def commit (b : TxBuffer) (xid : Xid) (subxids : List Xid) : List PendingOp × TxBuffer :=
  let (ops, b') := b.drain (xid :: subxids)
  (ops.insertionSort (·.lsn ≤ ·.lsn), b')

/-- The transaction aborted, or a savepoint was rolled back: the number of dropped ops. -/
def abort (b : TxBuffer) (xid : Xid) (subxids : List Xid) : Nat × TxBuffer :=
  let (ops, b') := b.drain (xid :: subxids)
  (ops.length, b')

/-- First-change LSN of the oldest open transaction. -/
def oldestFirstLsn (b : TxBuffer) : Option Lsn :=
  (b.openTxs.entries.map (·.2.firstLsn)).min?

end TxBuffer

end Ltap
