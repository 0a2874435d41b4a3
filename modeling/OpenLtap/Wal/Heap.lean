-- SUMMARY: Heap and transaction records: opcodes, main-data parsers, the toast cache, and the tuple decoders the engine calls (`wal/heap.rs`).
import Mathlib.Data.List.AList
import OpenLtap.Wal.Record

/-!
# Heap records

The parsers of the fixed-size parts of heap, smgr, and transaction records, and
the buffer of toast chunks. The decoding of tuple bodies is gathered in
`TupleDecoder`: the engine is stated over any such decoder.
-/

namespace Ltap

/-- A finite map with the nodup invariant of its keys built in; the model of `HashMap`. -/
abbrev Map (κ υ : Type) := AList fun _ : κ => υ

/-! ## Opcodes -/

def xlogHeapOpmask : Nat := 0x70
def xlogHeapInsert : Nat := 0x00
def xlogHeapDelete : Nat := 0x10
def xlogHeapUpdate : Nat := 0x20
def xlogHeapHotUpdate : Nat := 0x40
def xlogHeap2MultiInsert : Nat := 0x50
def xlogHeapInitPage : Nat := 0x80
def xlogXactOpmask : Nat := 0x70
def xlogXactCommit : Nat := 0x00
def xlogXactAbort : Nat := 0x20
def xlogXactHasInfo : Nat := 0x80
def xlogSmgrCreate : Nat := 0x10

/-- The dialect a DML record was logged in. -/
inductive HeapFmt where
  | vanilla
  | neon
  deriving DecidableEq, Repr

/-- Map (rmid, info) onto the vanilla (rmid, op) space. `none` is a Neon record that
changes no row. -/
def normalizeDml (rmid info : Nat) : Option (Nat × Nat × HeapFmt) :=
  let rawOp := info &&& xlogHeapOpmask
  if rmid = Rmgr.neon then
    if rawOp = 0x00 then some (Rmgr.heap, xlogHeapInsert, .neon)
    else if rawOp = 0x10 then some (Rmgr.heap, xlogHeapDelete, .neon)
    else if rawOp = 0x20 then some (Rmgr.heap, xlogHeapUpdate, .neon)
    else if rawOp = 0x30 then some (Rmgr.heap, xlogHeapHotUpdate, .neon)
    else if rawOp = 0x50 then some (Rmgr.heap2, xlogHeap2MultiInsert, .neon)
    else none
  else some (rmid, rawOp, .vanilla)

/-! ## Main data -/

inductive DecodeError where
  /-- The tuple has more attributes than the descriptor. -/
  | schemaDrift
  | other (what : String)
  deriving DecidableEq, Repr

/-- `data.get(off..off + n)`. -/
def slice (data : Bytes) (off n : Nat) : Option Bytes :=
  if off + n ≤ data.length then some ((data.drop off).take n) else none

theorem slice_eq_none {data : Bytes} {off n : Nat} : slice data off n = none ↔ data.length < off + n := by
  unfold slice
  split <;> simp_all

theorem slice_le {data b : Bytes} {off n : Nat} (h : slice data off n = some b) : off + n ≤ data.length := by
  unfold slice at h
  split at h
  · assumption
  · cases h

theorem slice_length {data b : Bytes} {off n : Nat} (h : slice data off n = some b) : b.length = n := by
  unfold slice at h
  split at h
  · obtain rfl := Option.some.inj h
    rw [List.length_take, List.length_drop]
    omega
  · cases h

private def readLe (data : Bytes) (off n : Nat) (what : String) : Except DecodeError Nat :=
  match slice data off n with
  | some s => .ok (fromLe s)
  | none => .error (.other what)

def deleteOffnum (mainData : Bytes) : Except DecodeError Nat :=
  readLe mainData 4 2 "delete main data too short"

def insertOffnum (mainData : Bytes) : Except DecodeError Nat :=
  readLe mainData 0 2 "insert main data too short"

structure UpdateInfo where
  oldOffnum : Nat
  newOffnum : Nat
  flags : Nat
  deriving DecidableEq, Repr

/-- Neon puts a command id after the flags, four bytes in front of the new offset. -/
def parseUpdateMain (mainData : Bytes) (fmt : HeapFmt) : Except DecodeError UpdateInfo :=
  let newOff := match fmt with
    | .vanilla => 12
    | .neon => 16
  if mainData.length < newOff + 2 then .error (.other "update main data too short")
  else .ok {
    oldOffnum := fromLe ((mainData.drop 4).take 2)
    flags := fromLe ((mainData.drop 7).take 1)
    newOffnum := fromLe ((mainData.drop newOff).take 2) }

/-- Little-endian integers of `n` bytes each; a shorter rest is dropped. -/
def chunksLe (n : Nat) : Nat → Bytes → List Nat
  | 0, _ => []
  | k + 1, bs => fromLe (bs.take n) :: chunksLe n k (bs.drop n)

@[simp] theorem chunksLe_length (n k : Nat) (bs : Bytes) : (chunksLe n k bs).length = k := by
  induction k generalizing bs with
  | zero => rfl
  | succ k ih => rw [chunksLe, List.length_cons, ih]

def multiInsertOffsets (mainData : Bytes) (info : Nat) (fmt : HeapFmt) :
    Except DecodeError (List Nat) :=
  if mainData.length < 4 then .error (.other "multi-insert main data too short")
  else
    let ntuples := fromLe ((mainData.drop 2).take 2)
    if info &&& xlogHeapInitPage ≠ 0 then .ok ((List.range ntuples).map (· + 1))
    else
      let base := match fmt with
        | .vanilla => 4
        | .neon => 8
      match slice mainData base (2 * ntuples) with
      | some arr => .ok (chunksLe 2 ntuples arr)
      | none => .error (.other "multi-insert offsets truncated")

/-- (db oid, relfilenode) of a main-fork create. -/
def parseSmgrCreate (mainData : Bytes) : Except DecodeError (Option (Oid × Oid)) :=
  if mainData.length < 16 then .error (.other "smgr create record too short")
  else
    let db := fromLe ((mainData.drop 4).take 4)
    let rel := fromLe ((mainData.drop 8).take 4)
    let fork := fromLe ((mainData.drop 12).take 4)
    .ok (if fork = 0 then some (db, rel) else none)

/-- The subtransaction list of a commit or abort record. No record has a count with the sign bit
set: the source's cast to `usize` makes it a slice that is refused, and a build with overflow
checks stops at the product before that. -/
def parseXactSubxacts (info : Nat) (mainData : Bytes) : Except DecodeError (List Xid) :=
  if info &&& xlogXactHasInfo = 0 then .ok []
  else do
    let xinfo ← readLe mainData 8 4 "xact record too short for xinfo"
    let off := if xinfo &&& 1 ≠ 0 then 20 else 12
    if xinfo &&& 2 = 0 then return []
    let n ← readLe mainData off 4 "xact record too short for nsubxacts"
    if n ≥ 2 ^ 31 then .error (.other "xact record too short for subxacts")
    else
      match slice mainData (off + 4) (4 * n) with
      | some xids => return chunksLe 4 n xids
      | none => .error (.other "xact record too short for subxacts")

theorem parseXactSubxacts_unlisted {info : Nat} {mainData xinfo : Bytes}
    (hinfo : info &&& xlogXactHasInfo ≠ 0) (hxinfo : slice mainData 8 4 = some xinfo)
    (hsub : fromLe xinfo &&& 2 = 0) : parseXactSubxacts info mainData = .ok [] := by
  simp [parseXactSubxacts, readLe, hinfo, hxinfo, hsub, bind, Except.bind, pure, Except.pure]

theorem parseXactSubxacts_listed {info : Nat} {mainData xinfo n xids : Bytes}
    (hinfo : info &&& xlogXactHasInfo ≠ 0) (hxinfo : slice mainData 8 4 = some xinfo)
    (hsub : fromLe xinfo &&& 2 ≠ 0)
    (hn : slice mainData (if fromLe xinfo &&& 1 ≠ 0 then 20 else 12) 4 = some n)
    (hlt : fromLe n < 2 ^ 31)
    (hxids : slice mainData ((if fromLe xinfo &&& 1 ≠ 0 then 20 else 12) + 4) (4 * fromLe n) = some xids) :
    parseXactSubxacts info mainData = .ok (chunksLe 4 (fromLe n) xids) := by
  simp only [parseXactSubxacts, readLe, hinfo, hxinfo, hsub, hn, hxids, bind, Except.bind,
    pure, Except.pure, if_false, if_neg (not_le.mpr hlt)]

/-! ## Toast -/

/-- Insert into a list sorted by sequence number, replacing an equal one. -/
def insertChunk (seq : Int) (data : Bytes) : List (Int × Bytes) → List (Int × Bytes)
  | [] => [(seq, data)]
  | (s, d) :: rest =>
    if seq < s then (seq, data) :: (s, d) :: rest
    else if seq = s then (seq, data) :: rest
    else (s, d) :: insertChunk seq data rest

/-- Chunks of out-of-line values, by value id: the owning transaction and the chunks
in sequence order. -/
structure ToastCache where
  vals : Map Oid (Xid × List (Int × Bytes))

namespace ToastCache

def empty : ToastCache := ⟨∅⟩

/-- The transaction that brings the first chunk of a value owns it. -/
def addChunk (c : ToastCache) (xid : Xid) (valueid : Oid) (seq : Int) (data : Bytes) : ToastCache :=
  let (owner, chunks) := (c.vals.lookup valueid).getD (xid, [])
  ⟨c.vals.insert valueid (owner, insertChunk seq data chunks)⟩

/-- Drop all chunks a finished transaction owns. -/
def gcXid (c : ToastCache) (xid : Xid) : ToastCache :=
  ⟨{ entries := c.vals.entries.filter fun e => e.2.1 ≠ xid
     nodupKeys := c.vals.nodupKeys.sublist List.filter_sublist }⟩

def contains (c : ToastCache) (valueid : Oid) : Bool :=
  (c.vals.lookup valueid).isSome

end ToastCache

/-! ## Tuple bodies -/

/-- The byte-level decoders of tuple bodies, page images, and toast chunks. -/
structure TupleDecoder where
  decodeInsertTuple : Bytes → TableDesc → ToastCache → HeapFmt → Except DecodeError (Row × Bytes)
  decodeTupleFromPage : Bytes → Nat → TableDesc → ToastCache → Except DecodeError (Row × Bytes)
  decodeUpdateNewTuple : Bytes → Nat → Option Bytes → Option Row → TableDesc → ToastCache →
    HeapFmt → Except DecodeError (Row × Bytes)
  decodeMultiInsert : Bytes → Bytes → TableDesc → ToastCache →
    Except DecodeError (List (Row × Bytes))
  rawAttrsFromPage : Bytes → Nat → Except DecodeError Bytes
  decodeToastChunkFromWal : Bytes → HeapFmt → Except DecodeError (Oid × Int × Bytes)
  decodeToastChunkFromPage : Bytes → Nat → Except DecodeError (Oid × Int × Bytes)
  encodeAttrs : Row → TableDesc → Option Bytes
  restore : PageImage → Except DecodeError Bytes

/-- Rejects every tuple body. -/
def TupleDecoder.reject : TupleDecoder where
  decodeInsertTuple _ _ _ _ := .error (.other "rejected")
  decodeTupleFromPage _ _ _ _ := .error (.other "rejected")
  decodeUpdateNewTuple _ _ _ _ _ _ _ := .error (.other "rejected")
  decodeMultiInsert _ _ _ _ := .error (.other "rejected")
  rawAttrsFromPage _ _ := .error (.other "rejected")
  decodeToastChunkFromWal _ _ := .error (.other "rejected")
  decodeToastChunkFromPage _ _ := .error (.other "rejected")
  encodeAttrs _ _ := none
  restore _ := .error (.other "rejected")

end Ltap
