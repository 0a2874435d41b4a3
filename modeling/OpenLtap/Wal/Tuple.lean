-- SUMMARY: Decoding of tuple bodies: varlenas, column values, null bitmap, and the paths by which a tuple arrives (`wal/heap.rs`).
import OpenLtap.Wal.Jsonb

/-!
# Tuple bodies

The decoders of `wal/heap.rs`, byte by byte. Every path by which a tuple arrives ends
in `decodeTuplePayload`, with the bytes behind the fixed tuple header, the infomasks,
and the offset of the attributes.
-/

namespace Ltap

def sizeofHeapTupleHeader : Nat := 23

def heapHasNull : Nat := 0x0001

def pgEpochDays : Int := 10957
def pgEpochMicros : Int := 946684800000000

/-! ## Fixed-width values -/

/-- `(off + align - 1) & !(align - 1)`. -/
def alignTo (off align : Nat) : Nat :=
  let x := off + align - 1
  x - (x &&& (align - 1))

/-- A read up to an offset fails, or the offset overflows a machine word; no slice is that long. -/
def truncated {α : Type} (stop : Nat) (what : String) : Except Fault α :=
  if 2 ^ 64 ≤ stop then .error .panic else bail s!"truncated {what}"

theorem truncated_ne_ok {α : Type} {stop : Nat} {what : String} {a : α} : truncated stop what ≠ .ok a := by
  unfold truncated
  split <;> simp [bail]

def fixed (data : Bytes) (off align n : Nat) (what : String) : Except Fault (Bytes × Nat) :=
  let off := alignTo off align
  match slice data off n with
  | some s => .ok (s, off + n)
  | none => truncated (off + n) what

/-- A sum of signed machine integers, which panics on overflow. -/
def checkedAdd (bits : Nat) (x y : Int) : Except Fault Int :=
  if -2 ^ (bits - 1) ≤ x + y ∧ x + y < 2 ^ (bits - 1) then .ok (x + y) else .error .panic

def hexByte (b : UInt8) : List Char := [(b.toNat / 16).digitChar, (b.toNat % 16).digitChar]

/-- Hyphenated text of a uuid; fewer than 16 bytes panic on slicing the hex digits. -/
def formatUuid (bytes : Bytes) : Except Fault String :=
  let hex := bytes.flatMap hexByte
  if hex.length < 32 then .error .panic
  else .ok (String.ofList (hex.take 8 ++ '-' :: (hex.drop 8).take 4 ++ '-' :: (hex.drop 12).take 4 ++
    '-' :: (hex.drop 16).take 4 ++ '-' :: (hex.drop 20).take 12))

/-! ## Varlenas -/

namespace ToastCache

/-- The chunks of a value in sequence. -/
def assemble (valueid : Oid) : Nat → List (Int × Bytes) → Except Fault Bytes
  | _, [] => .ok []
  | i, (seq, chunk) :: rest =>
    if seq ≠ i then bail s!"toast value {valueid}: missing chunk {i} (got {seq})"
    else do
      let buf ← assemble valueid (i + 1) rest
      return chunk ++ buf

/-- An out-of-line value from its buffered chunks. `rawsize` counts a header of four bytes;
a negative one is a huge size after the cast to `usize`. -/
def resolve (z : Codecs) (c : ToastCache) (valueid : Oid) (rawsize : Int) (extinfo : Nat) :
    Except Fault Bytes :=
  match c.vals.lookup valueid with
  | none => bail s!"toast value {valueid} has no buffered chunks"
  | some (_, chunks) => do
    let extsize := extinfo &&& 0x3FFFFFFF
    let buf ← assemble valueid 0 chunks
    if buf.length ≠ extsize then
      bail s!"toast value {valueid}: {buf.length} bytes reassembled, expected {extsize}"
    else
      let size := toTwos 64 rawsize
      if size < 4 then .error .panic
      else
        let rawData := size - 4
        if buf.length = rawData then return buf
        else if buf.length < 4 then
          bail s!"toast value {valueid}: too short for a compression header"
        else z.decompressDatum (extinfo >>> 30) (buf.drop 4) rawData

end ToastCache

section Decoders

variable (z : Codecs) (toast : ToastCache)

/-- The out-of-line pointer at an offset. -/
def decodeExternal (data : Bytes) (off : Nat) : Except Fault (Option Bytes × Nat) :=
  match data[off + 1]? with
  | none => bail "truncated toast pointer"
  | some tag =>
    if tag ≠ 18 then bail s!"unsupported varatt tag {tag} (only VARTAG_ONDISK=18)"
    else
      match slice data (off + 2) 16 with
      | none => bail "truncated varatt_external"
      | some s => do
        let rawsize := fromTwos 32 (fromLe (s.take 4))
        let extinfo := fromLe ((s.drop 4).take 4)
        let valueid := fromLe ((s.drop 8).take 4)
        if toast.contains valueid then
          let bytes ← toast.resolve z valueid rawsize extinfo
          return (some bytes, off + 18)
        else return (none, off + 18)

/-- A value with a one-byte header, which counts itself. -/
def decodeShortVarlena (data : Bytes) (off : Nat) (first : UInt8) : Except Fault (Option Bytes × Nat) :=
  let total := first.toNat >>> 1
  if total = 0 then bail "corrupt short varlena"
  else
    match slice data (off + 1) (total - 1) with
    | none => bail "truncated short varlena"
    | some payload => .ok (some payload, off + total)

/-- A value with a four-byte header, at an aligned offset. -/
def decodeLongVarlena (data : Bytes) (off : Nat) : Except Fault (Option Bytes × Nat) :=
  match slice data off 4 with
  | none => bail "truncated varlena header"
  | some hdrBytes =>
    let hdr := fromLe hdrBytes
    let total := hdr >>> 2
    if total < 4 then bail s!"corrupt varlena length {total}"
    else if hdr &&& 0x03 = 0x02 then
      match slice data (off + 4) 4 with
      | none => bail "truncated compressed varlena"
      | some tcinfoBytes =>
        let tcinfo := fromLe tcinfoBytes
        if total < 8 ∨ data.length < off + total then bail "truncated compressed varlena body"
        else do
          let out ← z.decompressDatum (tcinfo >>> 30) ((data.drop (off + 8)).take (total - 8))
            (tcinfo &&& 0x3FFFFFFF)
          return (some out, off + total)
    else
      match slice data (off + 4) (total - 4) with
      | none => bail "truncated varlena body"
      | some payload => .ok (some payload, off + total)

/-- The bytes of a varlena and the offset behind it; `none` is an out-of-line value whose
chunks are not buffered. -/
def decodeVarlena (data : Bytes) (off : Nat) : Except Fault (Option Bytes × Nat) :=
  match data[off]? with
  | none => bail "truncated varlena"
  | some first =>
    if first = 0x01 then decodeExternal z toast data off
    else if first.toNat &&& 0x01 = 1 then decodeShortVarlena data off first
    else decodeLongVarlena z data (alignTo off 4)

/-! ## Columns -/

/-- The text of a numeric or jsonb column from its bytes. -/
def decodeText (render : Bytes → Except Fault String) (data : Bytes) (off : Nat) :
    Except Fault (Option Value × Nat) := do
  let (bytes, newOff) ← decodeVarlena z toast data off
  match bytes with
  | none => return (none, newOff)
  | some b =>
    let text ← render b
    return (some (.text text), newOff)

/-- A column's value and the offset behind it; `none` is an unresolved out-of-line value. -/
def decodeValue (data : Bytes) (off : Nat) : PgType → Except Fault (Option Value × Nat)
  | .bool =>
    match data[off]? with
    | none => bail "truncated bool"
    | some b => .ok (some (.bool (b ≠ 0)), off + 1)
  | .int2 => do
    let (s, off) ← fixed data off 2 2 "int2"
    return (some (.i16 (fromTwos 16 (fromLe s))), off)
  | .int4 => do
    let (s, off) ← fixed data off 4 4 "int4"
    return (some (.i32 (fromTwos 32 (fromLe s))), off)
  | .int8 => do
    let (s, off) ← fixed data off 8 8 "int8"
    return (some (.i64 (fromTwos 64 (fromLe s))), off)
  | .float4 => do
    let (s, off) ← fixed data off 4 4 "float4"
    return (some (.f32 (BitVec.ofNat 32 (fromLe s))), off)
  | .float8 => do
    let (s, off) ← fixed data off 8 8 "float8"
    return (some (.f64 (BitVec.ofNat 64 (fromLe s))), off)
  | .date => do
    let (s, off) ← fixed data off 4 4 "date"
    let days ← checkedAdd 32 (fromTwos 32 (fromLe s)) pgEpochDays
    return (some (.i32 days), off)
  | .timestamp | .timestampTz => do
    let (s, off) ← fixed data off 8 8 "timestamp"
    let micros ← checkedAdd 64 (fromTwos 64 (fromLe s)) pgEpochMicros
    return (some (.i64 micros), off)
  | .uuid =>
    match slice data off 16 with
    | none => truncated (off + 16) "uuid"
    | some s => do
      let text ← formatUuid s
      return (some (.text text), off + 16)
  | .text => decodeText z toast (fun b => .ok (Utf8.lossy b)) data off
  | .bytea => do
    let (bytes, newOff) ← decodeVarlena z toast data off
    return (bytes.map .bytes, newOff)
  | .numeric => decodeText z toast numericToString data off
  | .jsonb => decodeText z toast jsonbToString data off

/-- `Display` of an error. -/
def DecodeError.message : DecodeError → String
  | .schemaDrift => "tuple has more attributes than the descriptor (stale schema)"
  | .other what => what

/-- An error with the column it came from. -/
def inColumn {α : Type} (name : String) : Except Fault α → Except Fault α
  | .error (.error e) => bail s!"column '{name}': {e.message}"
  | r => r

/-! ## Tuples -/

/-- What the attribute loop reads: the attribute bytes, the null bitmap if there is one, the
number of attributes stored, and the previous version of the row. -/
structure TupleBody where
  data : Bytes
  bitmap : Bytes
  hasNulls : Bool
  natts : Nat
  oldRow : Option Row

/-- Whether an attribute is null. A bitmap too short for it is an index out of range. -/
def TupleBody.isNull (t : TupleBody) (i : Nat) : Except Fault Bool :=
  if t.hasNulls then
    match t.bitmap[i / 8]? with
    | none => .error .panic
    | some b => .ok (b.toNat &&& (1 <<< (i % 8)) = 0)
  else .ok false

/-- The offset behind a dropped column that still has a value. -/
def skipDropped (data : Bytes) (off : Nat) (attlen : Int) (align : Nat) : Except Fault Nat :=
  if attlen ≥ 0 then
    let stop := alignTo off align + attlen.toNat
    -- The sums can overflow only behind the end of the slice.
    if align = 0 ∨ data.length < off + align ∧ 2 ^ 64 ≤ max (off + align) stop then .error .panic
    else .ok stop
  else do
    let (_, newOff) ← decodeVarlena z toast data off
    return newOff

/-- A live column. An unresolved out-of-line value is taken from the previous version. -/
def decodeColumn (t : TupleBody) (col : Col) (off liveI : Nat) : Except Fault (Value × Nat) := do
  let (value, newOff) ← inColumn col.name (decodeValue z toast t.data off col.ty)
  match value with
  | some v => return (v, newOff)
  | none =>
    match t.oldRow.bind fun r => (r[liveI]?).join with
    | some v => return (v, newOff)
    | none => bail s!"column '{col.name}': toast value has no buffered chunks and no previous row version"

/-- The attributes from index `i` on. -/
def decodeAttrs (t : TupleBody) : Nat → Nat → Nat → List PhysCol → Except Fault Row
  | _, _, _, [] => .ok []
  | i, off, liveI, pc :: rest =>
    if i ≥ t.natts then
      match pc with
      | .live _ => do
        let row ← decodeAttrs t (i + 1) off (liveI + 1) rest
        return none :: row
      | .dropped _ _ => decodeAttrs t (i + 1) off liveI rest
    else do
      let isNull ← t.isNull i
      match pc with
      | .dropped attlen align =>
        if isNull then decodeAttrs t (i + 1) off liveI rest
        else
          let off ← skipDropped z toast t.data off attlen align
          decodeAttrs t (i + 1) off liveI rest
      | .live col =>
        if isNull then
          let row ← decodeAttrs t (i + 1) off (liveI + 1) rest
          return none :: row
        else
          let (v, off) ← decodeColumn z toast t col off liveI
          let row ← decodeAttrs t (i + 1) off (liveI + 1) rest
          return some v :: row

/-- A tuple behind its fixed header: null bitmap, padding, attributes. -/
def decodeTuplePayload (tuple : Bytes) (tInfomask2 tInfomask tHoff : Nat) (desc : TableDesc)
    (oldRow : Option Row) : Except Fault (Row × Bytes) :=
  let natts := tInfomask2 &&& 0x07FF
  if natts > desc.phys.length then .error (.error .schemaDrift)
  else if tHoff < sizeofHeapTupleHeader then bail s!"t_hoff {tHoff} < header size"
  else
    let bitsLen := tHoff - sizeofHeapTupleHeader
    if tuple.length < bitsLen then bail "tuple shorter than its null bitmap"
    else do
      let body : TupleBody :=
        { data := tuple.drop bitsLen, bitmap := tuple.take bitsLen
          hasNulls := tInfomask &&& heapHasNull ≠ 0, natts, oldRow }
      let row ← decodeAttrs z toast body 0 0 0 desc.phys
      return (row, body.data)

end Decoders

/-! ## Paths -/

/-- Infomasks, attribute offset, and length of the tuple header a record carries. -/
structure WalHeapHeader where
  infomask2 : Nat
  infomask : Nat
  hoff : Nat
  len : Nat
  deriving DecidableEq, Repr

/-- Neon has a command id in front of `t_hoff`. -/
def walHeapHeader (b : Bytes) (fmt : HeapFmt) : Except Fault WalHeapHeader :=
  let len := match fmt with
    | .vanilla => 5
    | .neon => 9
  if b.length < len then bail "heap header truncated"
  else .ok {
    infomask2 := fromLe (b.take 2), infomask := fromLe ((b.drop 2).take 2)
    hoff := (b.getD (len - 1) 0).toNat, len }

/-- A tuple on a page behind its fixed header, with its infomasks and attribute offset. -/
structure PageTuple where
  payload : Bytes
  infomask2 : Nat
  infomask : Nat
  hoff : Nat
  deriving DecidableEq, Repr

def tupleOnPage (page : Bytes) (offnum : Nat) : Except Fault PageTuple :=
  if offnum = 0 then bail "invalid offset number 0"
  else
    match slice page (24 + (offnum - 1) * 4) 4 with
    | none => bail s!"line pointer {offnum} beyond page"
    | some s =>
      let itemid := fromLe s
      let lpOff := itemid &&& 0x7FFF
      let lpFlags := (itemid >>> 15) &&& 0x3
      let lpLen := itemid >>> 17
      if lpFlags ≠ 1 then bail s!"line pointer {offnum} is not LP_NORMAL (flags {lpFlags})"
      else
        match slice page lpOff lpLen with
        | none => bail s!"tuple {offnum} beyond page"
        | some tuple =>
          if tuple.length < sizeofHeapTupleHeader then bail s!"tuple {offnum} shorter than its header"
          else .ok {
            payload := tuple.drop sizeofHeapTupleHeader
            infomask2 := fromLe ((tuple.drop 18).take 2)
            infomask := fromLe ((tuple.drop 20).take 2)
            hoff := (tuple.getD 22 0).toNat }

/-- The attribute bytes of a tuple on a page. -/
def rawAttrsFromPage (page : Bytes) (offnum : Nat) : Except Fault Bytes := do
  let t ← tupleOnPage page offnum
  if t.hoff < sizeofHeapTupleHeader then bail s!"t_hoff {t.hoff} < header size"
  else if t.payload.length < t.hoff - sizeofHeapTupleHeader then
    bail "tuple shorter than its null bitmap"
  else return t.payload.drop (t.hoff - sizeofHeapTupleHeader)

section Paths

variable (z : Codecs)

def decodeTupleFromPage (page : Bytes) (offnum : Nat) (desc : TableDesc) (toast : ToastCache) :
    Except Fault (Row × Bytes) := do
  let t ← tupleOnPage page offnum
  decodeTuplePayload z toast t.payload t.infomask2 t.infomask t.hoff desc none

def decodeInsertTuple (blockData : Bytes) (desc : TableDesc) (toast : ToastCache) (fmt : HeapFmt) :
    Except Fault (Row × Bytes) := do
  let h ← walHeapHeader blockData fmt
  decodeTuplePayload z toast (blockData.drop h.len) h.infomask2 h.infomask h.hoff desc none

def xlhUpdatePrefixFromOld : Nat := 0x20
def xlhUpdateSuffixFromOld : Nat := 0x40

/-- A two-byte length in front of an update's tuple, if the flag says there is one. -/
def updateShared (blockData : Bytes) (off : Nat) (present : Bool) (what : String) :
    Except Fault (Nat × Nat) :=
  if present then
    match slice blockData off 2 with
    | none => bail what
    | some s => .ok (fromLe s, off + 2)
  else .ok (0, off)

/-- The payload of an update's tuple with the bytes it shares with the old one filled in. -/
def updatePayload (bitmap part : Bytes) (shared sharedEnd : Nat) (oldAttrs : Option Bytes) :
    Except Fault Bytes :=
  if shared = 0 ∧ sharedEnd = 0 then .ok (bitmap ++ part)
  else
    match oldAttrs with
    | none => bail s!"update shares {shared}+{sharedEnd} bytes with an old tuple we don't have"
    | some old =>
      if shared + sharedEnd > old.length then
        bail s!"prefix {shared} + suffix {sharedEnd} exceed old tuple ({old.length} bytes)"
      else .ok (bitmap ++ old.take shared ++ part ++ old.drop (old.length - sharedEnd))

def decodeUpdateNewTuple (blockData : Bytes) (flags : Nat) (oldAttrs : Option Bytes)
    (oldRow : Option Row) (desc : TableDesc) (toast : ToastCache) (fmt : HeapFmt) :
    Except Fault (Row × Bytes) := do
  let (shared, off) ←
    updateShared blockData 0 (flags &&& xlhUpdatePrefixFromOld ≠ 0) "truncated prefix len"
  let (sharedEnd, off) ←
    updateShared blockData off (flags &&& xlhUpdateSuffixFromOld ≠ 0) "truncated suffix len"
  let h ← walHeapHeader (blockData.drop off) fmt
  let rest := blockData.drop (off + h.len)
  if h.hoff < sizeofHeapTupleHeader then bail s!"t_hoff {h.hoff} < header size"
  else
    let bitsLen := h.hoff - sizeofHeapTupleHeader
    if rest.length < bitsLen then bail "update tuple shorter than its null bitmap"
    else do
      let payload ← updatePayload (rest.take bitsLen) (rest.drop bitsLen) shared sharedEnd oldAttrs
      decodeTuplePayload z toast payload h.infomask2 h.infomask h.hoff desc oldRow

/-- The tuples of a multi-insert from an offset on, the first of them number `i`. -/
def decodeMultiTuples (blockData : Bytes) (desc : TableDesc) (toast : ToastCache) :
    Nat → Nat → Nat → Except Fault (List (Row × Bytes))
  | 0, _, _ => .ok []
  | n + 1, i, off =>
    let off := alignTo off 2
    match slice blockData off 7 with
    | none => bail s!"multi-insert truncated at tuple {i}"
    | some hdr =>
      let datalen := fromLe (hdr.take 2)
      match slice blockData (off + 7) datalen with
      | none => bail s!"multi-insert tuple {i} data truncated"
      | some payload => do
        let row ← decodeTuplePayload z toast payload (fromLe ((hdr.drop 2).take 2))
          (fromLe ((hdr.drop 4).take 2)) (hdr.getD 6 0).toNat desc none
        let rows ← decodeMultiTuples blockData desc toast n (i + 1) (off + (7 + datalen))
        return row :: rows

def decodeMultiInsert (blockData mainData : Bytes) (desc : TableDesc) (toast : ToastCache) :
    Except Fault (List (Row × Bytes)) :=
  if mainData.length < 4 then bail "multi-insert main data too short"
  else decodeMultiTuples z blockData desc toast (fromLe ((mainData.drop 2).take 2)) 0 0

/-! ## Toast chunks -/

/-- A row of a toast relation: value id, sequence number, and an inline varlena. -/
def decodeToastChunk (payload : Bytes) (tHoff : Nat) : Except Fault (Oid × Int × Bytes) :=
  if tHoff < sizeofHeapTupleHeader then bail s!"toast tuple t_hoff {tHoff} < header size"
  else if payload.length < tHoff - sizeofHeapTupleHeader then
    bail "toast tuple shorter than its null bitmap"
  else
    let data := payload.drop (tHoff - sizeofHeapTupleHeader)
    match slice data 0 4 with
    | none => bail "truncated toast chunk_id"
    | some valueid =>
      match slice data 4 4 with
      | none => bail "truncated toast chunk_seq"
      | some seq => do
        let (bytes, _) ← decodeVarlena z .empty data 8
        match bytes with
        | none => bail "toast chunk_data is itself a toast pointer"
        | some b => return (fromLe valueid, fromTwos 32 (fromLe seq), b)

def decodeToastChunkFromWal (blockData : Bytes) (fmt : HeapFmt) : Except Fault (Oid × Int × Bytes) := do
  let h ← walHeapHeader blockData fmt
  decodeToastChunk z (blockData.drop h.len) h.hoff

def decodeToastChunkFromPage (page : Bytes) (offnum : Nat) : Except Fault (Oid × Int × Bytes) := do
  let t ← tupleOnPage page offnum
  decodeToastChunk z t.payload t.hoff

end Paths

end Ltap
