-- SUMMARY: Re-encoding of decoded rows into attribute bytes (`encode_attrs`, `numeric_from_string`), and the decoders as the engine calls them.
import OpenLtap.Wal.Tuple

/-!
# Re-encoding rows

`encode_attrs` writes a decoded row back as the attribute bytes of a tuple, where a
faithful form exists: a varlena must be short enough for a one-byte header.
-/

namespace Ltap

/-! ## Numerics from text -/

/-- `char::is_whitespace`. -/
def isWhitespace (c : Char) : Bool :=
  let n := c.toNat
  (0x09 ≤ n && n ≤ 0x0D) || n = 0x20 || n = 0x85 || n = 0xA0 || n = 0x1680 ||
    (0x2000 ≤ n && n ≤ 0x200A) || n = 0x2028 || n = 0x2029 || n = 0x202F || n = 0x205F || n = 0x3000

/-- `str::trim`. -/
def trimChars (cs : List Char) : List Char :=
  ((cs.dropWhile isWhitespace).reverse.dropWhile isWhitespace).reverse

/-- `k` groups of four decimal digits. -/
def digitGroups : Nat → List Char → List Nat
  | 0, _ => []
  | k + 1, cs => Nat.ofDigitChars 10 (cs.take 4) 0 :: digitGroups k (cs.drop 4)

/-- Drop zero groups from the front, but not the last group. -/
def stripLeading : List Nat → Int → List Nat × Int
  | 0 :: d :: ds, weight => stripLeading (d :: ds) (weight - 1)
  | ds, weight => (ds, weight)

/-- Drop zero groups from the end, but not the first group. -/
def stripTrailing (ds : List Nat) : List Nat := (stripLeading ds.reverse 0).1.reverse

/-- The long form of a finite decimal literal. -/
def numericBytes (neg : Bool) (int frac : List Char) : Bytes :=
  let intPad := (4 - int.length % 4) % 4
  let fracPad := (4 - frac.length % 4) % 4
  let combined := List.replicate intPad '0' ++ int ++ frac ++ List.replicate fracPad '0'
  let (digits, weight) :=
    stripLeading (digitGroups (combined.length / 4) combined) ((intPad + int.length : Nat) / 4 - 1)
  let digits := stripTrailing digits
  -- Zero has no digits and no sign.
  let (neg, weight, digits) := if digits.all (· = 0) then (false, 0, []) else (neg, weight, digits)
  toLe 2 ((if neg then 0x4000 else 0) ||| (frac.length % 2 ^ 16 &&& 0x3FFF)) ++
    (toLe 2 (toTwos 16 weight) ++ digits.flatMap (toLe 2))

def numericFromString (s : String) : Except Fault Bytes :=
  let t := trimChars s.toList
  let lower := t.map Char.toLower
  if lower = "nan".toList then .ok (toLe 2 0xC000)
  else if lower ∈ ["infinity", "inf", "+infinity", "+inf"].map String.toList then .ok (toLe 2 0xD000)
  else if lower ∈ ["-infinity", "-inf"].map String.toList then .ok (toLe 2 0xF000)
  else
    let neg := t.head? = some '-'
    let body := if neg ∨ t.head? = some '+' then t.tail else t
    let int := body.takeWhile (· ≠ '.')
    let frac := body.drop (int.length + 1)
    if (int = [] ∧ frac = []) ∨ ¬ int.all Char.isDigit ∨ ¬ frac.all Char.isDigit then
      bail s!"invalid numeric literal '{s}'"
    else .ok (numericBytes neg int frac)

/-! ## Attribute bytes -/

/-- `pad_put`: zeros up to the alignment, then the bytes. -/
def padPut (buf : Bytes) (align : Nat) (bytes : Bytes) : Bytes :=
  buf ++ List.replicate (alignTo buf.length align - buf.length) 0 ++ bytes

def encodeShortVarlena (buf payload : Bytes) : Option Bytes :=
  if payload.length > 126 then none
  else some (buf ++ UInt8.ofNat ((payload.length + 1) * 2 + 1) :: payload)

/-- The value of a hex digit. -/
def hexDigit (b : UInt8) : Option Nat :=
  let n := b.toNat
  if 0x30 ≤ n ∧ n ≤ 0x39 then some (n - 0x30)
  else if 0x41 ≤ n ∧ n ≤ 0x46 then some (n - 0x41 + 10)
  else if 0x61 ≤ n ∧ n ≤ 0x66 then some (n - 0x61 + 10)
  else none

/-- `u8::from_str_radix` of two bytes; a plus sign may lead. -/
def hexPair (b₀ b₁ : UInt8) : Option UInt8 :=
  if b₀ = 0x2B then (hexDigit b₁).map UInt8.ofNat
  else do
    let hi ← hexDigit b₀
    let lo ← hexDigit b₁
    return UInt8.ofNat (hi * 16 + lo)

/-- Pairs of hex digits. A pair that cuts a character in two panics. -/
def hexBytes : Bytes → Except Fault (Option Bytes)
  | b₀ :: b₁ :: rest =>
    if Utf8.IsCont (rest.headD 0).toNat then .error .panic
    else
      match hexPair b₀ b₁ with
      | none => .ok none
      | some b => do
        let bs ← hexBytes rest
        return bs.map (b :: ·)
  | _ => .ok (some [])

/-- The bytes of a uuid from its text without hyphens. -/
def uuidBytes (t : String) : Except Fault (Option Bytes) :=
  let hex := (t.toList.filter (· ≠ '-')).flatMap String.utf8EncodeChar
  if hex.length ≠ 32 then .ok none else hexBytes hex

/-- A difference of signed machine integers, which panics on overflow. -/
def checkedSub (bits : Nat) (x y : Int) : Except Fault Int :=
  if -2 ^ (bits - 1) ≤ x - y ∧ x - y < 2 ^ (bits - 1) then .ok (x - y) else .error .panic

/-- Append the value of one column; `none` where the row cannot be encoded. -/
def encodeValue (buf : Bytes) : PgType → Value → Except Fault (Option Bytes)
  | .bool, .bool b => .ok (some (buf ++ [if b then 1 else 0]))
  | .int2, .i16 x => .ok (some (padPut buf 2 (toLe 2 (toTwos 16 x))))
  | .int4, .i32 x => .ok (some (padPut buf 4 (toLe 4 (toTwos 32 x))))
  | .int8, .i64 x => .ok (some (padPut buf 8 (toLe 8 (toTwos 64 x))))
  | .float4, .f32 x => .ok (some (padPut buf 4 (toLe 4 x.toNat)))
  | .float8, .f64 x => .ok (some (padPut buf 8 (toLe 8 x.toNat)))
  | .date, .i32 x => do
    let days ← checkedSub 32 x pgEpochDays
    return some (padPut buf 4 (toLe 4 (toTwos 32 days)))
  | .timestamp, .i64 x | .timestampTz, .i64 x => do
    let micros ← checkedSub 64 x pgEpochMicros
    return some (padPut buf 8 (toLe 8 (toTwos 64 micros)))
  | .uuid, .text t => do
    let bytes ← uuidBytes t
    return bytes.map (buf ++ ·)
  | .text, .text t => .ok (encodeShortVarlena buf (Utf8.encode t))
  | .bytea, .bytes b => .ok (encodeShortVarlena buf b)
  | .numeric, .text t => .ok ((numericFromString t).toOption.bind (encodeShortVarlena buf))
  | _, _ => .ok none

/-- The live columns from the `i`-th on. -/
def encodeCols (row : Row) : Nat → Bytes → List Col → Except Fault (Option Bytes)
  | _, buf, [] => .ok (some buf)
  | i, buf, col :: cols =>
    match row[i]? with
    | none => .ok none
    | some none => encodeCols row (i + 1) buf cols
    | some (some v) => do
      match ← encodeValue buf col.ty v with
      | none => return none
      | some buf => encodeCols row (i + 1) buf cols

def encodeAttrs (row : Row) (desc : TableDesc) : Except Fault (Option Bytes) :=
  encodeCols row 0 [] desc.cols

/-! ## The decoders of the engine -/

/-- The engine's view of a fault. A panic ends the process; here it is one more error. -/
def Fault.toDecodeError : Fault → DecodeError
  | .error e => e
  | .panic => .other "panic"

/-- The decoders of `wal/heap.rs`. -/
def heapDecoder (z : Codecs) : TupleDecoder where
  decodeInsertTuple blockData desc toast fmt :=
    (decodeInsertTuple z blockData desc toast fmt).mapError Fault.toDecodeError
  decodeTupleFromPage page offnum desc toast :=
    (decodeTupleFromPage z page offnum desc toast).mapError Fault.toDecodeError
  decodeUpdateNewTuple blockData flags oldAttrs oldRow desc toast fmt :=
    (decodeUpdateNewTuple z blockData flags oldAttrs oldRow desc toast fmt).mapError Fault.toDecodeError
  decodeMultiInsert blockData mainData desc toast :=
    (decodeMultiInsert z blockData mainData desc toast).mapError Fault.toDecodeError
  rawAttrsFromPage page offnum := (rawAttrsFromPage page offnum).mapError Fault.toDecodeError
  decodeToastChunkFromWal blockData fmt :=
    (decodeToastChunkFromWal z blockData fmt).mapError Fault.toDecodeError
  decodeToastChunkFromPage page offnum :=
    (decodeToastChunkFromPage z page offnum).mapError Fault.toDecodeError
  encodeAttrs row desc := (encodeAttrs row desc).toOption.join
  restore img := (img.restore z).mapError Fault.toDecodeError

end Ltap
