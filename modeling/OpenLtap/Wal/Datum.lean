-- SUMMARY: Data of every column type as a page stores them, and that decoding reads them back.
import OpenLtap.Wal.AttrLoop
import OpenLtap.Wal.InsertPaths

/-!
# Stored data

A datum of a fixed width stands aligned behind zeros. A varlena stands in one of its
inline forms: behind a one-byte header, or aligned behind one of four bytes, plain or
compressed. Each is read back behind any bytes before it.
-/

namespace Ltap

/-! ## Layout -/

/-- The zeros in front of an aligned value. -/
def padding (off align : Nat) : Bytes := List.replicate (alignTo off align - off) 0

theorem le_alignTo (off k : Nat) : off ≤ alignTo off (2 ^ k) := by
  rw [alignTo_two_pow]
  have := Nat.lt_div_mul_add (a := off + (2 ^ k - 1)) (Nat.two_pow_pos k)
  have := Nat.two_pow_pos k
  omega

theorem padding_length (off k : Nat) : off + (padding off (2 ^ k)).length = alignTo off (2 ^ k) := by
  rw [padding, List.length_replicate]
  have := le_alignTo off k
  omega

theorem padding_one (off : Nat) : padding off 1 = [] := by
  simp [padding, alignTo]

theorem fixed_stored (k : Nat) (before b after : Bytes) (what : String) :
    fixed (before ++ (padding before.length (2 ^ k) ++ b ++ after)) before.length (2 ^ k) b.length what =
      .ok (b, before.length + (padding before.length (2 ^ k) ++ b).length) := by
  have hslice : slice (before ++ (padding before.length (2 ^ k) ++ b ++ after))
      (alignTo before.length (2 ^ k)) b.length = some b := by
    rw [List.append_assoc, ← List.append_assoc]
    exact slice_append (by rw [List.length_append, padding_length]) rfl
  simp only [fixed, hslice]
  rw [List.length_append, ← Nat.add_assoc, padding_length]

/-- The inline forms of a varlena at an offset. -/
inductive VarlenaAt (z : Codecs) (payload : Bytes) (off : Nat) : Bytes → Prop where
  | short : payload.length ≤ 126 →
    VarlenaAt z payload off (UInt8.ofNat ((payload.length + 1) * 2 + 1) :: payload)
  | long : payload.length + 4 < 2 ^ 30 →
    VarlenaAt z payload off (padding off 4 ++ (toLe 4 ((payload.length + 4) * 4) ++ payload))
  /-- The second word has the raw size and the compression method. -/
  | compressed {tcinfo : Nat} {body : Bytes} : tcinfo < 2 ^ 32 → body.length + 8 < 2 ^ 30 →
    z.decompressDatum (tcinfo >>> 30) body (tcinfo &&& 0x3FFFFFFF) = .ok payload →
    VarlenaAt z payload off (padding off 4 ++ (toLe 4 ((body.length + 8) * 4 + 2) ++ (toLe 4 tcinfo ++ body)))

section Varlena

variable {z : Codecs} (toast : ToastCache)

theorem decodeVarlena_short {payload : Bytes} (h : payload.length ≤ 126) (before after : Bytes) :
    decodeVarlena z toast
        (before ++ ((UInt8.ofNat ((payload.length + 1) * 2 + 1) :: payload) ++ after)) before.length =
      .ok (some payload, before.length + (payload.length + 1)) := by
  have hb : (UInt8.ofNat ((payload.length + 1) * 2 + 1)).toNat = (payload.length + 1) * 2 + 1 := by
    rw [UInt8.toNat_ofNat']
    omega
  have hne : UInt8.ofNat ((payload.length + 1) * 2 + 1) ≠ 0x01 := by
    intro heq
    rw [heq] at hb
    simp at hb
  have hodd : (payload.length + 1) * 2 + 1 &&& 0x01 = 1 := by
    rw [show 0x01 = (2 ^ 1 - 1) * 2 ^ 0 by rfl, and_mask]
    omega
  have htotal : ((payload.length + 1) * 2 + 1) >>> 1 = payload.length + 1 := by
    rw [Nat.shiftRight_eq_div_pow]
    omega
  have hfirst : (before ++ ((UInt8.ofNat ((payload.length + 1) * 2 + 1) :: payload) ++ after))[before.length]? =
      some (UInt8.ofNat ((payload.length + 1) * 2 + 1)) := by
    rw [List.getElem?_append_right (Nat.le_refl _), Nat.sub_self]
    rfl
  have hslice : slice (before ++ ((UInt8.ofNat ((payload.length + 1) * 2 + 1) :: payload) ++ after))
      (before.length + 1) payload.length = some payload := by
    rw [List.cons_append, List.append_cons]
    exact slice_append (by rw [List.length_append]; rfl) rfl
  simp only [decodeVarlena, hfirst, if_neg hne, hb, hodd, if_true, decodeShortVarlena, htotal,
    Nat.add_one_ne_zero, if_false, Nat.add_sub_cancel, hslice]

/-- An aligned header with an even first byte starts with an even byte, padded or not. -/
theorem padded_first (off : Nat) {hdr : Nat} (heven : hdr % 2 = 0) (before rest : Bytes)
    (hoff : before.length = off) :
    ∃ first, (before ++ (padding off 4 ++ (toLe 4 hdr ++ rest)))[off]? = some first ∧
      first ≠ 0x01 ∧ first.toNat &&& 0x01 ≠ 1 := by
  rw [List.getElem?_append_right (Nat.le_of_eq hoff), hoff, Nat.sub_self, padding]
  cases alignTo off 4 - off with
  | zero =>
    have hb : (UInt8.ofNat (hdr % 256)).toNat % 2 = 0 := by
      rw [UInt8.toNat_ofNat']
      omega
    refine ⟨UInt8.ofNat (hdr % 256), rfl, ?_, ?_⟩
    · intro heq
      rw [heq] at hb
      cases hb
    · rw [show 0x01 = (2 ^ 1 - 1) * 2 ^ 0 by rfl, and_mask]
      omega
  | succ n => exact ⟨0, rfl, by decide, by decide⟩

theorem decodeVarlena_aligned {hdr : Nat} (heven : hdr % 2 = 0) (before rest : Bytes) :
    decodeVarlena z toast (before ++ (padding before.length 4 ++ (toLe 4 hdr ++ rest))) before.length =
      decodeLongVarlena z (before ++ (padding before.length 4 ++ (toLe 4 hdr ++ rest)))
        (before ++ padding before.length 4).length := by
  obtain ⟨first, hfirst, hne, heven⟩ := padded_first before.length heven before rest rfl
  rw [decodeVarlena, hfirst]
  simp only [if_neg hne, if_neg heven, List.length_append, padding_length before.length 2,
    show (4 : Nat) = 2 ^ 2 by rfl]

theorem decodeLongVarlena_long {payload : Bytes} (h : payload.length + 4 < 2 ^ 30) (before after : Bytes) :
    decodeLongVarlena z (before ++ (toLe 4 ((payload.length + 4) * 4) ++ (payload ++ after))) before.length =
      .ok (some payload, before.length + (payload.length + 4)) := by
  have hhdr : slice (before ++ (toLe 4 ((payload.length + 4) * 4) ++ (payload ++ after))) before.length 4 =
      some (toLe 4 ((payload.length + 4) * 4)) := slice_append rfl (toLe_length 4 _)
  have hslice : slice (before ++ (toLe 4 ((payload.length + 4) * 4) ++ (payload ++ after)))
      (before.length + 4) payload.length = some payload := by
    rw [← List.append_assoc]
    exact slice_append (by rw [List.length_append, toLe_length]) rfl
  have hread : fromLe (toLe 4 ((payload.length + 4) * 4)) = (payload.length + 4) * 4 :=
    fromLe_toLe (by omega)
  have htotal : ((payload.length + 4) * 4) >>> 2 = payload.length + 4 := by
    rw [Nat.shiftRight_eq_div_pow]
    omega
  have hplain : (payload.length + 4) * 4 &&& 0x03 = 0 := by
    rw [show 0x03 = (2 ^ 2 - 1) * 2 ^ 0 by rfl, and_mask]
    omega
  simp only [decodeLongVarlena, hhdr, hread, htotal, hplain]
  rw [if_neg (by omega), if_neg (by omega), Nat.add_sub_cancel, hslice]

theorem decodeLongVarlena_compressed {payload body : Bytes} {tcinfo : Nat} (htc : tcinfo < 2 ^ 32)
    (hbody : body.length + 8 < 2 ^ 30)
    (hraw : z.decompressDatum (tcinfo >>> 30) body (tcinfo &&& 0x3FFFFFFF) = .ok payload)
    (before after : Bytes) :
    decodeLongVarlena z
        (before ++ (toLe 4 ((body.length + 8) * 4 + 2) ++ (toLe 4 tcinfo ++ (body ++ after)))) before.length =
      .ok (some payload, before.length + (body.length + 8)) := by
  let data := before ++ (toLe 4 ((body.length + 8) * 4 + 2) ++ (toLe 4 tcinfo ++ (body ++ after)))
  have hhdr : slice data before.length 4 = some (toLe 4 ((body.length + 8) * 4 + 2)) :=
    slice_append rfl (toLe_length 4 _)
  have hinfo : slice data (before.length + 4) 4 = some (toLe 4 tcinfo) := by
    simp only [data]
    rw [← List.append_assoc]
    exact slice_append (by rw [List.length_append, toLe_length]) (toLe_length 4 _)
  have hread : fromLe (toLe 4 ((body.length + 8) * 4 + 2)) = (body.length + 8) * 4 + 2 :=
    fromLe_toLe (by omega)
  have hreadInfo : fromLe (toLe 4 tcinfo) = tcinfo := fromLe_toLe (by omega)
  have htotal : ((body.length + 8) * 4 + 2) >>> 2 = body.length + 8 := by
    rw [Nat.shiftRight_eq_div_pow]
    omega
  have hcompressed : (body.length + 8) * 4 + 2 &&& 0x03 = 0x02 := by
    rw [show 0x03 = (2 ^ 2 - 1) * 2 ^ 0 by rfl, and_mask]
    omega
  have hlen : before.length + (body.length + 8) ≤ data.length := by
    simp only [data, List.length_append, toLe_length]
    omega
  have hrest : (data.drop (before.length + 8)).take body.length = body := by
    have hfront : (before ++ (toLe 4 ((body.length + 8) * 4 + 2) ++ toLe 4 tcinfo)).length =
        before.length + 8 := by
      simp only [List.length_append, toLe_length]
    have hdata : data = before ++ (toLe 4 ((body.length + 8) * 4 + 2) ++ toLe 4 tcinfo) ++
        (body ++ after) := by
      simp only [data, List.append_assoc]
    rw [hdata, List.drop_left' hfront, List.take_left' rfl]
  show decodeLongVarlena z data before.length = _
  simp only [decodeLongVarlena, hhdr, hread, htotal, hcompressed, hinfo, hreadInfo, if_true]
  rw [if_neg (by omega), if_neg (by omega), Nat.add_sub_cancel, hrest, hraw]
  rfl

/-- Every inline form is read back. -/
theorem VarlenaAt.decodeVarlena {payload before bytes : Bytes} (h : VarlenaAt z payload before.length bytes)
    (after : Bytes) :
    decodeVarlena z toast (before ++ (bytes ++ after)) before.length =
      .ok (some payload, before.length + bytes.length) := by
  cases h with
  | short h => exact decodeVarlena_short toast h before after
  | long h =>
    have hlong := decodeLongVarlena_long (z := z) h (before ++ padding before.length 4) after
    rw [List.append_assoc] at hlong
    rw [List.append_assoc, List.append_assoc, decodeVarlena_aligned toast (by omega), hlong]
    simp only [List.length_append, toLe_length, Except.ok.injEq, Prod.mk.injEq, true_and]
    omega
  | @compressed tcinfo body htc hbody hraw =>
    have hlong := decodeLongVarlena_compressed htc hbody hraw (before ++ padding before.length 4) after
    rw [List.append_assoc] at hlong
    rw [List.append_assoc, List.append_assoc, List.append_assoc, decodeVarlena_aligned toast (by omega), hlong]
    simp only [List.length_append, toLe_length, Except.ok.injEq, Prod.mk.injEq, true_and]
    omega

end Varlena

/-! ## Data -/

inductive NumericSpecial where
  | nan
  | posInf
  | negInf
  deriving DecidableEq, Repr

/-- The header word on a page, which is also the sign that is sent. -/
def NumericSpecial.header : NumericSpecial → Nat
  | .nan => 0xC000
  | .posInf => 0xD000
  | .negInf => 0xF000

def NumericSpecial.text : NumericSpecial → String
  | .nan => "NaN"
  | .posInf => "Infinity"
  | .negInf => "-Infinity"

/-- A value of a column as the server has it. Numerics and documents come with their form. -/
inductive Datum where
  | bool (b : UInt8)
  | int2 (x : BitVec 16)
  | int4 (x : BitVec 32)
  | int8 (x : BitVec 64)
  | float4 (x : BitVec 32)
  | float8 (x : BitVec 64)
  | date (x : BitVec 32)
  | timestamp (x : BitVec 64)
  | timestampTz (x : BitVec 64)
  | uuid (b : Bytes) (h : b.length = 16)
  | text (b : Bytes)
  | bytea (b : Bytes)
  | numericLong (n : Numeric)
  | numericShort (n : Numeric) (h : n.FitsShort)
  /-- The weight and the scale are sent too, without a meaning. -/
  | numericSpecial (s : NumericSpecial) (weight dscale : Nat)
  | jsonb (v : Json) (doc : Bytes) (h : JsonbDoc v doc)

namespace Datum

def ty : Datum → PgType
  | bool _ => .bool
  | int2 _ => .int2
  | int4 _ => .int4
  | int8 _ => .int8
  | float4 _ => .float4
  | float8 _ => .float8
  | date _ => .date
  | timestamp _ => .timestamp
  | timestampTz _ => .timestampTz
  | uuid _ _ => .uuid
  | text _ => .text
  | bytea _ => .bytea
  | numericLong _ | numericShort _ _ | numericSpecial _ _ _ => .numeric
  | jsonb _ _ _ => .jsonb

/-- What a decoder should make of it. Dates and timestamps move to the Unix epoch, which may
overflow. -/
def value : Datum → Except Fault Value
  | bool b => .ok (.bool (b ≠ 0))
  | int2 x => .ok (.i16 (fromTwos 16 x.toNat))
  | int4 x => .ok (.i32 (fromTwos 32 x.toNat))
  | int8 x => .ok (.i64 (fromTwos 64 x.toNat))
  | float4 x => .ok (.f32 x)
  | float8 x => .ok (.f64 x)
  | date x => .i32 <$> checkedAdd 32 (fromTwos 32 x.toNat) pgEpochDays
  | timestamp x | timestampTz x => .i64 <$> checkedAdd 64 (fromTwos 64 x.toNat) pgEpochMicros
  | uuid b _ => .text <$> formatUuid b
  | text b => .ok (.text (Utf8.lossy b))
  | bytea b => .ok (.bytes b)
  | numericLong n | numericShort n _ => .ok (.text n.text)
  | numericSpecial s _ _ => .ok (.text s.text)
  | jsonb v _ _ => .ok (.text (String.ofList v.text))

/-- Documents are not nested deeper than the decoder follows. -/
def Shallow : Datum → Prop
  | jsonb v _ _ => v.depth ≤ 201
  | _ => True

/-- The alignment and the bytes of a value of a fixed width. -/
def fixedBytes : Datum → Option (Nat × Bytes)
  | bool b => some (1, [b])
  | int2 x => some (2, toLe 2 x.toNat)
  | int4 x | float4 x | date x => some (4, toLe 4 x.toNat)
  | int8 x | float8 x | timestamp x | timestampTz x => some (8, toLe 8 x.toNat)
  | uuid b _ => some (1, b)
  | _ => none

/-- The payload of a varlena. -/
def payload : Datum → Option Bytes
  | text b | bytea b => some b
  | numericLong n => some n.longForm
  | numericShort n _ => some n.shortForm
  | numericSpecial s _ _ => some (toLe 2 s.header)
  | jsonb _ doc _ => some doc
  | _ => none

/-- The bytes of a datum at an offset. -/
inductive StoredAt (z : Codecs) (d : Datum) (off : Nat) : Bytes → Prop where
  | fixed {align : Nat} {b : Bytes} : d.fixedBytes = some (align, b) → StoredAt z d off (padding off align ++ b)
  | varlena {p bytes : Bytes} : d.payload = some p → VarlenaAt z p off bytes → StoredAt z d off bytes

/-! ## Reading them -/

/-- A value of a fixed width, made of its bits. -/
theorem decodeFixed_stored {α : Type} {w k : Nat} (hw : 2 ^ w = 256 ^ 2 ^ k) (x : BitVec w) (before after : Bytes)
    (what : String) (make : Nat → Except Fault α) (wrap : α → Value) :
    (fixed (before ++ (padding before.length (2 ^ k) ++ toLe (2 ^ k) x.toNat ++ after)) before.length (2 ^ k) (2 ^ k)
        what >>= fun p => make (fromLe p.1) >>= fun v => .ok (some (wrap v), p.2)) =
      (wrap <$> make x.toNat).map fun v =>
        (some v, before.length + (padding before.length (2 ^ k) ++ toLe (2 ^ k) x.toNat).length) := by
  have hread := fixed_stored k before (toLe (2 ^ k) x.toNat) after what
  rw [toLe_length] at hread
  simp only [hread, bind, Except.bind, fromLe_toLe (hw ▸ x.isLt)]
  cases make x.toNat <;> rfl

theorem numericToString_special (s : NumericSpecial) : numericToString (toLe 2 s.header) = .ok s.text := by
  cases s <;> decide +kernel

theorem jsonbToString_shallow {v : Json} {doc : Bytes} (h : JsonbDoc v doc) (hdepth : v.depth ≤ 201) :
    jsonbToString doc = .ok (String.ofList v.text) := by
  rw [jsonbToString, jsonbWrite_doc h hdepth]
  rfl

/-- A varlena whose payload renders so is read as that text. -/
theorem decodeText_stored {z : Codecs} (toast : ToastCache) {render : Bytes → Except Fault String}
    {p before bytes : Bytes} (h : VarlenaAt z p before.length bytes) {text : String} (htext : render p = .ok text)
    (after : Bytes) :
    decodeText z toast render (before ++ (bytes ++ after)) before.length =
      .ok (some (.text text), before.length + bytes.length) := by
  simp only [decodeText, h.decodeVarlena toast after, bind, Except.bind, htext]
  rfl

/-- A stored datum is read back. -/
theorem decodeValue_stored {z : Codecs} (toast : ToastCache) {d : Datum} {before bytes : Bytes}
    (hstored : d.StoredAt z before.length bytes) (hshallow : d.Shallow) (after : Bytes) :
    decodeValue z toast (before ++ (bytes ++ after)) before.length d.ty =
      d.value.map fun v => (some v, before.length + bytes.length) := by
  cases hstored with
  | @fixed align b hfixed =>
    cases d with
    | bool c =>
      obtain ⟨rfl, rfl⟩ := Prod.ext_iff.mp (Option.some.inj hfixed)
      have hfirst : (before ++ ([] ++ [c] ++ after))[before.length]? = some c := by
        rw [List.getElem?_append_right (Nat.le_refl _), Nat.sub_self]
        rfl
      simp only [ty, decodeValue, padding_one, hfirst]
      rfl
    | uuid c hlen =>
      obtain ⟨rfl, rfl⟩ := Prod.ext_iff.mp (Option.some.inj hfixed)
      have hslice : slice (before ++ (c ++ after)) before.length 16 = some c := slice_append rfl hlen
      simp only [ty, decodeValue, padding_one, List.nil_append, hslice, bind, Except.bind, value, hlen]
      cases formatUuid c <;> rfl
    | int2 x =>
      obtain ⟨rfl, rfl⟩ := Prod.ext_iff.mp (Option.some.inj hfixed)
      exact decodeFixed_stored (show 2 ^ 16 = 256 ^ 2 ^ 1 by rfl) x before after "int2"
        (fun n => .ok (fromTwos 16 n)) .i16
    | int4 x =>
      obtain ⟨rfl, rfl⟩ := Prod.ext_iff.mp (Option.some.inj hfixed)
      exact decodeFixed_stored (show 2 ^ 32 = 256 ^ 2 ^ 2 by rfl) x before after "int4"
        (fun n => .ok (fromTwos 32 n)) .i32
    | int8 x =>
      obtain ⟨rfl, rfl⟩ := Prod.ext_iff.mp (Option.some.inj hfixed)
      exact decodeFixed_stored (show 2 ^ 64 = 256 ^ 2 ^ 3 by rfl) x before after "int8"
        (fun n => .ok (fromTwos 64 n)) .i64
    | float4 x =>
      obtain ⟨rfl, rfl⟩ := Prod.ext_iff.mp (Option.some.inj hfixed)
      have h := decodeFixed_stored (show 2 ^ 32 = 256 ^ 2 ^ 2 by rfl) x before after "float4"
        (fun n => .ok (BitVec.ofNat 32 n)) .f32
      rw [BitVec.ofNat_toNat, BitVec.setWidth_eq] at h
      exact h
    | float8 x =>
      obtain ⟨rfl, rfl⟩ := Prod.ext_iff.mp (Option.some.inj hfixed)
      have h := decodeFixed_stored (show 2 ^ 64 = 256 ^ 2 ^ 3 by rfl) x before after "float8"
        (fun n => .ok (BitVec.ofNat 64 n)) .f64
      rw [BitVec.ofNat_toNat, BitVec.setWidth_eq] at h
      exact h
    | date x =>
      obtain ⟨rfl, rfl⟩ := Prod.ext_iff.mp (Option.some.inj hfixed)
      exact decodeFixed_stored (show 2 ^ 32 = 256 ^ 2 ^ 2 by rfl) x before after "date"
        (fun n => checkedAdd 32 (fromTwos 32 n) pgEpochDays) .i32
    | timestamp x =>
      obtain ⟨rfl, rfl⟩ := Prod.ext_iff.mp (Option.some.inj hfixed)
      exact decodeFixed_stored (show 2 ^ 64 = 256 ^ 2 ^ 3 by rfl) x before after "timestamp"
        (fun n => checkedAdd 64 (fromTwos 64 n) pgEpochMicros) .i64
    | timestampTz x =>
      obtain ⟨rfl, rfl⟩ := Prod.ext_iff.mp (Option.some.inj hfixed)
      exact decodeFixed_stored (show 2 ^ 64 = 256 ^ 2 ^ 3 by rfl) x before after "timestamp"
        (fun n => checkedAdd 64 (fromTwos 64 n) pgEpochMicros) .i64
    | text | bytea | numericLong | numericShort | numericSpecial | jsonb => cases hfixed
  | @varlena p _ hpayload hform =>
    cases d with
    | text c =>
      obtain rfl := Option.some.inj hpayload
      exact decodeText_stored toast hform rfl after
    | bytea c =>
      obtain rfl := Option.some.inj hpayload
      simp only [ty, decodeValue, hform.decodeVarlena toast after, bind, Except.bind]
      rfl
    | numericLong n =>
      obtain rfl := Option.some.inj hpayload
      exact decodeText_stored toast hform n.numericToString_longForm after
    | numericShort n hfits =>
      obtain rfl := Option.some.inj hpayload
      exact decodeText_stored toast hform (n.numericToString_shortForm hfits) after
    | numericSpecial s weight dscale =>
      obtain rfl := Option.some.inj hpayload
      exact decodeText_stored toast hform (numericToString_special s) after
    | jsonb v doc hdoc =>
      obtain rfl := Option.some.inj hpayload
      exact decodeText_stored toast hform (jsonbToString_shallow hdoc hshallow) after
    | bool | int2 | int4 | int8 | float4 | float8 | date | timestamp | timestampTz | uuid => cases hpayload

end Datum

/-! ## What a value is read from -/

/-- `pg_type.typlen`. -/
def PgType.attlen : PgType → Int
  | .bool => 1
  | .int2 => 2
  | .int4 | .float4 | .date => 4
  | .int8 | .float8 | .timestamp | .timestampTz => 8
  | .uuid => 16
  | .text | .bytea | .numeric | .jsonb => -1

/-- `pg_type.typalign`, in bytes. -/
def PgType.align : PgType → Nat
  | .bool | .uuid => 1
  | .int2 => 2
  | .int4 | .float4 | .date | .text | .bytea | .numeric | .jsonb => 4
  | .int8 | .float8 | .timestamp | .timestampTz => 8

section Read

variable {z : Codecs} {toast : ToastCache} {data : Bytes} {off off' : Nat}

theorem alignTo_one (off : Nat) : alignTo off 1 = off := by
  simp [alignTo]

theorem fixed_ok {align n : Nat} {what : String} {s : Bytes} (h : fixed data off align n what = .ok (s, off')) :
    s.length = n ∧ off' = alignTo off align + n ∧ off' ≤ data.length := by
  unfold fixed at h
  simp only at h
  split at h
  · rename_i b hslice
    obtain ⟨rfl, rfl⟩ := Prod.ext_iff.mp (Except.ok.inj h)
    exact ⟨slice_length hslice, rfl, slice_le hslice⟩
  · exact (truncated_ne_ok h).elim

/-- A text is missing as its bytes are, or is what is printed for them. -/
theorem decodeText_ok {render : Bytes → Except Fault String} {v : Option Value}
    (h : decodeText z toast render data off = .ok (v, off')) :
    (v = none ∧ decodeVarlena z toast data off = .ok (none, off')) ∨
      ∃ payload t, decodeVarlena z toast data off = .ok (some payload, off') ∧ render payload = .ok t ∧
        v = some (.text t) := by
  obtain ⟨⟨bytes, newOff⟩, hread, h⟩ := bind_eq_ok.mp h
  cases bytes with
  | none =>
    obtain ⟨rfl, rfl⟩ := Prod.ext_iff.mp (Except.ok.inj h)
    exact .inl ⟨rfl, hread⟩
  | some payload =>
    obtain ⟨t, hrender, h⟩ := bind_eq_ok.mp h
    obtain ⟨rfl, rfl⟩ := Prod.ext_iff.mp (Except.ok.inj h)
    exact .inr ⟨payload, t, hread, hrender, rfl⟩

/-- A value has the width and the alignment of its type, or is the varlena at the offset. -/
theorem decodeValue_ok {ty : PgType} {v : Option Value} (h : decodeValue z toast data off ty = .ok (v, off')) :
    (0 ≤ ty.attlen ∧ off' = alignTo off ty.align + ty.attlen.toNat ∧ off' ≤ data.length ∧ ∃ w, v = some w) ∨
      (ty.attlen = -1 ∧ ∃ bytes, decodeVarlena z toast data off = .ok (bytes, off') ∧ (v = none → bytes = none)) := by
  have htext : ∀ {render}, decodeText z toast render data off = .ok (v, off') →
      ∃ bytes, decodeVarlena z toast data off = .ok (bytes, off') ∧ (v = none → bytes = none) := by
    intro render h
    rcases decodeText_ok h with ⟨-, hread⟩ | ⟨payload, t, hread, -, rfl⟩
    · exact ⟨none, hread, fun _ => rfl⟩
    · exact ⟨some payload, hread, nofun⟩
  cases ty with
  | bool =>
    rw [decodeValue] at h
    split at h
    · cases h
    · rename_i b hb
      obtain ⟨rfl, rfl⟩ := Prod.ext_iff.mp (Except.ok.inj h)
      have hlt := (List.getElem?_eq_some_iff.mp hb).1
      exact .inl ⟨by decide, congrArg (· + 1) (alignTo_one off).symm, hlt, _, rfl⟩
  | uuid =>
    rw [decodeValue] at h
    split at h
    · exact (truncated_ne_ok h).elim
    · rename_i s hslice
      obtain ⟨t, -, h⟩ := bind_eq_ok.mp h
      obtain ⟨rfl, rfl⟩ := Prod.ext_iff.mp (Except.ok.inj h)
      exact .inl ⟨by decide, congrArg (· + 16) (alignTo_one off).symm, slice_le hslice, _, rfl⟩
  | int2 | int4 | int8 | float4 | float8 =>
    obtain ⟨⟨s, newOff⟩, hfixed, h⟩ := bind_eq_ok.mp h
    obtain ⟨rfl, rfl⟩ := Prod.ext_iff.mp (Except.ok.inj h)
    obtain ⟨-, hstop, hle⟩ := fixed_ok hfixed
    exact .inl ⟨by decide, hstop, hle, _, rfl⟩
  | date | timestamp | timestampTz =>
    obtain ⟨⟨s, newOff⟩, hfixed, h⟩ := bind_eq_ok.mp h
    obtain ⟨sum, -, h⟩ := bind_eq_ok.mp h
    obtain ⟨rfl, rfl⟩ := Prod.ext_iff.mp (Except.ok.inj h)
    obtain ⟨-, hstop, hle⟩ := fixed_ok hfixed
    exact .inl ⟨by decide, hstop, hle, _, rfl⟩
  | text | numeric | jsonb => exact .inr ⟨rfl, htext h⟩
  | bytea =>
    obtain ⟨⟨bytes, newOff⟩, hread, h⟩ := bind_eq_ok.mp h
    obtain ⟨rfl, rfl⟩ := Prod.ext_iff.mp (Except.ok.inj h)
    exact .inr ⟨rfl, bytes, hread, Option.map_eq_none_iff.mp⟩

end Read

end Ltap
