-- SUMMARY: The binary COPY stream of a snapshot (`snapshot.rs`), and that its rows are those of the WAL decoder.
import OpenLtap.Wal.Datum

/-!
# Snapshot rows

A snapshot reads a table through binary COPY: big-endian fields in the send form of their
types. A row that changes later arrives again, from the WAL, as the bytes that a page
stores. Both decoders make the same values of the same data. They part only on documents
that are nested deeper than the page decoder follows.
-/

namespace Ltap

/-! ## The parser -/

/-- A field of exactly `n` bytes. -/
def beField (f : Bytes) (n : Nat) (what : String) : Except Fault Bytes :=
  if f.length = n then .ok f else bail s!"bad {what} field length {f.length}"

def decodeField (f : Bytes) : PgType → Except Fault Value
  | .bool =>
    match f[0]? with
    | none => bail "empty bool"
    | some b => .ok (.bool (b ≠ 0))
  | .int2 => do
    let s ← beField f 2 "int2"
    return .i16 (fromTwos 16 (fromBe s))
  | .int4 => do
    let s ← beField f 4 "int4"
    return .i32 (fromTwos 32 (fromBe s))
  | .int8 => do
    let s ← beField f 8 "int8"
    return .i64 (fromTwos 64 (fromBe s))
  | .float4 => do
    let s ← beField f 4 "float4"
    return .f32 (BitVec.ofNat 32 (fromBe s))
  | .float8 => do
    let s ← beField f 8 "float8"
    return .f64 (BitVec.ofNat 64 (fromBe s))
  | .text => .ok (.text (Utf8.lossy f))
  | .bytea => .ok (.bytes f)
  | .uuid => .text <$> formatUuid f
  | .numeric => .text <$> numericFromBinary f
  -- A version byte stands in front of the text.
  | .jsonb => .ok (.text (Utf8.lossy (f.drop 1)))
  | .date => do
    let s ← beField f 4 "date"
    .i32 <$> checkedAdd 32 (fromTwos 32 (fromBe s)) pgEpochDays
  | .timestamp | .timestampTz => do
    let s ← beField f 8 "timestamp"
    .i64 <$> checkedAdd 64 (fromTwos 64 (fromBe s)) pgEpochMicros

/-- The fields of a tuple, and the bytes behind them. -/
def copyFields : List Col → Bytes → Except Fault (Row × Bytes)
  | [], rest => .ok ([], rest)
  | col :: cols, rest =>
    if rest.length < 4 then bail "COPY stream truncated at field length"
    else
      let len := fromTwos 32 (fromBe (rest.take 4))
      let rest := rest.drop 4
      if len < 0 then do
        let (row, rest) ← copyFields cols rest
        return (none :: row, rest)
      else if rest.length < len.toNat then bail "COPY stream truncated in field"
      else do
        let v ← inColumn col.name (decodeField (rest.take len.toNat) col.ty)
        let (row, rest) ← copyFields cols (rest.drop len.toNat)
        return (some v :: row, rest)

/-- A tuple behind its column count: the address and the fields. -/
def copyTuple (desc : TableDesc) (rest : Bytes) : Except Fault ((Ctid × Row) × Bytes) :=
  if rest.length < 4 then bail "truncated ctid length"
  else
    let len := fromTwos 32 (fromBe (rest.take 4))
    let rest := rest.drop 4
    if len ≠ 6 then bail s!"ctid field has length {len}, expected 6"
    -- The address is sliced without a check.
    else if rest.length < 6 then .error .panic
    else do
      let ctid := (fromBe (rest.take 4), fromBe ((rest.drop 4).take 2))
      let (row, rest) ← copyFields desc.cols (rest.drop 6)
      return ((ctid, row), rest)

/-- The tuples up to the trailer. Each takes at least two bytes, so `fuel` bytes last. -/
def copyTuples (desc : TableDesc) : Nat → Bytes → Except Fault (List (Ctid × Row))
  | 0, _ => bail "COPY stream truncated at tuple header"
  | fuel + 1, rest =>
    if rest.length < 2 then bail "COPY stream truncated at tuple header"
    else
      let nc := fromTwos 16 (fromBe (rest.take 2))
      if nc = -1 then .ok []
      else if nc ≠ desc.cols.length + 1 then
        bail s!"COPY tuple has {nc} columns, expected ctid + {desc.cols.length}"
      else do
        let (row, rest) ← copyTuple desc (rest.drop 2)
        let rows ← copyTuples desc fuel rest
        return row :: rows

/-- `PGCOPY\n\xff\r\n\0`. -/
def copySignature : Bytes := [0x50, 0x47, 0x43, 0x4F, 0x50, 0x59, 0x0A, 0xFF, 0x0D, 0x0A, 0x00]

def parseCopyBinary (data : Bytes) (desc : TableDesc) : Except Fault (List (Ctid × Row)) :=
  if data.length < 19 ∨ data.take 11 ≠ copySignature then bail "bad COPY binary signature"
  else
    let extLen := fromBe ((data.drop 15).take 4)
    let rest := data.drop (19 + extLen)
    copyTuples desc rest.length rest

/-! ## What the server sends -/

/-- The send form of a datum. -/
def Datum.send : Datum → Bytes
  | .bool b => [if b ≠ 0 then 1 else 0]
  | .int2 x => toBe 2 x.toNat
  | .int4 x | .float4 x | .date x => toBe 4 x.toNat
  | .int8 x | .float8 x | .timestamp x | .timestampTz x => toBe 8 x.toNat
  | .uuid b _ | .text b | .bytea b => b
  | .numericLong n | .numericShort n _ => n.sendForm
  | .numericSpecial s weight dscale => toBe 2 0 ++ (toBe 2 weight ++ (toBe 2 s.header ++ toBe 2 dscale))
  | .jsonb v _ _ => 1 :: Utf8.encode (String.ofList v.text)

structure CopyRow where
  ctid : Ctid
  datums : List (Option Datum)

namespace CopyRow

/-- A field: the length and the bytes, or the length -1. -/
def fieldBytes : Option Datum → Bytes
  | none => toBe 4 (2 ^ 32 - 1)
  | some d => toBe 4 d.send.length ++ d.send

def bytes (r : CopyRow) : Bytes :=
  toBe 2 (r.datums.length + 1) ++ (toBe 4 6 ++ (toBe 4 r.ctid.1 ++ (toBe 2 r.ctid.2 ++
    r.datums.flatMap fieldBytes)))

/-- The value of a column, where it has one. -/
def cell : Option Datum → Except Fault (Option Value)
  | none => .ok none
  | some d => some <$> d.value

def row (r : CopyRow) : Except Fault Row := r.datums.mapM cell

/-- A row of a table: data of the columns' types that the length fields have room for. -/
structure Of (desc : TableDesc) (r : CopyRow) : Prop where
  blkno_lt : r.ctid.1 < 2 ^ 32
  offnum_lt : r.ctid.2 < 2 ^ 16
  typed : List.Forall₂ (fun col d => ∀ x ∈ d, x.ty = col.ty) desc.cols r.datums
  send_lt : ∀ d, some d ∈ r.datums → d.send.length < 2 ^ 31

end CopyRow

/-- A COPY stream of a table: the header with its extension, the tuples, and the trailer. -/
structure CopyStream (desc : TableDesc) where
  flags : Bytes
  extension : Bytes
  rows : List CopyRow
  behind : Bytes
  flags_length : flags.length = 4
  extension_lt : extension.length < 2 ^ 32
  /-- The column count has 16 bits with a sign. -/
  cols_lt : desc.cols.length + 1 < 2 ^ 15
  rows_ok : ∀ r ∈ rows, r.Of desc

namespace CopyStream

variable {desc : TableDesc} (c : CopyStream desc)

def trailer : Bytes := toBe 2 (2 ^ 16 - 1)

def bytes : Bytes :=
  copySignature ++ (c.flags ++ (toBe 4 c.extension.length ++ (c.extension ++
    (c.rows.flatMap (·.bytes) ++ (trailer ++ c.behind)))))

end CopyStream

/-! ## Fields -/

theorem beField_toBe (n v : Nat) (what : String) : beField (toBe n v) n what = .ok (toBe n v) :=
  if_pos (toBe_length n v)

theorem fromBe_bits {w n : Nat} (hw : 2 ^ w = 256 ^ n) (x : BitVec w) : fromBe (toBe n x.toNat) = x.toNat :=
  fromBe_toBe (hw ▸ x.isLt)

theorem numericFromBinary_special (s : NumericSpecial) (weight dscale : Nat) :
    numericFromBinary (toBe 2 0 ++ (toBe 2 weight ++ (toBe 2 s.header ++ toBe 2 dscale))) = .ok s.text := by
  have hlen : ¬ (toBe 2 0 ++ (toBe 2 weight ++ (toBe 2 s.header ++ toBe 2 dscale))).length < 8 := by
    simp only [List.length_append, toBe_length]
    omega
  have hsign : fromBe (((toBe 2 0 ++ (toBe 2 weight ++ (toBe 2 s.header ++ toBe 2 dscale))).drop 4).take 2) =
      s.header := by
    have htake : ((toBe 2 0 ++ (toBe 2 weight ++ (toBe 2 s.header ++ toBe 2 dscale))).drop 4).take 2 =
        toBe 2 s.header := rfl
    rw [htake, fromBe_toBe (by cases s <;> decide)]
  simp only [numericFromBinary, if_neg hlen, hsign]
  cases s <;> rfl

/-- The send form gives the value of the datum. -/
theorem Datum.decodeField_send (d : Datum) : decodeField d.send d.ty = d.value := by
  cases d with
  | bool b =>
    by_cases hb : b = 0
    · simp [Datum.send, ty, decodeField, value, hb]
    · simp [Datum.send, ty, decodeField, value, hb]
  | int2 x =>
    simp only [Datum.send, ty, decodeField, beField_toBe, bind, Except.bind,
      fromBe_bits (show 2 ^ 16 = 256 ^ 2 by rfl)]
    rfl
  | int4 x =>
    simp only [Datum.send, ty, decodeField, beField_toBe, bind, Except.bind,
      fromBe_bits (show 2 ^ 32 = 256 ^ 4 by rfl)]
    rfl
  | int8 x =>
    simp only [Datum.send, ty, decodeField, beField_toBe, bind, Except.bind,
      fromBe_bits (show 2 ^ 64 = 256 ^ 8 by rfl)]
    rfl
  | float4 x =>
    simp only [Datum.send, ty, decodeField, beField_toBe, bind, Except.bind,
      fromBe_bits (show 2 ^ 32 = 256 ^ 4 by rfl), BitVec.ofNat_toNat, BitVec.setWidth_eq]
    rfl
  | float8 x =>
    simp only [Datum.send, ty, decodeField, beField_toBe, bind, Except.bind,
      fromBe_bits (show 2 ^ 64 = 256 ^ 8 by rfl), BitVec.ofNat_toNat, BitVec.setWidth_eq]
    rfl
  | date x =>
    simp only [Datum.send, ty, decodeField, beField_toBe, bind, Except.bind,
      fromBe_bits (show 2 ^ 32 = 256 ^ 4 by rfl)]
    rfl
  | timestamp x | timestampTz x =>
    simp only [Datum.send, ty, decodeField, beField_toBe, bind, Except.bind,
      fromBe_bits (show 2 ^ 64 = 256 ^ 8 by rfl)]
    rfl
  | uuid | text | bytea => rfl
  | numericLong n | numericShort n _ =>
    simp only [Datum.send, ty, decodeField, n.numericFromBinary_sendForm]
    rfl
  | numericSpecial s weight dscale =>
    simp only [Datum.send, ty, decodeField, numericFromBinary_special]
    rfl
  | jsonb v doc h =>
    simp only [Datum.send, ty, decodeField, List.drop_succ_cons, List.drop_zero, Utf8.lossy_encode]
    rfl

theorem checkedAdd_cases (bits : Nat) (x y : Int) :
    (∃ n, checkedAdd bits x y = .ok n) ∨ checkedAdd bits x y = .error .panic := by
  unfold checkedAdd
  split
  · exact .inl ⟨_, rfl⟩
  · exact .inr rfl

/-- A datum has a value or panics. -/
theorem Datum.value_cases (d : Datum) : (∃ v, d.value = .ok v) ∨ d.value = .error .panic := by
  cases d with
  | date x =>
    rcases checkedAdd_cases 32 (fromTwos 32 x.toNat) pgEpochDays with ⟨n, h⟩ | h
    · exact .inl ⟨_, by rw [value, h]; rfl⟩
    · exact .inr (by rw [value, h]; rfl)
  | timestamp x | timestampTz x =>
    rcases checkedAdd_cases 64 (fromTwos 64 x.toNat) pgEpochMicros with ⟨n, h⟩ | h
    · exact .inl ⟨_, by rw [value, h]; rfl⟩
    · exact .inr (by rw [value, h]; rfl)
  | uuid b h =>
    rw [value, formatUuid]
    split
    · exact .inr rfl
    · exact .inl ⟨_, rfl⟩
  | bool | int2 | int4 | int8 | float4 | float8 | text | bytea | numericLong | numericShort
  | numericSpecial | jsonb => exact .inl ⟨_, rfl⟩

theorem Datum.inColumn_value (name : String) (d : Datum) : inColumn name d.value = d.value := by
  rcases d.value_cases with ⟨v, h⟩ | h
  · rw [h]
    rfl
  · rw [h]
    rfl

/-! ## Tuples -/

theorem toBe_drop (n v : Nat) (rest : Bytes) : (toBe n v ++ rest).drop n = rest :=
  List.drop_left' (toBe_length n v)

theorem toBe_take (n v : Nat) (rest : Bytes) : (toBe n v ++ rest).take n = toBe n v :=
  List.take_left' (toBe_length n v)

theorem not_toBe_lt (n v : Nat) (rest : Bytes) : ¬ (toBe n v ++ rest).length < n := by
  rw [List.length_append, toBe_length]
  omega

theorem copyFields_null (col : Col) (cols : List Col) (rest : Bytes) :
    copyFields (col :: cols) (CopyRow.fieldBytes none ++ rest) =
      (copyFields cols rest).map fun r => (none :: r.1, r.2) := by
  have hlen : fromTwos 32 (fromBe (toBe 4 (2 ^ 32 - 1))) = -1 := by decide
  rw [CopyRow.fieldBytes, copyFields, if_neg (not_toBe_lt 4 _ rest), toBe_take, toBe_drop, hlen]
  dsimp only
  rw [if_pos (by decide)]
  cases copyFields cols rest <;> rfl

theorem copyFields_some {col : Col} {d : Datum} (hty : d.ty = col.ty) (hlt : d.send.length < 2 ^ 31)
    (cols : List Col) (rest : Bytes) :
    copyFields (col :: cols) (CopyRow.fieldBytes (some d) ++ rest) = (do
      let v ← d.value
      (copyFields cols rest).map fun r => (some v :: r.1, r.2)) := by
  have hlen : fromTwos 32 (fromBe (toBe 4 d.send.length)) = d.send.length := by
    rw [fromBe_toBe (by omega), fromTwos, if_pos (by omega)]
  have hfits : ¬ (d.send ++ rest).length < d.send.length := by
    rw [List.length_append]
    omega
  rw [CopyRow.fieldBytes, List.append_assoc, copyFields, if_neg (not_toBe_lt 4 _ _), toBe_take, toBe_drop,
    hlen, if_neg (by omega), Int.toNat_natCast, if_neg hfits, List.take_left' rfl, List.drop_left' rfl,
    ← hty, d.decodeField_send, d.inColumn_value]
  cases d.value with
  | error f => rfl
  | ok v => cases copyFields cols rest <;> rfl

/-- The fields of a row give its values. -/
theorem copyFields_row {cols : List Col} {ds : List (Option Datum)}
    (htyped : List.Forall₂ (fun col d => ∀ x ∈ d, x.ty = col.ty) cols ds)
    (hlt : ∀ d, some d ∈ ds → d.send.length < 2 ^ 31) (rest : Bytes) :
    copyFields cols (ds.flatMap CopyRow.fieldBytes ++ rest) = (ds.mapM CopyRow.cell).map (·, rest) := by
  induction htyped with
  | nil => rfl
  | @cons col d cols ds hty _ ih =>
    have ih := ih fun x hx => hlt x (List.mem_cons_of_mem _ hx)
    rw [List.flatMap_cons, List.append_assoc, List.mapM_cons]
    cases d with
    | none =>
      rw [copyFields_null, ih]
      cases ds.mapM CopyRow.cell <;> rfl
    | some x =>
      rw [copyFields_some (hty x rfl) (hlt x List.mem_cons_self), ih, CopyRow.cell]
      cases x.value with
      | error f => rfl
      | ok v => cases ds.mapM CopyRow.cell <;> rfl

theorem copyTuple_fields {desc : TableDesc} {r : CopyRow} (hr : r.Of desc) (rest : Bytes) :
    copyTuple desc (toBe 4 6 ++ (toBe 4 r.ctid.1 ++ (toBe 2 r.ctid.2 ++ rest))) =
      (copyFields desc.cols rest).map fun f => ((r.ctid, f.1), f.2) := by
  have hlen : fromTwos 32 (fromBe (toBe 4 6)) = 6 := by decide
  have hfits : ¬ (toBe 4 r.ctid.1 ++ (toBe 2 r.ctid.2 ++ rest)).length < 6 := by
    simp only [List.length_append, toBe_length]
    omega
  have hdrop : (toBe 4 r.ctid.1 ++ (toBe 2 r.ctid.2 ++ rest)).drop 6 = rest := by
    rw [show 6 = 4 + 2 by rfl, ← List.drop_drop, toBe_drop, toBe_drop]
  rw [copyTuple, if_neg (not_toBe_lt 4 _ _), toBe_take, toBe_drop, hlen]
  simp only [ne_eq, not_true_eq_false, if_false, if_neg hfits, toBe_take, toBe_drop, hdrop,
    fromBe_toBe (show r.ctid.1 < 256 ^ 4 from hr.blkno_lt), fromBe_toBe (show r.ctid.2 < 256 ^ 2 from hr.offnum_lt)]
  cases copyFields desc.cols rest <;> rfl

theorem copyTuple_row {desc : TableDesc} {r : CopyRow} (hr : r.Of desc) (rest : Bytes) :
    copyTuple desc (toBe 4 6 ++ (toBe 4 r.ctid.1 ++ (toBe 2 r.ctid.2 ++
        (r.datums.flatMap CopyRow.fieldBytes ++ rest)))) =
      r.row.map fun row => ((r.ctid, row), rest) := by
  rw [copyTuple_fields hr, copyFields_row hr.typed hr.send_lt, CopyRow.row]
  cases r.datums.mapM CopyRow.cell <;> rfl

/-- The column count of a row is the one that is expected. -/
theorem copyTuples_counted {desc : TableDesc} (hcols : desc.cols.length + 1 < 2 ^ 15) {r : CopyRow} (hr : r.Of desc)
    (fuel : Nat) (rest : Bytes) :
    copyTuples desc (fuel + 1) (toBe 2 (r.datums.length + 1) ++ rest) =
      copyTuple desc rest >>= fun p => copyTuples desc fuel p.2 >>= fun rows => .ok (p.1 :: rows) := by
  have hcount : r.datums.length = desc.cols.length := hr.typed.length_eq.symm
  have hnc : fromTwos 16 (fromBe (toBe 2 (r.datums.length + 1))) = desc.cols.length + 1 := by
    rw [fromBe_toBe (by omega), fromTwos, if_pos (by omega), hcount]
    rfl
  rw [copyTuples, if_neg (not_toBe_lt 2 _ _), toBe_take, toBe_drop, hnc, if_neg (by omega), if_neg (by simp)]
  rfl

/-- The tuples of a stream give its rows. -/
theorem copyTuples_rows {desc : TableDesc} (hcols : desc.cols.length + 1 < 2 ^ 15) {rows : List CopyRow}
    (hrows : ∀ r ∈ rows, r.Of desc) (behind : Bytes) {fuel : Nat}
    (hfuel : (rows.flatMap (·.bytes) ++ (CopyStream.trailer ++ behind)).length ≤ fuel) :
    copyTuples desc fuel (rows.flatMap (·.bytes) ++ (CopyStream.trailer ++ behind)) =
      rows.mapM fun r => r.row.map (r.ctid, ·) := by
  induction rows generalizing fuel with
  | nil =>
    obtain ⟨fuel, rfl⟩ : ∃ n, fuel = n + 1 := by
      refine ⟨fuel - 1, ?_⟩
      simp only [CopyStream.trailer, List.length_append, toBe_length] at hfuel
      omega
    have hnc : fromTwos 16 (fromBe (toBe 2 (2 ^ 16 - 1))) = -1 := by decide
    rw [List.flatMap_nil, List.nil_append, CopyStream.trailer, copyTuples, if_neg (not_toBe_lt 2 _ _),
      toBe_take, hnc]
    rfl
  | cons r rows ih =>
    have hr := hrows r List.mem_cons_self
    have hsplit : (r :: rows).flatMap (·.bytes) ++ (CopyStream.trailer ++ behind) =
        toBe 2 (r.datums.length + 1) ++ (toBe 4 6 ++ (toBe 4 r.ctid.1 ++ (toBe 2 r.ctid.2 ++
          (r.datums.flatMap CopyRow.fieldBytes ++
            (rows.flatMap (·.bytes) ++ (CopyStream.trailer ++ behind)))))) := by
      simp only [List.flatMap_cons, CopyRow.bytes, List.append_assoc]
    rw [hsplit] at hfuel ⊢
    obtain ⟨fuel, rfl⟩ : ∃ n, fuel = n + 1 := by
      refine ⟨fuel - 1, ?_⟩
      simp only [List.length_append, toBe_length] at hfuel
      omega
    have hless : (rows.flatMap (·.bytes) ++ (CopyStream.trailer ++ behind)).length ≤ fuel := by
      simp only [List.length_append, toBe_length] at hfuel ⊢
      omega
    have ih := ih (fun x hx => hrows x (List.mem_cons_of_mem r hx)) hless
    rw [copyTuples_counted hcols hr, copyTuple_row hr, List.mapM_cons]
    cases r.row with
    | error f => rfl
    | ok row =>
      simp only [Except.map, bind, Except.bind, ih]
      rfl

namespace CopyStream

variable {desc : TableDesc} (c : CopyStream desc)

theorem bytes_header : 19 ≤ c.bytes.length ∧ c.bytes.take 11 = copySignature := by
  refine ⟨?_, rfl⟩
  simp only [bytes, List.length_append, toBe_length, c.flags_length, copySignature, List.length_cons,
    List.length_nil]
  omega

theorem bytes_extLen : fromBe ((c.bytes.drop 15).take 4) = c.extension.length := by
  have hsigLen : copySignature.length = 11 := rfl
  rw [bytes, show 15 = 11 + 4 by rfl, ← List.drop_drop, List.drop_left' hsigLen,
    List.drop_left' c.flags_length, toBe_take, fromBe_toBe (by have := c.extension_lt; omega)]

theorem bytes_rows :
    c.bytes.drop (19 + c.extension.length) = c.rows.flatMap (·.bytes) ++ (trailer ++ c.behind) := by
  have hsigLen : copySignature.length = 11 := rfl
  rw [bytes, show 19 + c.extension.length = 11 + 4 + 4 + c.extension.length by rfl, ← List.drop_drop,
    ← List.drop_drop, ← List.drop_drop, List.drop_left' hsigLen, List.drop_left' c.flags_length, toBe_drop,
    List.drop_left' rfl]

theorem parseCopyBinary_bytes : parseCopyBinary c.bytes desc = c.rows.mapM fun r => r.row.map (r.ctid, ·) := by
  obtain ⟨hlen, hsig⟩ := c.bytes_header
  rw [parseCopyBinary, if_neg (not_or.mpr ⟨Nat.not_lt.mpr hlen, not_not.mpr hsig⟩), c.bytes_extLen]
  dsimp only
  rw [c.bytes_rows]
  exact copyTuples_rows c.cols_lt c.rows_ok c.behind (Nat.le_refl _)

end CopyStream

theorem mapM_ok_fst {rows : List CopyRow} {out : List (Ctid × Row)}
    (h : (rows.mapM fun r => r.row.map (r.ctid, ·)) = .ok out) : out.map (·.1) = rows.map (·.ctid) := by
  induction rows generalizing out with
  | nil =>
    cases h
    rfl
  | cons r rows ih =>
    rw [List.mapM_cons] at h
    obtain ⟨p, hp, h⟩ := bind_eq_ok.mp h
    obtain ⟨ps, hps, h⟩ := bind_eq_ok.mp h
    cases h
    cases hrow : r.row with
    | error f =>
      rw [hrow] at hp
      cases hp
    | ok row =>
      rw [hrow] at hp
      cases hp
      rw [List.map_cons, List.map_cons, ih hps]

/-! ## The same row from the WAL -/

section Stored

variable (z : Codecs) (toast : ToastCache) (t : TupleBody)

/-- A tuple stores these data from attribute `i` on: every one at its place, NULLs as such or
behind the last attribute, and dropped columns anyhow. -/
inductive Stores : Nat → Nat → List PhysCol → List (Option Datum) → Prop where
  | nil (i off : Nat) : Stores i off [] []
  | absent {i off : Nat} {col : Col} {rest : List PhysCol} {ds : List (Option Datum)} :
    t.natts ≤ i → Stores (i + 1) off rest ds → Stores i off (.live col :: rest) (none :: ds)
  | null {i off : Nat} {col : Col} {rest : List PhysCol} {ds : List (Option Datum)} :
    i < t.natts → t.isNull i = .ok true → Stores (i + 1) off rest ds →
    Stores i off (.live col :: rest) (none :: ds)
  | datum {i : Nat} {col : Col} {rest : List PhysCol} {d : Datum} {ds : List (Option Datum)}
    {before bytes after : Bytes} :
    i < t.natts → t.isNull i = .ok false → d.ty = col.ty → t.data = before ++ (bytes ++ after) →
    d.StoredAt z before.length bytes → Stores (i + 1) (before.length + bytes.length) rest ds →
    Stores i before.length (.live col :: rest) (some d :: ds)
  | dropped {i off off' : Nat} {attlen : Int} {align : Nat} {rest : List PhysCol} {ds : List (Option Datum)} :
    (∀ liveI, Entry z toast t i off liveI (.dropped attlen align) [] off' 0) → Stores (i + 1) off' rest ds →
    Stores i off (.dropped attlen align :: rest) ds

variable {z toast t}

/-- The attribute loop reads the values of the stored data. -/
theorem Stores.decodeAttrs {i off : Nat} {phys : List PhysCol} {ds : List (Option Datum)}
    (h : Stores z toast t i off phys ds) (hshallow : ∀ d, some d ∈ ds → d.Shallow) {row : Row}
    (hrow : ds.mapM CopyRow.cell = .ok row) (liveI : Nat) :
    decodeAttrs z toast t i off liveI phys = .ok row := by
  induction h generalizing row liveI with
  | nil i off =>
    cases hrow
    rfl
  | @absent i off col rest ds hi _ ih =>
    rw [List.mapM_cons] at hrow
    obtain ⟨_, hcell, hrow⟩ := bind_eq_ok.mp hrow
    obtain ⟨row', hrest, hrow⟩ := bind_eq_ok.mp hrow
    cases hcell
    cases hrow
    have ih := ih (fun d hd => hshallow d (List.mem_cons_of_mem _ hd)) hrest (liveI + 1)
    rw [(Entry.absentLive col hi).decodeAttrs_eq, PhysCol.nextLive, ih]
    rfl
  | @null i off col rest ds hi hnull _ ih =>
    rw [List.mapM_cons] at hrow
    obtain ⟨_, hcell, hrow⟩ := bind_eq_ok.mp hrow
    obtain ⟨row', hrest, hrow⟩ := bind_eq_ok.mp hrow
    cases hcell
    cases hrow
    have ih := ih (fun d hd => hshallow d (List.mem_cons_of_mem _ hd)) hrest (liveI + 1)
    rw [(Entry.nullLive col hi hnull).decodeAttrs_eq, PhysCol.nextLive, ih]
    rfl
  | @datum i col rest d ds before bytes after hi hnull hty hdata hstored _ ih =>
    rw [List.mapM_cons] at hrow
    obtain ⟨_, hcell, hrow⟩ := bind_eq_ok.mp hrow
    obtain ⟨row', hrest, hrow⟩ := bind_eq_ok.mp hrow
    cases hrow
    obtain ⟨v, hv⟩ | hpanic := d.value_cases
    · rw [CopyRow.cell, hv] at hcell
      cases hcell
      have hvalue : decodeValue z toast t.data before.length col.ty =
          .ok (some v, before.length + bytes.length) := by
        rw [hdata, ← hty, Datum.decodeValue_stored toast hstored (hshallow d List.mem_cons_self), hv]
        rfl
      have ih := ih (fun x hx => hshallow x (List.mem_cons_of_mem _ hx)) hrest (liveI + 1)
      rw [(Entry.value hi hnull hvalue).decodeAttrs_eq, PhysCol.nextLive, ih]
      rfl
    · rw [CopyRow.cell, hpanic] at hcell
      cases hcell
  | dropped hentry _ ih =>
    rw [(hentry liveI).decodeAttrs_eq, PhysCol.nextLive, ih hshallow hrow]
    rfl

end Stored

/-- A snapshot gives the rows of the stream in order, each with its own address. Its fields
have the values that the page decoder reads from the stored data, so a row that the snapshot
read is the row that the WAL decoder makes of a tuple with the same data. -/
theorem snapshot_rows_agree (z : Codecs) (desc : TableDesc) :
    (∀ c : CopyStream desc,
      parseCopyBinary c.bytes desc = (c.rows.mapM fun r => r.row.map (r.ctid, ·)) ∧
      ∀ out, parseCopyBinary c.bytes desc = .ok out → out.map (·.1) = c.rows.map (·.ctid)) ∧
    (∀ (d : Datum) (toast : ToastCache) (before bytes after : Bytes), d.Shallow →
      d.StoredAt z before.length bytes →
      decodeValue z toast (before ++ (bytes ++ after)) before.length d.ty =
        (decodeField d.send d.ty).map fun v => (some v, before.length + bytes.length)) ∧
    ∀ (r : CopyRow) (toast : ToastCache) (t : TupleBody) (row : Row), (∀ d, some d ∈ r.datums → d.Shallow) →
      Stores z toast t 0 0 desc.phys r.datums → r.row = .ok row →
      decodeAttrs z toast t 0 0 0 desc.phys = .ok row := by
  refine ⟨fun c => ⟨c.parseCopyBinary_bytes, fun out hout => ?_⟩, ?_, ?_⟩
  · exact mapM_ok_fst (c.parseCopyBinary_bytes ▸ hout)
  · intro d toast before bytes after hshallow hstored
    rw [d.decodeField_send]
    exact Datum.decodeValue_stored toast hstored hshallow after
  · intro r toast t row hshallow hstores hrow
    exact hstores.decodeAttrs hshallow hrow 0

namespace Sample

/-- The row (42) at (0, 1). -/
def copyRow : CopyRow := ⟨(0, 1), [some (.int4 42)]⟩

def copyStream : CopyStream .oneInt where
  flags := [0, 0, 0, 0]
  extension := [7]
  rows := [copyRow]
  behind := []
  flags_length := rfl
  extension_lt := by decide
  cols_lt := by decide
  rows_ok := by
    intro r hr
    obtain rfl := List.mem_singleton.mp hr
    refine ⟨by decide, by decide, .cons ?_ .nil, ?_⟩
    · rintro x ⟨⟩
      rfl
    · intro d hd
      obtain rfl := Option.some.inj (List.mem_singleton.mp hd)
      decide

/-- The same row in a tuple. -/
def storedRow : TupleBody where
  data := [42, 0, 0, 0]
  bitmap := []
  hasNulls := false
  natts := 1
  oldRow := none

theorem storedRow_stores : Stores .pglzOnly .empty storedRow 0 0 TableDesc.oneInt.phys copyRow.datums := by
  have hstored : (Datum.int4 42).StoredAt .pglzOnly ([] : Bytes).length (padding 0 4 ++ [42, 0, 0, 0]) :=
    .fixed rfl
  have hdata : Sample.storedRow.data = [] ++ ((padding 0 4 ++ [42, 0, 0, 0]) ++ []) := rfl
  exact .datum (by decide) rfl rfl hdata hstored (.nil 1 _)

end Sample

theorem snapshot_rows_agree_sample :
    parseCopyBinary Sample.copyStream.bytes .oneInt = .ok [((0, 1), [some (.i32 42)])] ∧
    decodeValue .pglzOnly .empty [42, 0, 0, 0] 0 .int4 =
      (decodeField [0, 0, 0, 42] .int4).map (fun v => (some v, 4)) ∧
    decodeAttrs .pglzOnly .empty Sample.storedRow 0 0 0 TableDesc.oneInt.phys = .ok [some (.i32 42)] := by
  obtain ⟨hparse, hfield, hrow⟩ := snapshot_rows_agree .pglzOnly .oneInt
  refine ⟨(hparse Sample.copyStream).1, ?_, ?_⟩
  · exact hfield (.int4 42) .empty [] (padding 0 4 ++ [42, 0, 0, 0]) [] trivial (.fixed rfl)
  · refine hrow Sample.copyRow .empty Sample.storedRow _ ?_ Sample.storedRow_stores rfl
    intro d hd
    obtain rfl := Option.some.inj (List.mem_singleton.mp hd)
    trivial

/-! ## Deep documents -/

/-- An array in an array, and so on. -/
def Json.nested : Nat → Json
  | 0 => .array []
  | n + 1 => .array [nested n]

def nestedDoc : Nat → Bytes
  | 0 => containerBytes (jbFarray + 0) [] []
  | n + 1 =>
    let doc := nestedDoc n
    containerBytes (jbFarray + 1) [entryWord jentryIsContainer false (0 + 0 + doc.length) (0 + doc.length)]
      ([] ++ doc ++ [])

theorem nestedDoc_length (n : Nat) : (nestedDoc n).length = 4 + 8 * n := by
  induction n with
  | zero => rfl
  | succ n ih =>
    simp only [nestedDoc, containerBytes, List.length_append, toLe_length, List.flatMap_cons, List.flatMap_nil,
      List.length_nil, ih]
    omega

theorem jsonbBody_nestedDoc {n : Nat} (hn : n < 2 ^ 20) :
    JsonbBody (.nested n) jentryIsContainer (nestedDoc n) := by
  induction n with
  | zero => exact .array (by decide) (.nil 0)
  | succ n ih =>
    have hfits : 0 + 0 + (nestedDoc n).length < 2 ^ 28 := by
      rw [nestedDoc_length]
      omega
    have hslots : Slots JsonbBody 0 [.nested n]
        [entryWord jentryIsContainer false (0 + 0 + (nestedDoc n).length) (0 + (nestedDoc n).length)]
        ([] ++ nestedDoc n ++ []) :=
      @Slots.cons JsonbBody 0 _ _ _ _ [] (nestedDoc n) [] false (ih (by omega)) rfl hfits (.nil _)
    exact .array (by rw [List.length_singleton]; decide) hslots

/-- A single nested container fails to render if its content does. -/
theorem jsonbContainer_nested {write : Bytes → Except Fault (List Char)} {doc : Bytes} {f : Fault}
    (hdoc : doc.length < 2 ^ 28) (hwrite : write doc = .error f) :
    jsonbContainer write (containerBytes (jbFarray + 1) [jentryIsContainer + doc.length] doc) = .error f := by
  let word := jentryIsContainer + doc.length
  let c := containerBytes (jbFarray + 1) [word] doc
  have hword : word < 256 ^ 4 := by simp only [word, jentryIsContainer]; omega
  have hje : jentry c 0 = .ok word := by
    refine jentry_containerBytes ?_ rfl
    intro je hje
    exact List.mem_singleton.mp hje ▸ hword
  have hoff : word &&& jentryHasOff = 0 := by
    rw [show jentryHasOff = (2 ^ 1 - 1) * 2 ^ 31 by rfl, and_mask]
    simp only [word, jentryIsContainer]
    omega
  have hlenmask : word &&& jentryOfflenmask = doc.length := by
    rw [show jentryOfflenmask = (2 ^ 28 - 1) * 2 ^ 0 by rfl, and_mask]
    simp only [word, jentryIsContainer]
    omega
  have htype : word &&& jentryTypemask = jentryIsContainer := by
    rw [show jentryTypemask = (2 ^ 3 - 1) * 2 ^ 28 by rfl, and_mask]
    simp only [word, jentryIsContainer]
    omega
  have hends : jsonbEnds c 1 0 0 = .ok [doc.length] := by
    simp only [jsonbEnds, hje, bind, Except.bind, jentryEnd, hoff, ne_eq, not_true_eq_false, if_false, hlenmask,
      Nat.zero_add]
    rfl
  have hclen : c.length = 8 + doc.length := by
    simp only [c, containerBytes, List.length_append, toLe_length, List.flatMap_cons, List.flatMap_nil,
      List.length_nil]
    omega
  have hslot : (c.take (8 + doc.length)).drop 8 = doc := by
    rw [← hclen, List.take_length]
    rfl
  have hvalue : jsonbValue write c [doc.length] 8 0 = .error f := by
    simp only [jsonbValue, hje, bind, Except.bind, List.getElem?_cons_zero, if_true, Nat.add_zero, htype]
    rw [if_neg (by omega)]
    simp only [jentryIsContainer, jentryIsString, jentryIsBoolTrue, jentryIsBoolFalse, jentryIsNull,
      jentryIsNumeric, Nat.reduceEqDiff, if_false, alignedSlot, OfNat.ofNat_ne_zero]
    rw [show (4 - 8 % 4) % 4 = 0 by rfl, Nat.add_zero, if_neg (by omega), hslot]
    exact hwrite
  have hheader : fromLe (c.take 4) = jbFarray + 1 := by
    have htake : c.take 4 = toLe 4 (jbFarray + 1) := rfl
    rw [htake, fromLe_toLe (by decide)]
  have hshort : ¬ c.length < 4 := by omega
  have hmasks : jbFarray + 1 &&& jbCmask = 1 ∧ jbFarray + 1 &&& jbFobject = 0 ∧ jbFarray + 1 &&& jbFscalar = 0 := by
    decide
  show jsonbContainer write c = _
  simp only [jsonbContainer, if_neg hshort, hheader, hmasks, ne_eq, not_true_eq_false, if_false,
    hends, bind, Except.bind, Nat.one_mul, Nat.reduceAdd, List.range_one,
    List.mapM_cons, hvalue]

/-- Nesting deeper than the levels left is an error. -/
theorem jsonbWrite_nestedDoc {n left : Nat} (hn : n < 2 ^ 20) (hleft : left ≤ n) :
    ∃ f, jsonbWrite left (nestedDoc n) = .error f := by
  induction n generalizing left with
  | zero =>
    obtain rfl : left = 0 := Nat.le_zero.mp hleft
    exact ⟨_, rfl⟩
  | succ n ih =>
    cases left with
    | zero => exact ⟨_, rfl⟩
    | succ left =>
      obtain ⟨f, hf⟩ := ih (by omega) (Nat.le_of_succ_le_succ hleft)
      refine ⟨f, ?_⟩
      have hword : entryWord jentryIsContainer false (0 + 0 + (nestedDoc n).length) (0 + (nestedDoc n).length) =
          jentryIsContainer + (nestedDoc n).length := by
        simp [entryWord]
      rw [jsonbWrite, nestedDoc, hword, List.nil_append, List.append_nil]
      exact jsonbContainer_nested (by rw [nestedDoc_length]; omega) hf

/-- 202 arrays, one level more than the page decoder follows. -/
def Datum.deep : Datum := .jsonb (.nested 201) (nestedDoc 201) (.container (jsonbBody_nestedDoc (by decide)))

/-- A document that does not render is rejected in every inline form. -/
theorem decodeValue_jsonb_error {z : Codecs} {doc bytes : Bytes} {f : Fault} (h : jsonbToString doc = .error f)
    (hform : VarlenaAt z doc 0 bytes) (toast : ToastCache) : decodeValue z toast bytes 0 .jsonb = .error f := by
  have hread : decodeVarlena z toast ([] ++ (bytes ++ [])) ([] : Bytes).length = _ :=
    VarlenaAt.decodeVarlena toast hform []
  rw [List.append_nil, List.nil_append, List.length_nil] at hread
  simp only [decodeValue, decodeText, hread, bind, Except.bind, h]

/-- The snapshot reads a deep document that the page decoder rejects. -/
theorem snapshot_deep_jsonb :
    (∃ bytes, Datum.deep.StoredAt .pglzOnly 0 bytes) ∧
    (∀ bytes, Datum.deep.StoredAt .pglzOnly 0 bytes →
      (decodeValue .pglzOnly .empty bytes 0 .jsonb).toOption = none) ∧
    decodeField Datum.deep.send .jsonb = .ok (.text (String.ofList (Json.nested 201).text)) := by
  have hpayload : Datum.deep.payload = some (nestedDoc 201) := by rw [Datum.deep, Datum.payload]
  refine ⟨⟨_, .varlena hpayload (.long (by rw [nestedDoc_length]; decide))⟩, fun bytes hstored => ?_, ?_⟩
  · obtain ⟨f, hf⟩ := jsonbWrite_nestedDoc (n := 201) (by decide) (Nat.le_refl 201)
    have hdeep : jsonbToString (nestedDoc 201) = .error f := by
      rw [jsonbToString, hf]
      rfl
    cases hstored with
    | fixed hfixed => cases hfixed
    | varlena hp hform =>
      rw [hpayload, Option.some.injEq] at hp
      rw [decodeValue_jsonb_error hdeep (hp ▸ hform)]
      rfl
  · have hvalue : Datum.deep.value = .ok (.text (String.ofList (Json.nested 201).text)) := by
      rw [Datum.deep, Datum.value]
    have hty : Datum.deep.ty = .jsonb := by rw [Datum.deep, Datum.ty]
    have hsent := Datum.deep.decodeField_send
    rw [hty, hvalue] at hsent
    exact hsent

end Ltap
