-- SUMMARY: Rows that are encoded again are read back: values, columns, and the null bitmap.
import OpenLtap.Wal.NumericText

/-!
# Encoding and decoding a row

The encoder walks the live columns of a row, the decoder the physical columns of a tuple.
A value in the form in which a decoder returns it is written as a datum of that value, so
the two walks agree column by column.
-/

namespace Ltap

/-! ## Uuids -/

/-- The byte of a hex digit. -/
def hexCode (n : Nat) : UInt8 := UInt8.ofNat n.digitChar.toNat

theorem hexCode_spec : ∀ n < 16, String.utf8EncodeChar n.digitChar = [hexCode n] ∧ hexDigit (hexCode n) = some n ∧
    hexCode n ≠ 0x2B ∧ ¬ Utf8.IsCont (hexCode n).toNat ∧ n.digitChar ≠ '-' := by
  decide +kernel

theorem byte_nibbles (b : UInt8) : b.toNat / 16 < 16 ∧ b.toNat % 16 < 16 := by
  have := b.toNat_lt
  omega

theorem hexByte_encode (b : UInt8) :
    (hexByte b).flatMap String.utf8EncodeChar = [hexCode (b.toNat / 16), hexCode (b.toNat % 16)] := by
  obtain ⟨hhi, hlo⟩ := byte_nibbles b
  simp [hexByte, (hexCode_spec _ hhi).1, (hexCode_spec _ hlo).1]

/-- The hex digits of bytes are read back. -/
theorem hexBytes_encode (bs : Bytes) :
    hexBytes ((bs.flatMap hexByte).flatMap String.utf8EncodeChar) = .ok (some bs) := by
  induction bs with
  | nil => rfl
  | cons b bs ih =>
    obtain ⟨hhi, hlo⟩ := byte_nibbles b
    obtain ⟨-, hdigitHi, hplus, -, -⟩ := hexCode_spec _ hhi
    obtain ⟨-, hdigitLo, -, -, -⟩ := hexCode_spec _ hlo
    have hnext : ¬ Utf8.IsCont (((bs.flatMap hexByte).flatMap String.utf8EncodeChar).headD 0).toNat := by
      cases bs with
      | nil => decide
      | cons c cs =>
        rw [List.flatMap_cons, List.flatMap_append, hexByte_encode]
        exact (hexCode_spec _ (byte_nibbles c).1).2.2.2.1
    have hpair : hexPair (hexCode (b.toNat / 16)) (hexCode (b.toNat % 16)) = some b := by
      rw [hexPair, if_neg hplus, hdigitHi, hdigitLo]
      simp only [Option.bind_eq_bind, Option.bind_some, Option.pure_def, Option.some.injEq]
      rw [Nat.div_add_mod', UInt8.ofNat_toNat]
    rw [List.flatMap_cons, List.flatMap_append, hexByte_encode, List.cons_append, List.cons_append, List.nil_append,
      hexBytes, if_neg hnext, hpair]
    simp only [ih, bind, Except.bind]
    rfl

/-- Cutting a text at four places loses nothing. -/
theorem split_hex {hex : List Char} (h : hex.length = 32) :
    hex.take 8 ++ (hex.drop 8).take 4 ++ (hex.drop 12).take 4 ++ (hex.drop 16).take 4 ++ (hex.drop 20).take 12 =
      hex := by
  have hcut : ∀ n k, hex.take n ++ (hex.drop n).take k = hex.take (n + k) :=
    fun n k => (List.take_add (l := hex) (i := n) (j := k)).symm
  rw [hcut, hcut, hcut, hcut]
  exact List.take_of_length_le (Nat.le_of_eq h)

theorem uuidBytes_formatUuid {b : Bytes} {t : String} (hlen : b.length = 16) (h : formatUuid b = .ok t) :
    uuidBytes t = .ok (some b) := by
  have hhex : (b.flatMap hexByte).length = 32 := by
    rw [List.length_flatMap]
    simp [hexByte, hlen]
  have hmem : ∀ c ∈ b.flatMap hexByte, c ≠ '-' := by
    intro c hc
    obtain ⟨x, -, hc⟩ := List.mem_flatMap.mp hc
    obtain ⟨hhi, hlo⟩ := byte_nibbles x
    rcases List.mem_cons.mp hc with rfl | hc
    · exact (hexCode_spec _ hhi).2.2.2.2
    · obtain rfl := List.mem_singleton.mp hc
      exact (hexCode_spec _ hlo).2.2.2.2
  have hencode := hexBytes_encode b
  have hbytes : ((b.flatMap hexByte).flatMap String.utf8EncodeChar).length = 32 := by
    rw [List.flatMap_assoc, List.length_flatMap]
    simp [hexByte_encode, hlen]
  rw [formatUuid, if_neg (by omega)] at h
  obtain rfl := Except.ok.inj h
  generalize b.flatMap hexByte = hex at *
  have hplain : ∀ n k, ((hex.drop n).take k).filter (· ≠ '-') = (hex.drop n).take k := by
    intro n k
    refine List.filter_eq_self.mpr fun c hc => ?_
    exact decide_eq_true (hmem c (List.mem_of_mem_drop (List.mem_of_mem_take hc)))
  have hfilter : (hex.take 8 ++ '-' :: (hex.drop 8).take 4 ++ '-' :: (hex.drop 12).take 4 ++
      '-' :: (hex.drop 16).take 4 ++ '-' :: (hex.drop 20).take 12).filter (· ≠ '-') = hex := by
    have hfirst := hplain 0 8
    rw [List.drop_zero] at hfirst
    simp only [List.filter_append, List.filter_cons, ne_eq, not_true_eq_false, decide_false, Bool.false_eq_true,
      if_false] at hplain hfirst ⊢
    rw [hfirst, hplain, hplain, hplain, hplain, split_hex hhex]
  rw [uuidBytes, String.toList_ofList, hfilter]
  simp only [hbytes, ne_eq, not_true_eq_false, if_false, hencode]

/-! ## Values -/

/-- The values of a signed machine integer. -/
def InRange (bits : Nat) (x : Int) : Prop := -2 ^ (bits - 1) ≤ x ∧ x < 2 ^ (bits - 1)

instance (bits : Nat) (x : Int) : Decidable (InRange bits x) :=
  inferInstanceAs (Decidable (_ ∧ _))

/-- A value of a column in the form in which a decoder returns it. -/
def Decoded : PgType → Value → Prop
  | .int2, .i16 x => InRange 16 x
  | .int4, .i32 x | .date, .i32 x => InRange 32 x
  | .int8, .i64 x | .timestamp, .i64 x | .timestampTz, .i64 x => InRange 64 x
  | .uuid, .text t => ∃ b : Bytes, b.length = 16 ∧ formatUuid b = .ok t
  | .numeric, .text t => (∃ payload, numericToString payload = .ok t) ∧ ¬ IsNegZero t
  | _, _ => True

theorem ofNat_toTwos (bits : Nat) (x : Int) : (BitVec.ofNat bits (toTwos bits x)).toNat = toTwos bits x := by
  rw [BitVec.toNat_ofNat, Nat.mod_eq_of_lt (toTwos_lt bits x)]

theorem InRange.fromTwos_ofNat {bits : Nat} (hbits : 0 < bits) {x : Int} (h : InRange bits x) :
    fromTwos bits (BitVec.ofNat bits (toTwos bits x)).toNat = x := by
  rw [ofNat_toTwos, fromTwos_toTwos hbits h.1 h.2]

/-- The shift to the epoch of the server and back. -/
theorem checkedAdd_checkedSub {bits : Nat} (hbits : 0 < bits) {x y days : Int} (hx : InRange bits x)
    (h : checkedSub bits x y = .ok days) :
    checkedAdd bits (fromTwos bits (BitVec.ofNat bits (toTwos bits days)).toNat) y = .ok x := by
  unfold checkedSub at h
  split at h
  · rename_i hrange
    obtain rfl := Except.ok.inj h
    rw [InRange.fromTwos_ofNat hbits hrange, checkedAdd, sub_add_cancel]
    exact if_pos hx
  · cases h

/-- Behind the buffer stands a datum of the value. -/
def Appends (z : Codecs) (buf : Bytes) (ty : PgType) (v : Value) (out : Bytes) : Prop :=
  ∃ (d : Datum) (bytes : Bytes), d.ty = ty ∧ d.Shallow ∧ d.value = .ok v ∧ d.StoredAt z buf.length bytes ∧
    out = buf ++ bytes

/-! ## Plain data -/

namespace Datum

/-- What the encoder can write: of a number the long form, a text that is one, and no document. -/
def Plain : Datum → Prop
  | bool b => b = 0 ∨ b = 1
  | text b => ∃ s, b = Utf8.encode s
  | numericLong n => n.Reduced
  | numericShort _ _ | jsonb _ _ _ => False
  | _ => True

/-- The form in which the encoder writes a datum at an offset: a varlena behind a one-byte header. -/
inductive WrittenAt (d : Datum) (off : Nat) : Bytes → Prop where
  | fixed {align : Nat} {b : Bytes} : d.fixedBytes = some (align, b) → WrittenAt d off (padding off align ++ b)
  | varlena {p : Bytes} : d.payload = some p → p.length ≤ 126 →
    WrittenAt d off (UInt8.ofNat ((p.length + 1) * 2 + 1) :: p)

variable {d : Datum}

theorem Plain.shallow (h : d.Plain) : d.Shallow := by
  cases d with
  | jsonb => exact h.elim
  | _ => trivial

theorem WrittenAt.storedAt {off : Nat} {bytes : Bytes} (h : d.WrittenAt off bytes) (z : Codecs) :
    d.StoredAt z off bytes := by
  cases h with
  | fixed hfixed => exact .fixed hfixed
  | varlena hpayload hlen => exact .varlena hpayload (.short hlen)

end Datum

/-- A value as the decoder returns it, which may be a zero with a sign. -/
def Returned (ty : PgType) (v : Value) : Prop :=
  Decoded ty v ∨ ∃ t, ty = .numeric ∧ v = .text t ∧ ∃ payload, numericToString payload = .ok t

/-- Behind the buffer stands a plain datum, of the value if that is no zero with a sign. -/
def Writes (buf : Bytes) (ty : PgType) (v : Value) (out : Bytes) : Prop :=
  ∃ (d : Datum) (bytes : Bytes), d.ty = ty ∧ d.Plain ∧ d.WrittenAt buf.length bytes ∧
    (Decoded ty v → d.value = .ok v) ∧ out = buf ++ bytes

section Writes

variable {buf out : Bytes} {v : Value}

/-- A value of one-byte alignment is appended as it is. -/
theorem Writes.unaligned {d : Datum} {b : Bytes} (hplain : d.Plain) (hfixed : d.fixedBytes = some (1, b))
    (hvalue : d.value = .ok v) : Writes buf d.ty v (buf ++ b) :=
  ⟨d, _, rfl, hplain, .fixed hfixed, fun _ => hvalue, by rw [padding_one, List.nil_append]⟩

theorem Writes.aligned {d : Datum} {align : Nat} {b : Bytes} (hplain : d.Plain)
    (hfixed : d.fixedBytes = some (align, b)) (hvalue : d.value = .ok v) :
    Writes buf d.ty v (padPut buf align b) :=
  ⟨d, _, rfl, hplain, .fixed hfixed, fun _ => hvalue, List.append_assoc _ _ _⟩

theorem Writes.varlena {d : Datum} {payload : Bytes} (hplain : d.Plain) (hpayload : d.payload = some payload)
    (hvalue : Decoded d.ty v → d.value = .ok v) (h : encodeShortVarlena buf payload = some out) :
    Writes buf d.ty v out := by
  unfold encodeShortVarlena at h
  split at h
  · cases h
  · rename_i hlen
    obtain rfl := Option.some.inj h
    exact ⟨d, _, rfl, hplain, .varlena hpayload (Nat.le_of_not_lt hlen), hvalue, rfl⟩

theorem writes_uuid {t : String} (hv : Decoded .uuid (.text t)) (h : encodeValue buf .uuid (.text t) = .ok (some out)) :
    Writes buf .uuid (.text t) out := by
  obtain ⟨b, hlen, ht⟩ := hv
  simp only [encodeValue, uuidBytes_formatUuid hlen ht] at h
  obtain rfl := Option.some.inj (Except.ok.inj h)
  refine .unaligned (d := .uuid b hlen) trivial rfl ?_
  rw [Datum.value, ht]
  rfl

theorem writes_numeric {payload : Bytes} {t : String} (hprinted : numericToString payload = .ok t)
    (h : encodeValue buf .numeric (.text t) = .ok (some out)) : Writes buf .numeric (.text t) out := by
  obtain ⟨form, hform, hshort⟩ := Option.bind_eq_some_iff.mp (Except.ok.inj h)
  have hparse : numericFromString t = .ok form := by
    cases hp : numericFromString t with
    | error e =>
      rw [hp] at hform
      cases hform
    | ok f =>
      rw [hp] at hform
      cases hform
      rfl
  have hlen : form.length ≤ 126 := by
    by_contra hlong
    rw [encodeShortVarlena, if_pos (Nat.lt_of_not_le hlong)] at hshort
    cases hshort
  rcases numericFromString_printed hprinted hparse hlen with ⟨s, rfl, rfl⟩ | ⟨n, hred, rfl, htext⟩
  · exact .varlena (d := .numericSpecial s 0 0) trivial rfl (fun _ => rfl) hshort
  · refine .varlena (d := .numericLong n) hred rfl ?_ hshort
    intro hv
    rw [Datum.value, htext hv.2]

/-- What is written for a value is plain. -/
theorem encodeValue_writes {ty : PgType} (hv : Returned ty v) (h : encodeValue buf ty v = .ok (some out)) :
    Writes buf ty v out := by
  rcases hv with hv | ⟨t, rfl, rfl, payload, hprinted⟩
  · unfold encodeValue at h
    split at h
    · -- bool
      rename_i b
      obtain rfl := Option.some.inj (Except.ok.inj h)
      refine .unaligned (d := .bool (if b then 1 else 0)) ?_ rfl ?_
      · cases b
        · exact .inl rfl
        · exact .inr rfl
      · cases b <;> rfl
    · -- int2
      rename_i x
      obtain rfl := Option.some.inj (Except.ok.inj h)
      refine .aligned (d := .int2 (BitVec.ofNat 16 (toTwos 16 x))) trivial ?_ ?_
      · rw [Datum.fixedBytes, ofNat_toTwos]
      · rw [Datum.value, hv.fromTwos_ofNat (by decide)]
    · -- int4
      rename_i x
      obtain rfl := Option.some.inj (Except.ok.inj h)
      refine .aligned (d := .int4 (BitVec.ofNat 32 (toTwos 32 x))) trivial ?_ ?_
      · rw [Datum.fixedBytes, ofNat_toTwos]
      · rw [Datum.value, hv.fromTwos_ofNat (by decide)]
    · -- int8
      rename_i x
      obtain rfl := Option.some.inj (Except.ok.inj h)
      refine .aligned (d := .int8 (BitVec.ofNat 64 (toTwos 64 x))) trivial ?_ ?_
      · rw [Datum.fixedBytes, ofNat_toTwos]
      · rw [Datum.value, hv.fromTwos_ofNat (by decide)]
    · -- float4
      obtain rfl := Option.some.inj (Except.ok.inj h)
      exact .aligned (d := .float4 _) trivial rfl rfl
    · -- float8
      obtain rfl := Option.some.inj (Except.ok.inj h)
      exact .aligned (d := .float8 _) trivial rfl rfl
    · -- date
      obtain ⟨days, hdays, h⟩ := bind_eq_ok.mp h
      obtain rfl := Option.some.inj (Except.ok.inj h)
      refine .aligned (d := .date (BitVec.ofNat 32 (toTwos 32 days))) trivial ?_ ?_
      · rw [Datum.fixedBytes, ofNat_toTwos]
      · exact congrArg (Value.i32 <$> ·) (checkedAdd_checkedSub (by decide) hv hdays)
    · -- timestamp
      obtain ⟨micros, hmicros, h⟩ := bind_eq_ok.mp h
      obtain rfl := Option.some.inj (Except.ok.inj h)
      refine .aligned (d := .timestamp (BitVec.ofNat 64 (toTwos 64 micros))) trivial ?_ ?_
      · rw [Datum.fixedBytes, ofNat_toTwos]
      · exact congrArg (Value.i64 <$> ·) (checkedAdd_checkedSub (by decide) hv hmicros)
    · -- timestamptz
      obtain ⟨micros, hmicros, h⟩ := bind_eq_ok.mp h
      obtain rfl := Option.some.inj (Except.ok.inj h)
      refine .aligned (d := .timestampTz (BitVec.ofNat 64 (toTwos 64 micros))) trivial ?_ ?_
      · rw [Datum.fixedBytes, ofNat_toTwos]
      · exact congrArg (Value.i64 <$> ·) (checkedAdd_checkedSub (by decide) hv hmicros)
    · exact writes_uuid hv h
    · -- text
      rename_i t
      refine .varlena (d := .text (Utf8.encode t)) ⟨t, rfl⟩ rfl ?_ (Except.ok.inj h)
      intro _
      rw [Datum.value, Utf8.lossy_encode]
    · exact .varlena (d := .bytea _) trivial rfl (fun _ => rfl) (Except.ok.inj h)
    · exact writes_numeric hv.1.choose_spec h
    · cases h
  · exact writes_numeric hprinted h

/-- What is written for a value is a datum of that value. -/
theorem encodeValue_datum {z : Codecs} {ty : PgType} (hv : Decoded ty v) (h : encodeValue buf ty v = .ok (some out)) :
    Appends z buf ty v out := by
  obtain ⟨d, bytes, hty, hplain, hwritten, hvalue, hout⟩ := encodeValue_writes (.inl hv) h
  exact ⟨d, bytes, hty, hplain.shallow, hvalue hv, hwritten.storedAt z, hout⟩

theorem encodeShortVarlena_extends {payload : Bytes} (h : encodeShortVarlena buf payload = some out) :
    ∃ bytes, out = buf ++ bytes := by
  unfold encodeShortVarlena at h
  split at h
  · cases h
  · exact ⟨_, (Option.some.inj h).symm⟩

theorem encodeValue_extends {ty : PgType} (h : encodeValue buf ty v = .ok (some out)) : ∃ bytes, out = buf ++ bytes := by
  have haligned : ∀ {align b}, (.ok (some (padPut buf align b)) : Except Fault _) = .ok (some out) →
      ∃ bytes, out = buf ++ bytes := by
    intro align b hput
    exact ⟨_, (Option.some.inj (Except.ok.inj hput)).symm.trans (List.append_assoc _ _ _)⟩
  unfold encodeValue at h
  split at h
  · exact ⟨_, (Option.some.inj (Except.ok.inj h)).symm⟩
  · exact haligned h
  · exact haligned h
  · exact haligned h
  · exact haligned h
  · exact haligned h
  · -- date
    obtain ⟨days, -, h⟩ := bind_eq_ok.mp h
    exact haligned h
  · -- timestamp
    obtain ⟨micros, -, h⟩ := bind_eq_ok.mp h
    exact haligned h
  · -- timestamptz
    obtain ⟨micros, -, h⟩ := bind_eq_ok.mp h
    exact haligned h
  · -- uuid
    obtain ⟨bytes, -, h⟩ := bind_eq_ok.mp h
    obtain ⟨b, -, rfl⟩ := Option.map_eq_some_iff.mp (Except.ok.inj h)
    exact ⟨b, rfl⟩
  · exact encodeShortVarlena_extends (Except.ok.inj h)
  · exact encodeShortVarlena_extends (Except.ok.inj h)
  · -- numeric
    obtain ⟨form, -, h⟩ := Option.bind_eq_some_iff.mp (Except.ok.inj h)
    exact encodeShortVarlena_extends h
  · cases h

end Writes

/-! ## Columns -/

/-- The column of an attribute that is not dropped. -/
def PhysCol.live? : PhysCol → Option Col
  | .live col => some col
  | .dropped _ _ => none

/-- The nulls of a row, by attribute. A dropped one has no value. -/
def nullFlags (row : Row) : Nat → List PhysCol → List Bool
  | _, [] => []
  | liveI, .dropped _ _ :: rest => true :: nullFlags row liveI rest
  | liveI, .live _ :: rest => (row[liveI]?).join.isNone :: nullFlags row (liveI + 1) rest

/-- The values of a row from the live column `liveI` on are in decoded form. -/
def DecodedFrom (row : Row) (liveI : Nat) (cols : List Col) : Prop :=
  ∀ (k : Nat) (col : Col) (v : Value), cols[k]? = some col → row[liveI + k]? = some (some v) → Decoded col.ty v

theorem DecodedFrom.tail {row : Row} {liveI : Nat} {col : Col} {cols : List Col}
    (h : DecodedFrom row liveI (col :: cols)) : DecodedFrom row (liveI + 1) cols := by
  intro k c v hk hv
  rw [Nat.add_right_comm] at hv
  exact h (k + 1) c v hk hv

/-- The encoder only appends. -/
theorem encodeCols_extends {row : Row} {cols : List Col} {liveI : Nat} {buf out : Bytes}
    (h : encodeCols row liveI buf cols = .ok (some out)) : ∃ rest, out = buf ++ rest := by
  induction cols generalizing liveI buf with
  | nil =>
    obtain rfl := Option.some.inj (Except.ok.inj h)
    exact ⟨[], (List.append_nil _).symm⟩
  | cons col cols ih =>
    rw [encodeCols] at h
    split at h
    · cases h
    · exact ih h
    · obtain ⟨value, hvalue, h⟩ := bind_eq_ok.mp h
      cases value with
      | none => cases h
      | some buf' =>
        obtain ⟨bytes, rfl⟩ := encodeValue_extends hvalue
        obtain ⟨rest, rfl⟩ := ih h
        exact ⟨bytes ++ rest, List.append_assoc _ _ _⟩

/-- The attribute loop reads the row back that was encoded. -/
theorem decodeAttrs_encodeCols {z : Codecs} {toast : ToastCache} {t : TupleBody} {row : Row} {phys : List PhysCol}
    {i liveI : Nat} {buf : Bytes} (hdecoded : DecodedFrom row liveI (phys.filterMap PhysCol.live?))
    (hencode : encodeCols row liveI buf (phys.filterMap PhysCol.live?) = .ok (some t.data))
    (hlen : row.length = liveI + (phys.filterMap PhysCol.live?).length) (hnatts : i + phys.length ≤ t.natts)
    (hnull : ∀ (k : Nat) (b : Bool), (nullFlags row liveI phys)[k]? = some b → t.isNull (i + k) = .ok b) :
    decodeAttrs z toast t i buf.length liveI phys = .ok (row.drop liveI) := by
  induction phys generalizing i liveI buf with
  | nil =>
    rw [List.drop_of_length_le (by simp at hlen; omega)]
    rfl
  | cons pc rest ih =>
    have hi : i < t.natts := by
      rw [List.length_cons] at hnatts
      omega
    have hnatts' : i + 1 + rest.length ≤ t.natts := by
      rw [List.length_cons] at hnatts
      omega
    cases pc with
    | dropped attlen align =>
      have hisNull := hnull 0 true rfl
      have hrest : ∀ (k : Nat) (b : Bool), (nullFlags row liveI rest)[k]? = some b → t.isNull (i + 1 + k) = .ok b := by
        intro k b hk
        rw [Nat.add_right_comm]
        exact hnull (k + 1) b hk
      rw [(Entry.nullDropped attlen align hi hisNull).decodeAttrs_eq, PhysCol.nextLive,
        ih hdecoded hencode hlen hnatts' hrest]
      rfl
    | live col =>
      have hlen' : row.length = liveI + 1 + (rest.filterMap PhysCol.live?).length := by
        rw [hlen, List.filterMap_cons_some (by rfl), List.length_cons]
        omega
      have hrest : ∀ (k : Nat) (b : Bool), (nullFlags row (liveI + 1) rest)[k]? = some b →
          t.isNull (i + 1 + k) = .ok b := by
        intro k b hk
        rw [Nat.add_right_comm]
        exact hnull (k + 1) b hk
      have hlt : liveI < row.length := by omega
      have hdrop : row.drop liveI = row[liveI] :: row.drop (liveI + 1) := List.drop_eq_getElem_cons hlt
      have hget : row[liveI]? = some row[liveI] := List.getElem?_eq_getElem hlt
      rw [List.filterMap_cons_some (by rfl)] at hencode hdecoded
      rw [encodeCols, hget] at hencode
      cases hvalue : row[liveI] with
      | none =>
        rw [hvalue] at hencode hget
        have hisNull : t.isNull i = .ok true := hnull 0 true (by simp [nullFlags, hget])
        rw [(Entry.nullLive col hi hisNull).decodeAttrs_eq, PhysCol.nextLive,
          ih hdecoded.tail hencode hlen' hnatts' hrest, hdrop, hvalue]
        rfl
      | some v =>
        rw [hvalue] at hencode hget
        have hisNull : t.isNull i = .ok false := hnull 0 false (by simp [nullFlags, hget])
        obtain ⟨encoded, hencoded, hencode⟩ := bind_eq_ok.mp hencode
        cases encoded with
        | none => cases hencode
        | some buf' =>
          obtain ⟨d, bytes, hty, hshallow, hdvalue, hstored, rfl⟩ :=
            encodeValue_datum (z := z) (hdecoded 0 col v rfl hget) hencoded
          obtain ⟨after, hdata⟩ := encodeCols_extends hencode
          have hread : decodeValue z toast t.data buf.length col.ty = .ok (some v, (buf ++ bytes).length) := by
            rw [hdata, List.append_assoc, ← hty, Datum.decodeValue_stored toast hstored hshallow after, hdvalue,
              List.length_append]
            rfl
          rw [(Entry.value hi hisNull hread).decodeAttrs_eq, PhysCol.nextLive,
            ih hdecoded.tail hencode hlen' hnatts' hrest, hdrop, hvalue]
          rfl

end Ltap
