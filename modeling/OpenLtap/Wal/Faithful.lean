-- SUMMARY: When a tuple that is decoded and encoded again gives its own bytes.
import OpenLtap.Wal.Reencode

/-!
# Faithful re-encoding

A row does not tell how its values were stored. The encoder writes each of them in one form
and leaves no room for dropped columns, so a tuple gets its bytes back only if its values
stand in that form, one behind the other.
-/

namespace Ltap

/-! ## Values that are returned -/

theorem fromTwos_inRange {bits x : Nat} (hx : x < 2 ^ bits) : InRange bits (fromTwos bits x) :=
  ⟨fromTwos_ge bits x, fromTwos_lt hx⟩

theorem toTwos_fromTwos {bits x : Nat} (hx : x < 2 ^ bits) : toTwos bits (fromTwos bits x) = x := by
  have hnat : ((2 ^ bits : Nat) : Int) = 2 ^ bits := by push_cast; rfl
  unfold toTwos fromTwos
  split
  · rw [Int.emod_eq_of_lt (by omega) (by omega), Int.toNat_natCast]
  · rw [← Int.add_emod_right, sub_add_cancel, Int.emod_eq_of_lt (by omega) (by omega), Int.toNat_natCast]

theorem checkedAdd_inRange {bits : Nat} {x y sum : Int} (h : checkedAdd bits x y = .ok sum) : InRange bits sum := by
  unfold checkedAdd at h
  split at h
  · rename_i hrange
    obtain rfl := Except.ok.inj h
    exact hrange
  · cases h

/-- The shift from the epoch of the server and back. -/
theorem checkedSub_checkedAdd {bits : Nat} {x y sum : Int} (hx : InRange bits x) (h : checkedAdd bits x y = .ok sum) :
    checkedSub bits sum y = .ok x := by
  unfold checkedAdd at h
  split at h
  · obtain rfl := Except.ok.inj h
    rw [checkedSub, add_sub_cancel_right]
    exact if_pos hx
  · cases h

section Returned

variable {z : Codecs} {toast : ToastCache} {data : Bytes} {off off' : Nat}

theorem fixed_fromLe {align n : Nat} {what : String} {s : Bytes} (h : fixed data off align n what = .ok (s, off')) :
    fromLe s < 256 ^ n :=
  (fixed_ok h).1 ▸ fromLe_lt s

/-- The value of a result with an offset. -/
theorem some_ok {v w : Value} {n : Nat} (h : (.ok (some w, n) : Except Fault _) = .ok (some v, off')) : w = v :=
  Option.some.inj (Prod.ext_iff.mp (Except.ok.inj h)).1

theorem decodeValue_returned {ty : PgType} {v : Value} (h : decodeValue z toast data off ty = .ok (some v, off')) :
    Returned ty v := by
  have htext : ∀ {render}, decodeText z toast render data off = .ok (some v, off') →
      ∃ t, v = .text t ∧ ∃ payload, render payload = .ok t := by
    intro render h
    rcases decodeText_ok h with ⟨hv, -⟩ | ⟨payload, t, -, hrender, hv⟩
    · cases hv
    · exact ⟨t, Option.some.inj hv, payload, hrender⟩
  cases ty with
  | bool =>
    rw [decodeValue] at h
    split at h
    · cases h
    · exact some_ok h ▸ .inl trivial
  | int2 | int4 | int8 =>
    obtain ⟨⟨s, newOff⟩, hfixed, h⟩ := bind_eq_ok.mp h
    exact some_ok h ▸ .inl (fromTwos_inRange (fixed_fromLe hfixed))
  | float4 | float8 =>
    obtain ⟨⟨s, newOff⟩, -, h⟩ := bind_eq_ok.mp h
    exact some_ok h ▸ .inl trivial
  | date | timestamp | timestampTz =>
    obtain ⟨⟨s, newOff⟩, -, h⟩ := bind_eq_ok.mp h
    obtain ⟨sum, hsum, h⟩ := bind_eq_ok.mp h
    exact some_ok h ▸ .inl (checkedAdd_inRange hsum)
  | uuid =>
    rw [decodeValue] at h
    split at h
    · exact (truncated_ne_ok h).elim
    · rename_i s hslice
      obtain ⟨t, ht, h⟩ := bind_eq_ok.mp h
      exact some_ok h ▸ .inl ⟨s, slice_length hslice, ht⟩
  | text | jsonb =>
    obtain ⟨t, rfl, -⟩ := htext h
    exact .inl trivial
  | bytea =>
    obtain ⟨⟨bytes, newOff⟩, -, h⟩ := bind_eq_ok.mp h
    obtain ⟨b, -, rfl⟩ := Option.map_eq_some_iff.mp (Prod.ext_iff.mp (Except.ok.inj h)).1
    exact .inl trivial
  | numeric =>
    obtain ⟨t, rfl, hprinted⟩ := htext h
    exact .inr ⟨t, rfl, rfl, hprinted⟩

end Returned

/-! ## Plain values -/

theorem map_eq_ok {α β : Type} {f : α → β} {x : Except Fault α} {b : β} (h : f <$> x = .ok b) :
    ∃ a, x = .ok a ∧ f a = b := by
  cases x with
  | error e => cases h
  | ok a => exact ⟨a, rfl, Except.ok.inj h⟩

section Plain

variable {d : Datum} {buf bytes : Bytes} {v : Value}

theorem encodeShortVarlena_eq {p : Bytes} (h : p.length ≤ 126) :
    encodeShortVarlena buf p = some (buf ++ UInt8.ofNat ((p.length + 1) * 2 + 1) :: p) :=
  if_neg (Nat.not_lt.mpr h)

/-- A plain datum is written as it stands. -/
theorem Datum.Plain.encodeValue (hplain : d.Plain) (hwritten : d.WrittenAt buf.length bytes) (hvalue : d.value = .ok v) :
    encodeValue buf d.ty v = .ok (some (buf ++ bytes)) := by
  have hput : ∀ align b, padPut buf align b = buf ++ (padding buf.length align ++ b) :=
    fun align b => List.append_assoc _ _ _
  cases hwritten with
  | @fixed align b hfixed =>
    cases d with
    | bool c =>
      obtain ⟨rfl, rfl⟩ := Prod.ext_iff.mp (Option.some.inj hfixed)
      obtain rfl := Except.ok.inj hvalue
      rw [padding_one]
      rcases hplain with rfl | rfl <;> rfl
    | uuid c hlen =>
      obtain ⟨rfl, rfl⟩ := Prod.ext_iff.mp (Option.some.inj hfixed)
      obtain ⟨t, ht, rfl⟩ := map_eq_ok hvalue
      simp only [ty, encodeValue, uuidBytes_formatUuid hlen ht, padding_one]
      rfl
    | int2 x | int4 x | int8 x =>
      obtain ⟨rfl, rfl⟩ := Prod.ext_iff.mp (Option.some.inj hfixed)
      obtain rfl := Except.ok.inj hvalue
      rw [ty, Ltap.encodeValue, toTwos_fromTwos x.isLt, hput]
    | float4 x | float8 x =>
      obtain ⟨rfl, rfl⟩ := Prod.ext_iff.mp (Option.some.inj hfixed)
      obtain rfl := Except.ok.inj hvalue
      rw [ty, Ltap.encodeValue, hput]
    | date x | timestamp x | timestampTz x =>
      obtain ⟨rfl, rfl⟩ := Prod.ext_iff.mp (Option.some.inj hfixed)
      obtain ⟨sum, hsum, rfl⟩ := map_eq_ok hvalue
      simp only [ty, Ltap.encodeValue, checkedSub_checkedAdd (fromTwos_inRange x.isLt) hsum, bind, Except.bind,
        toTwos_fromTwos x.isLt, hput]
      rfl
    | text | bytea | numericLong | numericShort | numericSpecial | jsonb => cases hfixed
  | @varlena p hpayload hlen =>
    have hshort := @encodeShortVarlena_eq buf p hlen
    cases d with
    | text c =>
      obtain rfl := Option.some.inj hpayload
      obtain rfl := Except.ok.inj hvalue
      obtain ⟨s, rfl⟩ := hplain
      rw [ty, Ltap.encodeValue, Utf8.lossy_encode, hshort]
    | bytea c =>
      obtain rfl := Option.some.inj hpayload
      obtain rfl := Except.ok.inj hvalue
      rw [ty, Ltap.encodeValue, hshort]
    | numericLong n =>
      obtain rfl := Option.some.inj hpayload
      obtain rfl := Except.ok.inj hvalue
      rw [ty, Ltap.encodeValue, hplain.numericFromString, Except.toOption, Option.bind_some, hshort]
    | numericSpecial s weight dscale =>
      obtain rfl := Option.some.inj hpayload
      obtain rfl := Except.ok.inj hvalue
      rw [ty, Ltap.encodeValue, numericFromString_special, Except.toOption, Option.bind_some, hshort]
    | numericShort | jsonb => exact hplain.elim
    | bool | int2 | int4 | int8 | float4 | float8 | date | timestamp | timestampTz | uuid => cases hpayload

end Plain

/-- At an offset stands a plain value of a type, which ends at the other one. -/
def PlainAt (data : Bytes) (off : Nat) (ty : PgType) (off' : Nat) : Prop :=
  ∃ (d : Datum) (before bytes after : Bytes), d.ty = ty ∧ d.Plain ∧ d.WrittenAt off bytes ∧
    data = before ++ (bytes ++ after) ∧ before.length = off ∧ off' = off + bytes.length

section PlainAt

variable {z : Codecs} {toast : ToastCache} {data : Bytes} {off off' n : Nat} {ty : PgType} {v : Value}

/-- A plain value is read as the one of its datum, up to its end. -/
theorem PlainAt.read {x : Option Value} (h : PlainAt data off ty off')
    (hread : decodeValue z toast data off ty = .ok (x, n)) :
    n = off' ∧ ∃ (d : Datum) (v : Value) (before bytes after : Bytes), x = some v ∧ d.ty = ty ∧ d.Plain ∧
      d.WrittenAt off bytes ∧ d.value = .ok v ∧ data = before ++ (bytes ++ after) ∧ before.length = off ∧
        off' = off + bytes.length := by
  obtain ⟨d, before, bytes, after, rfl, hplain, hwritten, rfl, rfl, rfl⟩ := h
  rw [Datum.decodeValue_stored toast (hwritten.storedAt z) hplain.shallow] at hread
  cases hvalue : d.value with
  | error e =>
    rw [hvalue] at hread
    cases hread
  | ok v =>
    rw [hvalue] at hread
    obtain ⟨rfl, rfl⟩ := Prod.ext_iff.mp (Except.ok.inj hread)
    exact ⟨rfl, d, v, before, bytes, after, rfl, rfl, hplain, hwritten, hvalue, rfl, rfl, rfl⟩

/-- A plain value needs no old row. -/
theorem PlainAt.not_missing (h : PlainAt data off ty off') : decodeValue z toast data off ty ≠ .ok (none, n) := by
  intro hread
  obtain ⟨-, d, v, before, bytes, after, hv, -⟩ := h.read hread
  cases hv

/-- A plain value that is read is written as it stands. -/
theorem PlainAt.encodeValue {buf rest : Bytes} (h : PlainAt data off ty off') (hdata : data = buf ++ rest)
    (hbuf : buf.length = off) (hread : decodeValue z toast data off ty = .ok (some v, n)) :
    ∃ buf' rest', encodeValue buf ty v = .ok (some buf') ∧ data = buf' ++ rest' ∧ buf'.length = off' := by
  obtain ⟨-, d, w, before, bytes, after, hw, rfl, hplain, hwritten, hvalue, rfl, rfl, rfl⟩ := h.read hread
  obtain ⟨rfl, rfl⟩ := List.append_inj hdata hbuf.symm
  obtain rfl := Option.some.inj hw
  exact ⟨_, after, hplain.encodeValue hwritten hvalue, (List.append_assoc _ _ _).symm, List.length_append⟩

/-- What is written for a value is plain. -/
theorem Writes.plainAt {buf buf' rest : Bytes} (h : Writes buf ty v buf') (hdata : data = buf' ++ rest) :
    PlainAt data buf.length ty buf'.length := by
  obtain ⟨d, bytes, rfl, hplain, hwritten, -, rfl⟩ := h
  rw [List.append_assoc] at hdata
  exact ⟨d, buf, bytes, rest, rfl, hplain, hwritten, hdata, rfl, List.length_append⟩

/-- What is written for a value is read as it, unless it is a zero with a sign. -/
theorem Writes.decodeValue {buf buf' rest : Bytes} (h : Writes buf ty v buf') (hv : Decoded ty v)
    (hdata : data = buf' ++ rest) : decodeValue z toast data buf.length ty = .ok (some v, buf'.length) := by
  obtain ⟨d, bytes, rfl, hplain, hwritten, hvalue, rfl⟩ := h
  rw [List.append_assoc] at hdata
  rw [hdata, Datum.decodeValue_stored toast (hwritten.storedAt z) hplain.shallow, hvalue hv, List.length_append]
  rfl

/-- Only an out-of-line pointer is read as a missing value. -/
theorem decodeVarlena_missing (h : decodeValue z toast data off ty = .ok (none, n)) :
    ty.attlen = -1 ∧ decodeVarlena z toast data off = .ok (none, n) := by
  rcases decodeValue_ok h with ⟨-, -, -, w, hw⟩ | ⟨hlen, bytes, hread, hnone⟩
  · cases hw
  · obtain rfl := hnone rfl
    exact ⟨hlen, hread⟩

/-- No value is written as an out-of-line pointer. -/
theorem not_missing_of_encodeValue {buf buf' rest : Bytes} (h : encodeValue buf ty v = .ok (some buf')) :
    decodeValue z toast (buf' ++ rest) buf.length ty ≠ .ok (none, n) := by
  intro hmissing
  obtain ⟨hlen, hread⟩ := decodeVarlena_missing hmissing
  have hshort : ∀ {p : Bytes}, encodeShortVarlena buf p = some buf' → False := by
    intro p hp
    unfold encodeShortVarlena at hp
    split at hp
    · cases hp
    · rename_i hshort
      obtain rfl := Option.some.inj hp
      rw [List.append_assoc, decodeVarlena_short toast (Nat.le_of_not_lt hshort)] at hread
      cases hread
  unfold Ltap.encodeValue at h
  split at h
  -- texts, byte strings, and numerics
  case h_11 => exact hshort (Except.ok.inj h)
  case h_12 => exact hshort (Except.ok.inj h)
  case h_13 =>
    obtain ⟨form, -, h⟩ := Option.bind_eq_some_iff.mp (Except.ok.inj h)
    exact hshort h
  all_goals simp [PgType.attlen] at hlen h

end PlainAt

/-! ## Tuples -/

/-- From an attribute on, every value that is stored belongs to a column and is plain, and nothing stands behind the
last one. -/
inductive AllPlain (t : TupleBody) : Nat → Nat → List PhysCol → Prop where
  | nil {i : Nat} : AllPlain t i t.data.length []
  | noValue {i off : Nat} {pc : PhysCol} {rest : List PhysCol} :
    t.natts ≤ i ∨ t.isNull i = .ok true → AllPlain t (i + 1) off rest → AllPlain t i off (pc :: rest)
  | value {i off off' : Nat} {col : Col} {rest : List PhysCol} :
    i < t.natts → t.isNull i = .ok false → PlainAt t.data off col.ty off' → AllPlain t (i + 1) off' rest →
    AllPlain t i off (.live col :: rest)

/-- The values of the columns, from the offset `off` on, are the plain ones from `pos` on: dropped columns are as
wide as the zeros in front of the next value. -/
inductive Faithful (z : Codecs) (toast : ToastCache) (t : TupleBody) : Nat → Nat → Nat → Nat → List PhysCol → Prop where
  | nil {i off liveI : Nat} : Faithful z toast t i off t.data.length liveI []
  | dropped {i off off' pos liveI k : Nat} {attlen : Int} {align : Nat} {rest : List PhysCol} :
    Entry z toast t i off liveI (.dropped attlen align) [] off' k → Faithful z toast t (i + 1) off' pos liveI rest →
    Faithful z toast t i off pos liveI (.dropped attlen align :: rest)
  | noValue {i off off' pos liveI k : Nat} {col : Col} {rest : List PhysCol} :
    Entry z toast t i off liveI (.live col) [none] off' k → Faithful z toast t (i + 1) off' pos (liveI + 1) rest →
    Faithful z toast t i off pos liveI (.live col :: rest)
  | value {i off off' pos pos' liveI k : Nat} {col : Col} {v : Value} {rest : List PhysCol} :
    Entry z toast t i off liveI (.live col) [some v] off' k → PlainAt t.data pos col.ty pos' →
    decodeValue z toast t.data pos col.ty = .ok (some v, pos') →
    Faithful z toast t (i + 1) off' pos' (liveI + 1) rest → Faithful z toast t i off pos liveI (.live col :: rest)

/-- From an attribute on, no dropped column has a value. -/
def TupleBody.NoDropped (t : TupleBody) (i : Nat) (phys : List PhysCol) : Prop :=
  ∀ (k : Nat) (attlen : Int) (align : Nat), phys[k]? = some (.dropped attlen align) → i + k < t.natts →
    t.isNull (i + k) = .ok true

section Walk

variable {z : Codecs} {toast : ToastCache} {t : TupleBody} {i off liveI n : Nat} {phys : List PhysCol} {row : Row}

/-- The next value of a row. -/
theorem drop_cons {R : Row} {x : Option Value} (h : R.drop liveI = x :: row) :
    R[liveI]? = some x ∧ R.drop (liveI + 1) = row := by
  constructor
  · rw [← Nat.add_zero liveI, ← List.getElem?_drop, h]
    rfl
  · rw [← List.tail_drop, h]
    rfl

theorem encodeCols_none {R : Row} {buf : Bytes} {col : Col} {cols : List Col} (h : R[liveI]? = some none) :
    encodeCols R liveI buf (col :: cols) = encodeCols R (liveI + 1) buf cols := by
  rw [encodeCols, h]

theorem encodeCols_some {R : Row} {buf out : Bytes} {v : Value} {col : Col} {cols : List Col}
    (hv : R[liveI]? = some (some v)) :
    encodeCols R liveI buf (col :: cols) = .ok (some out) ↔
      ∃ buf', encodeValue buf col.ty v = .ok (some buf') ∧ encodeCols R (liveI + 1) buf' cols = .ok (some out) := by
  rw [encodeCols, hv]
  constructor
  · intro h
    obtain ⟨value, hvalue, h⟩ := bind_eq_ok.mp h
    cases value with
    | none => cases h
    | some buf' => exact ⟨buf', hvalue, h⟩
  · rintro ⟨buf', hvalue, h⟩
    exact bind_eq_ok.mpr ⟨_, hvalue, h⟩

/-- A row that is written as the bytes of its tuple was stored so. -/
theorem Entries.faithful (h : Entries z toast t i off liveI phys row n) {R : Row} {buf : Bytes}
    (hrow : R.drop liveI = row) (hdecoded : DecodedFrom R liveI (phys.filterMap PhysCol.live?))
    (hencode : encodeCols R liveI buf (phys.filterMap PhysCol.live?) = .ok (some t.data)) :
    Faithful z toast t i off buf.length liveI phys := by
  induction h generalizing buf with
  | nil i off liveI =>
    obtain rfl := Option.some.inj (Except.ok.inj hencode)
    exact .nil
  | @cons i off liveI off' k n pc rest vs row hentry _ ih =>
    cases pc with
    | dropped attlen align =>
      obtain rfl := hentry.dropped_row
      exact .dropped hentry (ih hrow hdecoded hencode)
    | live col =>
      obtain ⟨x, rfl⟩ := hentry.live_row
      obtain ⟨hx, hrest⟩ := drop_cons hrow
      rw [List.filterMap_cons_some (by rfl)] at hencode hdecoded
      cases x with
      | none =>
        rw [encodeCols_none hx] at hencode
        exact .noValue hentry (ih hrest hdecoded.tail hencode)
      | some v =>
        obtain ⟨buf', hvalue, hcols⟩ := (encodeCols_some hx).mp hencode
        obtain ⟨after, hdata⟩ := encodeCols_extends hcols
        have hv : Decoded col.ty v := hdecoded 0 col v rfl hx
        have hwrites := encodeValue_writes (.inl hv) hvalue
        exact .value hentry (hwrites.plainAt hdata) (hwrites.decodeValue hv hdata) (ih hrest hdecoded.tail hcols)

/-- A tuple whose values stand as the plain ones would is written back. -/
theorem Faithful.encodeCols {pos : Nat} (h : Faithful z toast t i off pos liveI phys)
    (hentries : Entries z toast t i off liveI phys row n) {R : Row} {buf rest : Bytes} (hrow : R.drop liveI = row)
    (hdata : t.data = buf ++ rest) (hpos : buf.length = pos) :
    encodeCols R liveI buf (phys.filterMap PhysCol.live?) = .ok (some t.data) := by
  induction h generalizing row n buf rest with
  | nil =>
    have hall : rest = [] := by
      have hlen := congrArg List.length hdata
      rw [List.length_append] at hlen
      exact List.length_eq_zero_iff.mp (by omega)
    rw [hdata, hall, List.append_nil]
    rfl
  | dropped hentry _ ih =>
    cases hentries with
    | cons hentry' hentries =>
      obtain ⟨rfl, rfl, -⟩ := hentry.unique hentry'
      exact ih hentries hrow hdata hpos
  | noValue hentry _ ih =>
    cases hentries with
    | cons hentry' hentries =>
      obtain ⟨rfl, rfl, -⟩ := hentry.unique hentry'
      obtain ⟨hx, hrest⟩ := drop_cons hrow
      rw [List.filterMap_cons_some (by rfl), encodeCols_none hx]
      exact ih hentries hrest hdata hpos
  | value hentry hplain hread _ ih =>
    cases hentries with
    | cons hentry' hentries =>
      obtain ⟨rfl, rfl, -⟩ := hentry.unique hentry'
      obtain ⟨hx, hrest⟩ := drop_cons hrow
      obtain ⟨buf', rest', hvalue, hdata', hpos'⟩ := hplain.encodeValue hdata hpos hread
      rw [List.filterMap_cons_some (by rfl)]
      exact (encodeCols_some hx).mpr ⟨buf', hvalue, ih hentries hrest hdata' hpos'⟩

/-- Where all that is stored is plain, nothing is moved. -/
theorem AllPlain.faithful (h : AllPlain t i off phys) (hentries : Entries z toast t i off liveI phys row n) :
    Faithful z toast t i off off liveI phys := by
  induction h generalizing liveI row n with
  | nil => exact .nil
  | @noValue i off pc rest hnone _ ih =>
    cases hentries with
    | @cons _ _ _ off' k _ _ _ vs _ hentry hentries =>
      have hnot : ¬ (i < t.natts ∧ t.isNull i = .ok false) := by
        rintro ⟨hi, hnull⟩
        rcases hnone with hi' | hnull'
        · omega
        · rw [hnull] at hnull'
          cases hnull'
      cases hentry with
      | absentLive col hi => exact .noValue (.absentLive col hi) (ih hentries)
      | nullLive col hi hnull => exact .noValue (.nullLive col hi hnull) (ih hentries)
      | absentDropped _ _ hi => exact .dropped (.absentDropped _ _ hi) (ih hentries)
      | nullDropped _ _ hi hnull => exact .dropped (.nullDropped _ _ hi hnull) (ih hentries)
      | dropped hi hnull _ => exact absurd ⟨hi, hnull⟩ hnot
      | value hi hnull _ => exact absurd ⟨hi, hnull⟩ hnot
      | carried hi hnull _ _ => exact absurd ⟨hi, hnull⟩ hnot
  | @value i off off' col rest hi hnull hplain _ ih =>
    cases hentries with
    | cons hentry hentries =>
      cases hentry with
      | absentLive col hi' => omega
      | nullLive col _ hnull' =>
        rw [hnull] at hnull'
        cases hnull'
      | value _ _ hread =>
        obtain rfl := (hplain.read hread).1
        exact .value (.value hi hnull hread) hplain hread (ih hentries)
      | carried _ _ hread _ => exact absurd hread hplain.not_missing

/-- A row that is written as the bytes of its tuple was stored in plain values, if all of them belong to columns. -/
theorem Entries.allPlain (h : Entries z toast t i off liveI phys row n) (hdropped : t.NoDropped i phys) {R : Row}
    {buf : Bytes} (hrow : R.drop liveI = row) (hoff : buf.length = off)
    (hencode : encodeCols R liveI buf (phys.filterMap PhysCol.live?) = .ok (some t.data)) : AllPlain t i off phys := by
  induction h generalizing buf with
  | nil i off liveI =>
    obtain rfl := Option.some.inj (Except.ok.inj hencode)
    exact hoff ▸ .nil
  | @cons i off liveI off' k n pc rest vs row hentry _ ih =>
    have hdropped' : t.NoDropped (i + 1) rest := by
      intro k attlen align hk hi
      rw [Nat.add_right_comm] at hi ⊢
      exact hdropped (k + 1) attlen align hk hi
    cases hentry with
    | absentDropped _ _ hi => exact .noValue (.inl hi) (ih hdropped' hrow hoff hencode)
    | nullDropped _ _ hi hnull => exact .noValue (.inr hnull) (ih hdropped' hrow hoff hencode)
    | dropped hi hnull _ =>
      have hnull' := hdropped 0 _ _ rfl hi
      rw [Nat.add_zero, hnull] at hnull'
      cases hnull'
    | absentLive col hi =>
      obtain ⟨hx, hrest⟩ := drop_cons hrow
      rw [List.filterMap_cons_some (by rfl), encodeCols_none hx] at hencode
      exact .noValue (.inl hi) (ih hdropped' hrest hoff hencode)
    | nullLive col hi hnull =>
      obtain ⟨hx, hrest⟩ := drop_cons hrow
      rw [List.filterMap_cons_some (by rfl), encodeCols_none hx] at hencode
      exact .noValue (.inr hnull) (ih hdropped' hrest hoff hencode)
    | @value col v _ hi hnull hread =>
      obtain ⟨hx, hrest⟩ := drop_cons hrow
      rw [List.filterMap_cons_some (by rfl)] at hencode
      obtain ⟨buf', hvalue, hcols⟩ := (encodeCols_some hx).mp hencode
      obtain ⟨after, hdata⟩ := encodeCols_extends hcols
      have hplain := (encodeValue_writes (decodeValue_returned hread) hvalue).plainAt hdata
      rw [hoff] at hplain
      have hend := (hplain.read hread).1
      exact .value hi hnull hplain (hend ▸ ih hdropped' hrest hend.symm hcols)
    | @carried col v _ hi hnull hread _ =>
      obtain ⟨hx, hrest⟩ := drop_cons hrow
      rw [List.filterMap_cons_some (by rfl)] at hencode
      obtain ⟨buf', hvalue, hcols⟩ := (encodeCols_some hx).mp hencode
      obtain ⟨after, hdata⟩ := encodeCols_extends hcols
      rw [hdata, ← hoff] at hread
      exact absurd hread (not_missing_of_encodeValue hvalue)

/-- The values of the numeric columns are no zeros with a sign. -/
def NoSignedZero (row : Row) (cols : List Col) : Prop :=
  ∀ (k : Nat) (col : Col) (s : String), cols[k]? = some col → col.ty = .numeric → row[k]? = some (some (.text s)) →
    ¬ IsNegZero s

/-- A row that is read is in decoded form, if the old one is. -/
theorem Entries.decodedFrom (h : Entries z toast t i off liveI phys row n)
    (hold : ∀ old, t.oldRow = some old → DecodedFrom old liveI (phys.filterMap PhysCol.live?))
    (hzero : NoSignedZero row (phys.filterMap PhysCol.live?)) :
    DecodedFrom row 0 (phys.filterMap PhysCol.live?) := by
  induction h with
  | nil => exact nofun
  | @cons i off liveI off' k n pc rest vs row hentry _ ih =>
    cases pc with
    | dropped attlen align =>
      obtain rfl := hentry.dropped_row
      exact ih hold hzero
    | live col =>
      obtain ⟨x, rfl⟩ := hentry.live_row
      rw [List.filterMap_cons_some (by rfl)] at hold hzero ⊢
      have hrest := ih (fun old h => (hold old h).tail) fun k => hzero (k + 1)
      intro k c v hk hv
      rw [Nat.zero_add] at hv
      cases k with
      | succ k => exact hrest k c v hk (by rwa [Nat.zero_add])
      | zero =>
        obtain rfl := Option.some.inj hk
        obtain rfl := Option.some.inj hv
        cases hentry with
        | value _ _ hread =>
          rcases decodeValue_returned hread with hv | ⟨s, hty, rfl, hprinted⟩
          · exact hv
          · rw [hty]
            exact ⟨hprinted, hzero 0 col s rfl hty rfl⟩
        | carried _ _ _ hv =>
          obtain ⟨old, hrow, hv⟩ := Option.bind_eq_some_iff.mp hv
          exact hold old hrow 0 col v rfl (Option.join_eq_some_iff.mp hv)

end Walk

/-- A tuple behind its header, as the loop reads it. -/
def TupleBody.ofPayload (tuple : Bytes) (tInfomask2 tInfomask tHoff : Nat) (oldRow : Option Row) : TupleBody where
  data := tuple.drop (tHoff - sizeofHeapTupleHeader)
  bitmap := tuple.take (tHoff - sizeofHeapTupleHeader)
  hasNulls := tInfomask &&& heapHasNull ≠ 0
  natts := tInfomask2 &&& 0x07FF
  oldRow

/-- A tuple gets its bytes back exactly if its values stand as the plain ones would: if it has none of dropped columns,
exactly if all of them are plain. Otherwise old rows are as the decoder returns them, and the server has no zeros with
a sign. -/
theorem encodeAttrs_faithful_iff (z : Codecs) (toast : ToastCache) (tuple : Bytes) (tInfomask2 tInfomask tHoff : Nat)
    (desc : TableDesc) (oldRow : Option Row) (row : Row) (attrs bytes : Bytes)
    (hcols : desc.cols = desc.phys.filterMap PhysCol.live?)
    (hdecode : decodeTuplePayload z toast tuple tInfomask2 tInfomask tHoff desc oldRow = .ok (row, attrs))
    (hencode : encodeAttrs row desc = .ok (some bytes)) :
    ((TupleBody.ofPayload tuple tInfomask2 tInfomask tHoff oldRow).NoDropped 0 desc.phys →
      (bytes = attrs ↔ AllPlain (.ofPayload tuple tInfomask2 tInfomask tHoff oldRow) 0 0 desc.phys)) ∧
    ((∀ old, oldRow = some old → DecodedFrom old 0 desc.cols) → NoSignedZero row desc.cols →
      (bytes = attrs ↔ Faithful z toast (.ofPayload tuple tInfomask2 tInfomask tHoff oldRow) 0 0 0 0 desc.phys)) := by
  obtain ⟨-, -, -, rfl, hread⟩ := (HeapTuple.decodeTuplePayload_ok_iff z desc toast).mp hdecode
  obtain ⟨n, hentries⟩ := decodeAttrs_ok_iff.mp hread
  rw [encodeAttrs, hcols] at hencode
  rw [hcols]
  let t := TupleBody.ofPayload tuple tInfomask2 tInfomask tHoff oldRow
  have hentries : Entries z toast t 0 0 0 desc.phys row n := hentries
  have hback : Faithful z toast t 0 0 0 0 desc.phys → bytes = t.data := by
    intro h
    have hout : encodeCols row 0 [] (desc.phys.filterMap PhysCol.live?) = .ok (some t.data) :=
      h.encodeCols hentries rfl rfl rfl
    rw [hencode] at hout
    exact Option.some.inj (Except.ok.inj hout)
  constructor
  · intro hdropped
    constructor
    · rintro rfl
      exact hentries.allPlain hdropped rfl rfl hencode
    · intro hplain
      exact hback (hplain.faithful hentries)
  · intro hold hzero
    constructor
    · rintro rfl
      exact hentries.faithful rfl (hentries.decodedFrom hold hzero) hencode
    · exact hback

/-- An integer and a short text behind it. -/
theorem encodeAttrs_faithful_iff_text :
    AllPlain (.ofPayload ([0] ++ toLe 4 1 ++ [0x07, 0x68, 0x69]) 2 0x0802 24 none) 0 0
      [.live ⟨"id", .int4⟩, .live ⟨"note", .text⟩] := by
  let desc : TableDesc := {
    name := "t", oid := 16384, dbOid := 5, relNode := 16384, toastRelNode := none
    cols := [⟨"id", .int4⟩, ⟨"note", .text⟩], phys := [.live ⟨"id", .int4⟩, .live ⟨"note", .text⟩]
    hasFastDefaults := false, pk := ["id"] }
  have hiff := encodeAttrs_faithful_iff .pglzOnly .empty ([0] ++ toLe 4 1 ++ [0x07, 0x68, 0x69]) 2 0x0802 24 desc none
    [some (.i32 1), some (.text "hi")] (toLe 4 1 ++ [0x07, 0x68, 0x69]) (toLe 4 1 ++ [0x07, 0x68, 0x69]) rfl
    (by decide +kernel) (by decide +kernel)
  refine (hiff.1 ?_).mp rfl
  intro k attlen align hk
  rcases k with _ | _ | k <;> cases hk

/-- 1.5 is stored in the short form, and written in the long one. -/
theorem short_numeric_unfaithful :
    let desc : TableDesc := {
      name := "t", oid := 16384, dbOid := 5, relNode := 16384, toastRelNode := none
      cols := [⟨"price", .numeric⟩], phys := [.live ⟨"price", .numeric⟩], hasFastDefaults := false, pk := [] }
    decodeTuplePayload .pglzOnly .empty ([0] ++ (0x0F :: (toLe 2 0x8080 ++ toLe 2 1 ++ toLe 2 5000))) 1 0x0802 24 desc
        none =
      .ok ([some (.text "1.5")], 0x0F :: (toLe 2 0x8080 ++ toLe 2 1 ++ toLe 2 5000)) ∧
    encodeAttrs [some (.text "1.5")] desc =
      .ok (some (0x13 :: (toLe 2 1 ++ toLe 2 0 ++ toLe 2 1 ++ toLe 2 5000))) ∧
    0x13 :: (toLe 2 1 ++ toLe 2 0 ++ toLe 2 1 ++ toLe 2 5000) ≠
      0x0F :: (toLe 2 0x8080 ++ toLe 2 1 ++ toLe 2 5000) :=
  ⟨by decide +kernel, by decide +kernel, by decide +kernel⟩

end Ltap
