-- SUMMARY: The epoch shift of dates and timestamps, in both decoders and in the encoder, up to the ends of the integers.
import OpenLtap.CopyBinary
import OpenLtap.Wal.Faithful

/-!
# The epoch shift

The server counts dates and timestamps from 2000, the lake from 1970. Three places add or
subtract the difference: the tuple decoder, the COPY decoder and the encoder. The highest
stored values, the infinities among them, have no room for the sum.
-/

namespace Ltap

/-- The column types whose values are shifted. -/
inductive EpochType where
  | date
  | timestamp
  | timestampTz
  deriving DecidableEq, Repr

namespace EpochType

def ty : EpochType → PgType
  | date => .date
  | timestamp => .timestamp
  | timestampTz => .timestampTz

/-- The width of a stored value, in bytes. -/
def width : EpochType → Nat
  | date => 4
  | timestamp | timestampTz => 8

def bits (t : EpochType) : Nat := 8 * t.width

/-- The Unix epoch lies this far before the epoch of the server. -/
def epoch : EpochType → Int
  | date => pgEpochDays
  | timestamp | timestampTz => pgEpochMicros

/-- A shifted value in a row. -/
def wrap : EpochType → Int → Value
  | date => .i32
  | timestamp | timestampTz => .i64

/-- Both decoders make `y` of the stored `x`: in a tuple at any offset, and in a field of
the COPY stream. -/
structure Decodes (t : EpochType) (x y : Int) : Prop where
  value : ∀ (z : Codecs) (toast : ToastCache) (data : Bytes) (off : Nat),
    slice data (alignTo off t.width) t.width = some (toLe t.width (toTwos t.bits x)) →
      decodeValue z toast data off t.ty = .ok (some (t.wrap y), alignTo off t.width + t.width)
  field : decodeField (toBe t.width (toTwos t.bits x)) t.ty = .ok (t.wrap y)

/-- The encoder writes the stored `x` for `y`, wherever the column stands. -/
def Encodes (t : EpochType) (y x : Int) : Prop :=
  ∀ (row : Row) (i : Nat) (buf : Bytes) (col : Col) (cols : List Col),
    col.ty = t.ty → row[i]? = some (some (t.wrap y)) →
      encodeCols row i buf (col :: cols) =
        encodeCols row (i + 1) (padPut buf t.width (toLe t.width (toTwos t.bits x))) cols

/-- The shift is total up to `x`, strictly monotone there, and undone by the encoder. -/
def ShiftedUpTo (t : EpochType) (x : Int) : Prop :=
  ∃ y, t.Decodes x y ∧ t.Encodes y x ∧
    ∀ x', InRange t.bits x' → x' < x → ∃ y', t.Decodes x' y' ∧ t.Encodes y' x' ∧ y' < y

variable {t : EpochType} {x y : Int}

theorem fromTwos_stored (h : InRange t.bits x) : fromTwos t.bits (toTwos t.bits x) = x :=
  fromTwos_toTwos (by cases t <;> decide) h.1 h.2

theorem toTwos_lt_width (t : EpochType) (x : Int) : toTwos t.bits x < 256 ^ t.width := by
  have h := toTwos_lt t.bits x
  rwa [bits, Nat.pow_mul] at h

theorem decodeValue_eq (z : Codecs) (toast : ToastCache) {data : Bytes} {off : Nat} (hx : InRange t.bits x)
    (h : slice data (alignTo off t.width) t.width = some (toLe t.width (toTwos t.bits x))) :
    decodeValue z toast data off t.ty =
      (checkedAdd t.bits x t.epoch).map fun y => (some (t.wrap y), alignTo off t.width + t.width) := by
  have hread := fromLe_toLe (t.toTwos_lt_width x)
  have hval := fromTwos_stored hx
  cases t <;>
  · simp only [width, bits, Nat.reduceMul] at h hread hval
    simp only [ty, decodeValue, fixed, h, bind, Except.bind, hread, hval, width, bits, Nat.reduceMul, epoch, wrap]
    cases checkedAdd _ x _ <;> rfl

theorem decodeField_eq (hx : InRange t.bits x) :
    decodeField (toBe t.width (toTwos t.bits x)) t.ty = t.wrap <$> checkedAdd t.bits x t.epoch := by
  have hread := fromBe_toBe (t.toTwos_lt_width x)
  have hval := fromTwos_stored hx
  cases t <;>
  · simp only [width, bits] at hread hval
    simp only [ty, decodeField, width, beField_toBe, bind, Except.bind, hread, bits]
    rw [hval]
    rfl

theorem wrap_injective (t : EpochType) : Function.Injective t.wrap := by
  intro a b h
  cases t <;> (injection h)

/-- A stored value is decoded where the sum fits, and then to the sum. -/
theorem decodes_iff (hx : InRange t.bits x) :
    t.Decodes x y ↔ x + t.epoch < 2 ^ (t.bits - 1) ∧ y = x + t.epoch := by
  -- The epoch is positive, so the sum leaves the type at the upper end only.
  have hlo : -2 ^ (t.bits - 1) ≤ x + t.epoch := by
    have hepoch : 0 ≤ t.epoch := by cases t <;> decide
    have := hx.1
    omega
  constructor
  · intro h
    have hfield := h.field
    rw [decodeField_eq hx, checkedAdd] at hfield
    split at hfield
    · rename_i hrange
      exact ⟨hrange.2, (t.wrap_injective (Except.ok.inj hfield)).symm⟩
    · cases hfield
  · rintro ⟨hlt, rfl⟩
    have hadd : checkedAdd t.bits x t.epoch = .ok (x + t.epoch) := if_pos ⟨hlo, hlt⟩
    exact ⟨fun z toast data off h => by rw [decodeValue_eq z toast hx h, hadd]; rfl,
      by rw [decodeField_eq hx, hadd]; rfl⟩

theorem encodes_sum (hx : InRange t.bits x) : t.Encodes (x + t.epoch) x := by
  intro row i buf col cols hty hcell
  have hsub : checkedSub t.bits (x + t.epoch) t.epoch = .ok x := by
    rw [checkedSub, add_sub_cancel_right]
    exact if_pos hx
  cases t <;>
  · simp only [bits, width, epoch] at hsub
    simp only [encodeCols, hcell, hty, ty, wrap, epoch, encodeValue, hsub, bind, Except.bind, width, bits]
    rfl

/-- The shift is sound up to a stored value exactly where the sum with the epoch is an
integer of the width of the column. -/
theorem shiftedUpTo_iff (t : EpochType) (x : Int) (hx : InRange t.bits x) :
    t.ShiftedUpTo x ↔ x ≤ 2 ^ (t.bits - 1) - 1 - t.epoch := by
  constructor
  · rintro ⟨y, hdecodes, -⟩
    have := ((decodes_iff hx).mp hdecodes).1
    omega
  · intro hle
    refine ⟨x + t.epoch, (decodes_iff hx).mpr ⟨by omega, rfl⟩, encodes_sum hx, ?_⟩
    intro x' hx' hlt
    -- Where `x` has room for the sum, the lower values have it too.
    exact ⟨x' + t.epoch, (decodes_iff hx').mpr ⟨by omega, rfl⟩, encodes_sum hx', by omega⟩

theorem shiftedUpTo_epoch : InRange date.bits 0 ∧ date.ShiftedUpTo 0 :=
  ⟨by decide, (shiftedUpTo_iff date 0 (by decide)).mpr (by decide)⟩

/-- The date `infinity` is the highest 32-bit integer. -/
theorem infinity_not_shifted :
    InRange date.bits (2 ^ 31 - 1) ∧ ¬ date.ShiftedUpTo (2 ^ 31 - 1) ∧
      decodeField [0x7f, 0xff, 0xff, 0xff] .date = .error .panic ∧
      decodeField [0x7f, 0xff, 0xff, 0xff, 0xff, 0xff, 0xff, 0xff] .timestamp = .error .panic := by
  refine ⟨by decide, ?_, by decide, by decide⟩
  rintro ⟨y, hdecodes, -⟩
  have hlt := ((decodes_iff (by decide)).mp hdecodes).1
  exact absurd hlt (by decide)

end EpochType

end Ltap
