-- SUMMARY: The out-of-line values that the decoding of a tuple looks up.
import OpenLtap.Wal.DecodePanics
import OpenLtap.Wal.Datum

/-!
# Looking up out-of-line values

Decoding a tuple asks the buffered chunks for the values that its pointers name, and for
nothing else. So two caches that hold the same of these values decode it to the same result.
-/

namespace Ltap

/-- There is a pointer to the out-of-line value at the offset. -/
def PointsTo (data : Bytes) (off : Nat) (valueid : Oid) : Prop :=
  data[off]? = some 0x01 ∧ data[off + 1]? = some 18 ∧
    ∃ s, slice data (off + 2) 16 = some s ∧ fromLe ((s.drop 8).take 4) = valueid

/-- The length of a column's values; a varlena has a negative one. -/
def PhysCol.attlen : PhysCol → Int
  | .live col => col.ty.attlen
  | .dropped attlen _ => attlen

/-- A stored value that the loop comes to is a pointer to the out-of-line value. -/
def TupleBody.LooksUp (z : Codecs) (toast : ToastCache) (t : TupleBody) (i off liveI : Nat) (phys : List PhysCol)
    (valueid : Oid) : Prop :=
  ∃ j offj pc, Arrives z toast t i off liveI phys j offj pc ∧ j < t.natts ∧ t.isNull j = .ok false ∧
    pc.attlen < 0 ∧ PointsTo t.data offj valueid

/-- Steps that are the same after a first one that succeeds. -/
theorem bind_congr_ok {α β : Type} {x : Except Fault α} {f g : α → Except Fault β}
    (h : ∀ a, x = .ok a → f a = g a) : (x >>= f) = x >>= g := by
  cases x with
  | error e => rfl
  | ok a => exact h a rfl

section Congr

variable {z : Codecs} {toast toast' : ToastCache} {data : Bytes} {off : Nat}

theorem ToastCache.resolve_congr {valueid : Oid} (h : toast'.vals.lookup valueid = toast.vals.lookup valueid)
    (rawsize : Int) (extinfo : Nat) :
    toast'.resolve z valueid rawsize extinfo = toast.resolve z valueid rawsize extinfo := by
  rw [resolve, resolve, h]

theorem decodeVarlena_congr
    (h : ∀ valueid, PointsTo data off valueid → toast'.vals.lookup valueid = toast.vals.lookup valueid) :
    decodeVarlena z toast' data off = decodeVarlena z toast data off := by
  unfold decodeVarlena
  cases hfirst : data[off]? with
  | none => rfl
  | some first =>
    by_cases hexternal : first = 0x01
    · simp only [hexternal, if_true]
      unfold decodeExternal
      cases htag : data[off + 1]? with
      | none => rfl
      | some tag =>
        by_cases hondisk : tag = 18
        · cases hslice : slice data (off + 2) 16 with
          | none => rfl
          | some s =>
            -- The only read of the cache, under the value id of the pointer.
            have hpoints : PointsTo data off (fromLe ((s.drop 8).take 4)) :=
              ⟨hfirst.trans (congrArg some hexternal), htag.trans (congrArg some hondisk), s, hslice, rfl⟩
            simp only [ToastCache.contains, h _ hpoints, ToastCache.resolve_congr (h _ hpoints)]
            rfl
        · simp only [ne_eq, hondisk, not_false_eq_true, if_true]
    · simp only [hexternal, if_false]

theorem decodeText_congr {render : Bytes → Except Fault String}
    (h : ∀ valueid, PointsTo data off valueid → toast'.vals.lookup valueid = toast.vals.lookup valueid) :
    decodeText z toast' render data off = decodeText z toast render data off := by
  rw [decodeText, decodeText, decodeVarlena_congr h]

theorem decodeValue_congr {ty : PgType}
    (h : ty.attlen < 0 →
      ∀ valueid, PointsTo data off valueid → toast'.vals.lookup valueid = toast.vals.lookup valueid) :
    decodeValue z toast' data off ty = decodeValue z toast data off ty := by
  cases ty with
  | bool | int2 | int4 | int8 | float4 | float8 | date | timestamp | timestampTz | uuid => rfl
  | text | numeric | jsonb => exact decodeText_congr (h (by decide))
  | bytea => rw [decodeValue, decodeValue, decodeVarlena_congr (h (by decide))]

theorem skipDropped_congr {attlen : Int} {align : Nat}
    (h : attlen < 0 →
      ∀ valueid, PointsTo data off valueid → toast'.vals.lookup valueid = toast.vals.lookup valueid) :
    skipDropped z toast' data off attlen align = skipDropped z toast data off attlen align := by
  unfold skipDropped
  by_cases hfixed : attlen ≥ 0
  · rw [if_pos hfixed, if_pos hfixed]
  · rw [if_neg hfixed, if_neg hfixed, decodeVarlena_congr (h (not_le.mp hfixed))]

variable {t : TupleBody} {i liveI : Nat} {pc : PhysCol} {rest : List PhysCol}

theorem decodeColumn_congr {col : Col}
    (h : col.ty.attlen < 0 →
      ∀ valueid, PointsTo t.data off valueid → toast'.vals.lookup valueid = toast.vals.lookup valueid) :
    decodeColumn z toast' t col off liveI = decodeColumn z toast t col off liveI := by
  rw [decodeColumn, decodeColumn, decodeValue_congr h]

/-- What a later column looks up, the loop looks up. -/
theorem TupleBody.LooksUp.next {valueid : Oid} {vs : Row} {off' k : Nat}
    (hentry : Entry z toast t i off liveI pc vs off' k)
    (h : t.LooksUp z toast (i + 1) off' (pc.nextLive liveI) rest valueid) :
    t.LooksUp z toast i off liveI (pc :: rest) valueid := by
  obtain ⟨j, offj, pcj, harrives, hpoints⟩ := h
  exact ⟨j, offj, pcj, .next hentry harrives, hpoints⟩

theorem decodeAttrs_cache {phys : List PhysCol}
    (h : ∀ valueid, t.LooksUp z toast i off liveI phys valueid →
      toast'.vals.lookup valueid = toast.vals.lookup valueid) :
    decodeAttrs z toast' t i off liveI phys = decodeAttrs z toast t i off liveI phys := by
  induction phys generalizing i off liveI with
  | nil => rfl
  | cons pc rest ih =>
    -- The loop goes on to the next column only behind one that was read, and so from the same offset.
    have hrest : ∀ {vs off' k}, Entry z toast t i off liveI pc vs off' k →
        decodeAttrs z toast' t (i + 1) off' (pc.nextLive liveI) rest =
          decodeAttrs z toast t (i + 1) off' (pc.nextLive liveI) rest := by
      intro vs off' k hentry
      exact ih fun valueid hlook => h valueid (hlook.next hentry)
    have hpointer : i < t.natts → t.isNull i = .ok false → pc.attlen < 0 → ∀ valueid, PointsTo t.data off valueid →
        toast'.vals.lookup valueid = toast.vals.lookup valueid := by
      intro hi hnull hlen valueid hpoints
      exact h valueid ⟨i, off, pc, .here i off liveI pc rest, hi, hnull, hlen, hpoints⟩
    cases pc with
    | dropped attlen align =>
      rw [decodeAttrs, decodeAttrs]
      by_cases habsent : t.natts ≤ i
      · rw [if_pos habsent, if_pos habsent]
        exact hrest (.absentDropped attlen align habsent)
      have hi := not_le.mp habsent
      rw [if_neg habsent, if_neg habsent]
      refine bind_congr_ok fun isNull hnull => ?_
      cases isNull with
      | true => exact hrest (.nullDropped attlen align hi hnull)
      | false =>
        simp only [Bool.false_eq_true, if_false]
        have hskip : skipDropped z toast' t.data off attlen align = skipDropped z toast t.data off attlen align :=
          skipDropped_congr (hpointer hi hnull)
        rw [hskip]
        exact bind_congr_ok fun off' hskip => hrest (.dropped hi hnull hskip)
    | live col =>
      simp only [PhysCol.nextLive] at hrest
      rw [decodeAttrs, decodeAttrs]
      by_cases habsent : t.natts ≤ i
      · rw [if_pos habsent, if_pos habsent]
        rw [hrest (.absentLive col habsent)]
      have hi := not_le.mp habsent
      rw [if_neg habsent, if_neg habsent]
      refine bind_congr_ok fun isNull hnull => ?_
      cases isNull with
      | true =>
        simp only [if_true]
        rw [hrest (.nullLive col hi hnull)]
      | false =>
        simp only [Bool.false_eq_true, if_false]
        rw [decodeColumn_congr (hpointer hi hnull)]
        refine bind_congr_ok fun r hcolumn => ?_
        obtain ⟨k, hentry⟩ := entry_of_decodeColumn hi hnull hcolumn
        rw [hrest hentry]

theorem decodeTuplePayload_cache {t : PageTuple} {desc : TableDesc} {oldRow : Option Row}
    (h : ∀ valueid, (t.body oldRow).LooksUp z toast 0 0 0 desc.phys valueid →
      toast'.vals.lookup valueid = toast.vals.lookup valueid) :
    decodeTuplePayload z toast' t.payload t.infomask2 t.infomask t.hoff desc oldRow =
      decodeTuplePayload z toast t.payload t.infomask2 t.infomask t.hoff desc oldRow := by
  have hattrs : decodeAttrs z toast' (t.body oldRow) 0 0 0 desc.phys = _ := decodeAttrs_cache h
  unfold PageTuple.body at hattrs
  unfold decodeTuplePayload
  dsimp only
  rw [hattrs]

end Congr

end Ltap
