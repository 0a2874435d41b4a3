-- SUMMARY: The bytes at which the decoders of tuple bodies panic.
import OpenLtap.Wal.AttrLoop
import OpenLtap.Wal.HeaderWalk
import OpenLtap.Wal.InsertPaths

/-!
# Where tuple decoding panics

Most reads are checked, and a bad length is an error. Six are not: the null bit of an
attribute, the alignment of a dropped column, the shift of a date, the raw size of an
out-of-line value, the end offset of a jsonb scalar, and the padding of a jsonb slot. For
each decoder there is a predicate on its bytes, and the loops arrive at an element only
when everything before it was read.
-/

namespace Ltap

/-! ## Steps in sequence -/

section Steps

variable {α β ι : Type}

theorem bind_eq_panic {x : Except Fault α} {f : α → Except Fault β} :
    x >>= f = .error .panic ↔ x = .error .panic ∨ ∃ a, x = .ok a ∧ f a = .error .panic := by
  cases x with
  | error e => simp [bind, Except.bind]
  | ok a => simp [bind, Except.bind]

theorem map_eq_panic {x : Except Fault α} {f : α → β} : f <$> x = .error .panic ↔ x = .error .panic := by
  cases x with
  | error e => simp [Functor.map, Except.map]
  | ok a => simp [Functor.map, Except.map]

theorem bind_pure_eq_panic {x : Except Fault α} {f : α → β} :
    x >>= (fun a => pure (f a)) = .error .panic ↔ x = .error .panic := by
  simp [bind_eq_panic, pure, Except.pure]

theorem bail_ne_panic {what : String} : (bail what : Except Fault α) ≠ .error .panic := by
  simp [bail]

theorem truncated_eq_panic {stop : Nat} {what : String} :
    (truncated stop what : Except Fault α) = .error .panic ↔ 2 ^ 64 ≤ stop := by
  unfold truncated
  split <;> simp_all [bail]

/-- Elements are handled in order up to one at which the handler panics. -/
def FirstPanics (f : ι → Except Fault α) (l : List ι) : Prop :=
  ∃ before i after, l = before ++ i :: after ∧ (∀ j ∈ before, ∃ a, f j = .ok a) ∧ f i = .error .panic

variable {f : ι → Except Fault α}

theorem firstPanics_nil : ¬ FirstPanics f [] := by
  rintro ⟨before, i, after, h, -⟩
  simp at h

theorem firstPanics_cons {i : ι} {l : List ι} :
    FirstPanics f (i :: l) ↔ f i = .error .panic ∨ (∃ a, f i = .ok a) ∧ FirstPanics f l := by
  constructor
  · rintro ⟨before, j, after, heq, hbefore, hj⟩
    cases before with
    | nil =>
      obtain ⟨rfl, rfl⟩ := List.cons.inj heq
      exact .inl hj
    | cons k before =>
      obtain ⟨rfl, rfl⟩ := List.cons.inj heq
      exact .inr ⟨hbefore i List.mem_cons_self,
        before, j, after, rfl, fun k hk => hbefore k (List.mem_cons_of_mem i hk), hj⟩
  · rintro (hi | ⟨hi, before, j, after, rfl, hbefore, hj⟩)
    · exact ⟨[], i, l, rfl, by simp, hi⟩
    · exact ⟨i :: before, j, after, rfl, List.forall_mem_cons.mpr ⟨hi, hbefore⟩, hj⟩

theorem mapM_eq_panic {l : List ι} : l.mapM f = .error .panic ↔ FirstPanics f l := by
  induction l with
  | nil => simp [firstPanics_nil, pure, Except.pure]
  | cons i l ih =>
    have hrest : ∀ a, ((l.mapM f >>= fun as => pure (a :: as) : Except Fault (List α)) = .error .panic) ↔
        FirstPanics f l := by
      intro a
      rw [← ih, bind_eq_panic]
      simp [pure, Except.pure]
    rw [List.mapM_cons, bind_eq_panic, firstPanics_cons]
    simp only [hrest, exists_and_right]

/-- Two elements at a time. -/
theorem firstPanics_pairs {g h : ι → ι} {l : List ι} {k : α → α → β} :
    FirstPanics (fun p => f (g p) >>= fun a => f (h p) >>= fun b => Except.ok (k a b)) l ↔
      FirstPanics f (l.flatMap fun p => [g p, h p]) := by
  induction l with
  | nil => simp [firstPanics_nil]
  | cons p l ih =>
    rw [firstPanics_cons, ih, List.flatMap_cons, List.cons_append, List.cons_append, List.nil_append,
      firstPanics_cons, firstPanics_cons, bind_eq_panic]
    cases hg : f (g p) with
    | error e => simp [bind, Except.bind]
    | ok a =>
      cases hh : f (h p) with
      | error e => simp [bind, Except.bind]
      | ok b => simp [bind, Except.bind]

end Steps

/-! ## Decompression and numerics -/

theorem decompressDatum_eq_panic {z : Codecs} {method rawsize : Nat} {payload : Bytes} :
    z.decompressDatum method payload rawsize = .error .panic ↔ method < 2 ∧ 2 ^ 63 ≤ rawsize := by
  unfold Codecs.decompressDatum
  split
  · simp_all
  · rename_i hroom
    simp only [hroom, iff_false]
    split
    · have hsmall : rawsize < 2 ^ 63 := by omega
      rcases pglzDecompress_cases payload hsmall with ⟨out, h⟩ | ⟨e, h⟩ <;> simp [h]
    · split
      · rcases z.lz4Decompress_cases payload rawsize with ⟨out, h⟩ | ⟨e, h⟩ <;> simp [h]
      · exact bail_ne_panic

theorem numericToString_ne_panic (payload : Bytes) : numericToString payload ≠ .error .panic := by
  unfold numericToString
  dsimp only
  repeat' split
  all_goals simp [bail]

theorem numericVarlenaToString_ne_panic (v : Bytes) : numericVarlenaToString v ≠ .error .panic := by
  unfold numericVarlenaToString
  split
  · exact bail_ne_panic
  · dsimp only
    repeat' split
    all_goals first
      | exact bail_ne_panic
      | exact fun h => numericToString_ne_panic _ (map_eq_panic.mp h)

/-! ## jsonb -/

theorem jentry_ne_panic (c : Bytes) (i : Nat) : jentry c i ≠ .error .panic := by
  unfold jentry
  split <;> simp [bail]

theorem jsonbEnds_ne_panic (c : Bytes) (n i cum : Nat) : jsonbEnds c n i cum ≠ .error .panic := by
  induction n generalizing i cum with
  | zero => simp [jsonbEnds]
  | succ n ih =>
    simp only [jsonbEnds, bind_eq_panic, jentry_ne_panic, ih, pure, Except.pure, reduceCtorEq, false_or, and_false,
      exists_false, not_false_eq_true, ne_eq]

/-- The bytes from the next multiple of four on. -/
def slotStart (s : Nat) : Nat := s + (4 - s % 4) % 4

/-- An element panics if there is no end offset for it, if its aligned slot is shorter than the
padding in front of it, or if `nested` holds of the container in the slot. -/
def ElementPanics (nested : Bytes → Prop) (c : Bytes) (ends : List Nat) (dataStart i : Nat) : Prop :=
  ∃ je, jentry c i = .ok je ∧
    (ends.length ≤ i ∨ ∃ stop, ends[i]? = some stop ∧
      let s := dataStart + (if i = 0 then 0 else ends.getD (i - 1) 0)
      let e := dataStart + stop
      s ≤ e ∧ e ≤ c.length ∧
        (je &&& jentryTypemask = jentryIsNumeric ∧ e < slotStart s ∨
          je &&& jentryTypemask = jentryIsContainer ∧
            (e < slotStart s ∨ slotStart s ≤ e ∧ nested ((c.take e).drop (slotStart s)))))

theorem alignedSlot_eq (c : Bytes) (s e : Nat) :
    alignedSlot c s e = if e < slotStart s then .error .panic else .ok ((c.take e).drop (slotStart s)) := rfl

theorem jsonbValue_eq_panic {write : Bytes → Except Fault (List Char)} {c : Bytes} {ends : List Nat}
    {dataStart i : Nat} :
    jsonbValue write c ends dataStart i = .error .panic ↔
      ElementPanics (fun v => write v = .error .panic) c ends dataStart i := by
  unfold jsonbValue ElementPanics
  rw [bind_eq_panic, or_iff_right (jentry_ne_panic c i)]
  refine exists_congr fun je => and_congr_right fun _ => ?_
  cases hend : ends[i]? with
  | none =>
    simp only [List.getElem?_eq_none_iff.mp hend, true_or]
  | some stop =>
    have hlen : ¬ ends.length ≤ i := not_le.mpr (List.getElem?_eq_some_iff.mp hend).1
    simp only [hlen, false_or, Option.some.injEq, exists_eq_left']
    generalize dataStart + (if i = 0 then 0 else ends.getD (i - 1) 0) = s
    generalize dataStart + stop = e
    by_cases hrange : e < s ∨ c.length < e
    · rw [if_pos hrange]
      refine iff_of_false bail_ne_panic fun ⟨hs, he, _⟩ => ?_
      omega
    · rw [if_neg hrange]
      obtain ⟨hs, he⟩ : s ≤ e ∧ e ≤ c.length := by omega
      simp only [hs, he, true_and, alignedSlot_eq]
      generalize je &&& jentryTypemask = type
      by_cases hnumeric : type = jentryIsNumeric
      · subst hnumeric
        rw [if_neg (by decide), if_neg (by decide), if_neg (by decide), if_neg (by decide), if_pos rfl]
        by_cases hslot : e < slotStart s
        · simp [hslot, bind, Except.bind]
        · have hother : jentryIsNumeric ≠ jentryIsContainer := by decide
          simp [hslot, hother, bind, Except.bind, numericVarlenaToString_ne_panic]
      by_cases hcontainer : type = jentryIsContainer
      · subst hcontainer
        rw [if_neg (by decide), if_neg (by decide), if_neg (by decide), if_neg (by decide), if_neg (by decide),
          if_pos rfl]
        by_cases hslot : e < slotStart s
        · simp [hslot, bind, Except.bind]
        · have hother : jentryIsContainer ≠ jentryIsNumeric := by decide
          simp [hslot, not_lt.mp hslot, hother, bind, Except.bind]
      · simp only [hnumeric, hcontainer, if_false, false_and, or_self, iff_false]
        repeat' split
        all_goals simp [bail, pure, Except.pure]

/-- The number of entries of a container: an object has one for each key and each value. -/
def jsonbEntries (header : Nat) : Nat :=
  if header &&& jbFobject ≠ 0 then (header &&& jbCmask) * 2 else header &&& jbCmask

/-- The elements in the order in which they are written. -/
def jsonbOrder (header : Nat) : List Nat :=
  let count := header &&& jbCmask
  if header &&& jbFscalar ≠ 0 then [0]
  else if header &&& jbFobject ≠ 0 then (List.range count).flatMap fun p => [p, count + p]
  else List.range count

/-- All entries are there, the elements before one are written, and that one panics. -/
def ContainerPanics (write : Bytes → Except Fault (List Char)) (nested : Bytes → Prop) (c : Bytes) : Prop :=
  4 ≤ c.length ∧
    let header := fromLe (c.take 4)
    let dataStart := 4 + jsonbEntries header * 4
    ∃ ends, jsonbEnds c (jsonbEntries header) 0 0 = .ok ends ∧
      ∃ before i after, jsonbOrder header = before ++ i :: after ∧
        (∀ j ∈ before, ∃ text, jsonbValue write c ends dataStart j = .ok text) ∧
        ElementPanics nested c ends dataStart i

/-- A container, with the number of levels that may still be descended. -/
def JsonbPanics : Nat → Bytes → Prop
  | 0, _ => False
  | left + 1, c => ContainerPanics (jsonbWrite left) (JsonbPanics left) c

theorem jsonbContainer_eq_panic {write : Bytes → Except Fault (List Char)} {c : Bytes} :
    jsonbContainer write c = .error .panic ↔ ContainerPanics write (fun v => write v = .error .panic) c := by
  unfold jsonbContainer ContainerPanics
  by_cases hlen : c.length < 4
  · rw [if_pos hlen]
    exact iff_of_false bail_ne_panic fun h => absurd h.1 (not_le.mpr hlen)
  rw [if_neg hlen, bind_eq_panic, or_iff_right (jsonbEnds_ne_panic c _ 0 0), iff_true_intro (not_lt.mp hlen), true_and]
  refine exists_congr fun ends => and_congr_right fun _ => ?_
  simp only [← jsonbValue_eq_panic]
  change _ ↔ FirstPanics _ (jsonbOrder (fromLe (c.take 4)))
  unfold jsonbOrder
  dsimp only
  by_cases hscalar : fromLe (c.take 4) &&& jbFscalar ≠ 0
  · rw [if_pos hscalar, if_pos hscalar, firstPanics_cons, or_iff_left (fun h => firstPanics_nil h.2)]
    rfl
  rw [if_neg hscalar, if_neg hscalar]
  by_cases hobject : fromLe (c.take 4) &&& jbFobject ≠ 0
  · simp only [jsonbEntries, if_pos hobject]
    exact bind_pure_eq_panic.trans (mapM_eq_panic.trans firstPanics_pairs)
  · simp only [jsonbEntries, if_neg hobject]
    exact bind_pure_eq_panic.trans mapM_eq_panic

theorem jsonbWrite_eq_panic {left : Nat} {c : Bytes} : jsonbWrite left c = .error .panic ↔ JsonbPanics left c := by
  induction left generalizing c with
  | zero => exact iff_of_false bail_ne_panic id
  | succ left ih =>
    -- The writer of the level below is the one that the predicate of that level speaks about.
    have hnested : (fun v => jsonbWrite left v = .error .panic) = JsonbPanics left := funext fun v => propext ih
    rw [jsonbWrite, jsonbContainer_eq_panic, hnested]
    rfl

theorem jsonbToString_eq_panic {c : Bytes} : jsonbToString c = .error .panic ↔ JsonbPanics 201 c :=
  map_eq_panic.trans jsonbWrite_eq_panic

/-! ## Out-of-line values -/

namespace ToastCache

variable {z : Codecs} {c : ToastCache} {valueid : Oid} {rawsize : Int} {extinfo : Nat}

/-- The chunks of a value are numbered from 0 on and make up `size` bytes. -/
def Complete (c : ToastCache) (valueid : Oid) (size : Nat) : Prop :=
  ∃ xid chunks, c.vals.lookup valueid = some (xid, chunks) ∧
    chunks.map (·.1) = (List.range chunks.length).map (fun n : Nat => (n : Int)) ∧
    (chunks.flatMap (·.2)).length = size

/-- A raw size with no room for its own header, or a negative one of a compressed value. -/
def BadRawsize (rawsize : Int) (extinfo : Nat) : Prop :=
  0 ≤ rawsize ∧ rawsize < 4 ∨ rawsize < 0 ∧ 4 ≤ extinfo &&& 0x3FFFFFFF ∧ extinfo >>> 30 < 2

theorem assemble_eq_ok {i : Nat} {chunks : List (Int × Bytes)} {buf : Bytes} :
    assemble valueid i chunks = .ok buf ↔
      chunks.map (·.1) = (List.range' i chunks.length).map (fun n : Nat => (n : Int)) ∧
        chunks.flatMap (·.2) = buf := by
  induction chunks generalizing i buf with
  | nil => simp [assemble, eq_comm]
  | cons chunk chunks ih =>
    obtain ⟨seq, bytes⟩ := chunk
    simp only [assemble]
    by_cases hseq : seq = i
    · simp [hseq, List.range'_succ, bind_eq_ok, ih, pure, Except.pure]
    · simp [hseq, List.range'_succ, bail]

theorem assemble_ne_panic (valueid : Oid) (i : Nat) (chunks : List (Int × Bytes)) :
    assemble valueid i chunks ≠ .error .panic := by
  induction chunks generalizing i with
  | nil => simp [assemble]
  | cons chunk chunks ih =>
    simp only [assemble]
    split
    · exact bail_ne_panic
    · exact fun h => ih (i + 1) (bind_pure_eq_panic.mp h)

/-- What is done with the bytes of a complete value. -/
theorem finish_eq_panic {buf : Bytes} (hlo : -2 ^ 31 ≤ rawsize) (hhi : rawsize < 2 ^ 31)
    (hbuf : buf.length = extinfo &&& 0x3FFFFFFF) :
    (if toTwos 64 rawsize < 4 then .error .panic
      else if buf.length = toTwos 64 rawsize - 4 then .ok buf
      else if buf.length < 4 then bail s!"toast value {valueid}: too short for a compression header"
      else z.decompressDatum (extinfo >>> 30) (buf.drop 4) (toTwos 64 rawsize - 4)) = .error .panic ↔
      BadRawsize rawsize extinfo := by
  have hsmall : extinfo &&& 0x3FFFFFFF ≤ 0x3FFFFFFF := Nat.and_le_right
  have hsize : (toTwos 64 rawsize : Int) = rawsize % 2 ^ 64 := Int.toNat_of_nonneg (Int.emod_nonneg _ (by positivity))
  unfold BadRawsize
  by_cases hroom : toTwos 64 rawsize < 4
  · rw [if_pos hroom]
    exact iff_of_true rfl (.inl (by omega))
  rw [if_neg hroom]
  by_cases hnegative : rawsize < 0
  · -- The size is close to `2 ^ 64`, so the bytes are never as many.
    rw [if_neg (by omega)]
    by_cases hshort : buf.length < 4
    · rw [if_pos hshort]
      exact iff_of_false bail_ne_panic (by omega)
    · rw [if_neg hshort, decompressDatum_eq_panic]
      omega
  · refine iff_of_false ?_ (by omega)
    by_cases hplain : buf.length = toTwos 64 rawsize - 4
    · rw [if_pos hplain]
      simp
    rw [if_neg hplain]
    by_cases hshort : buf.length < 4
    · rw [if_pos hshort]
      exact bail_ne_panic
    · rw [if_neg hshort, decompressDatum_eq_panic]
      omega

theorem resolve_eq_panic (hlo : -2 ^ 31 ≤ rawsize) (hhi : rawsize < 2 ^ 31) :
    c.resolve z valueid rawsize extinfo = .error .panic ↔
      c.Complete valueid (extinfo &&& 0x3FFFFFFF) ∧ BadRawsize rawsize extinfo := by
  unfold resolve Complete
  cases hlookup : c.vals.lookup valueid with
  | none => simp [bail]
  | some entry =>
    obtain ⟨xid, chunks⟩ := entry
    rw [bind_eq_panic, or_iff_right (assemble_ne_panic valueid 0 chunks)]
    simp only [assemble_eq_ok, ← List.range_eq_range']
    constructor
    · rintro ⟨buf, ⟨hseq, rfl⟩, hpanic⟩
      split at hpanic
      · exact absurd hpanic bail_ne_panic
      · rename_i hlen
        exact ⟨⟨xid, chunks, rfl, hseq, not_not.mp hlen⟩, (finish_eq_panic hlo hhi (not_not.mp hlen)).mp hpanic⟩
    · rintro ⟨⟨xid', chunks', hentry, hseq, hlen⟩, hbad⟩
      obtain ⟨rfl, rfl⟩ := Prod.ext_iff.mp (Option.some.inj hentry)
      refine ⟨_, ⟨hseq, rfl⟩, ?_⟩
      rw [if_neg (not_not.mpr hlen)]
      exact (finish_eq_panic hlo hhi hlen).mpr hbad

end ToastCache

/-! ## Varlenas -/

section Values

variable {z : Codecs} {toast : ToastCache} {data : Bytes} {off : Nat}

/-- An out-of-line pointer at the offset, to a value whose chunks are buffered, with a bad raw size. -/
def VarlenaPanics (toast : ToastCache) (data : Bytes) (off : Nat) : Prop :=
  data[off]? = some 0x01 ∧ data[off + 1]? = some 18 ∧ ∃ s, slice data (off + 2) 16 = some s ∧
    let rawsize := fromTwos 32 (fromLe (s.take 4))
    let extinfo := fromLe ((s.drop 4).take 4)
    let valueid := fromLe ((s.drop 8).take 4)
    toast.Complete valueid (extinfo &&& 0x3FFFFFFF) ∧ ToastCache.BadRawsize rawsize extinfo

theorem decodeExternal_eq_panic :
    decodeExternal z toast data off = .error .panic ↔ data[off + 1]? = some 18 ∧
      ∃ s, slice data (off + 2) 16 = some s ∧
        toast.Complete (fromLe ((s.drop 8).take 4)) (fromLe ((s.drop 4).take 4) &&& 0x3FFFFFFF) ∧
        ToastCache.BadRawsize (fromTwos 32 (fromLe (s.take 4))) (fromLe ((s.drop 4).take 4)) := by
  unfold decodeExternal
  cases htag : data[off + 1]? with
  | none => simp [bail]
  | some tag =>
    by_cases hondisk : tag = 18
    · subst hondisk
      cases hslice : slice data (off + 2) 16 with
      | none => simp [bail]
      | some s =>
        have hlo := fromTwos_ge 32 (fromLe (s.take 4))
        have hword : fromLe (s.take 4) < 2 ^ 32 :=
          (fromLe_lt _).trans_le (Nat.pow_le_pow_right (by decide) (List.length_take_le 4 s))
        have hhi := fromTwos_lt hword
        simp only [ne_eq, not_true_eq_false, if_false, true_and, Option.some.injEq, exists_eq_left']
        by_cases hhas : toast.contains (fromLe ((s.drop 8).take 4)) = true
        · rw [if_pos hhas, bind_pure_eq_panic, ToastCache.resolve_eq_panic hlo hhi]
        · rw [if_neg hhas]
          refine iff_of_false (by simp [pure, Except.pure]) ?_
          rintro ⟨⟨xid, chunks, hlookup, -⟩, -⟩
          refine hhas ?_
          rw [ToastCache.contains, hlookup]
          rfl
    · simp [hondisk, bail]

theorem decodeShortVarlena_ne_panic (first : UInt8) : decodeShortVarlena data off first ≠ .error .panic := by
  unfold decodeShortVarlena
  dsimp only
  repeat' split
  all_goals simp [bail]

/-- The raw size in a header has thirty bits. -/
theorem decodeLongVarlena_ne_panic : decodeLongVarlena z data off ≠ .error .panic := by
  unfold decodeLongVarlena
  dsimp only
  split
  · exact bail_ne_panic
  split
  · exact bail_ne_panic
  split
  · split
    · exact bail_ne_panic
    split
    · exact bail_ne_panic
    · rename_i tcinfo _ _
      have hsmall : fromLe tcinfo &&& 0x3FFFFFFF ≤ 0x3FFFFFFF := Nat.and_le_right
      refine fun h => absurd (decompressDatum_eq_panic.mp (bind_pure_eq_panic.mp h)).2 (by omega)
  · split <;> simp [bail]

theorem decodeVarlena_eq_panic : decodeVarlena z toast data off = .error .panic ↔ VarlenaPanics toast data off := by
  unfold decodeVarlena VarlenaPanics
  cases hfirst : data[off]? with
  | none => simp [bail]
  | some first =>
    simp only [Option.some.injEq]
    by_cases hexternal : first = 0x01
    · rw [if_pos hexternal, decodeExternal_eq_panic, iff_true_intro hexternal, true_and]
    · rw [if_neg hexternal]
      refine iff_of_false ?_ fun h => hexternal h.1
      split
      · exact decodeShortVarlena_ne_panic first
      · exact decodeLongVarlena_ne_panic

theorem not_varlenaPanics_empty : ¬ VarlenaPanics .empty data off := by
  rintro ⟨-, -, s, -, ⟨xid, chunks, hlookup, -⟩, -⟩
  cases hlookup

/-! ## Columns -/

/-- A read up to an offset that overflows. -/
def Overflows (data : Bytes) (stop : Nat) : Prop := data.length < stop ∧ 2 ^ 64 ≤ stop

/-- The stored value of a date or a timestamp goes past its type when the epoch is added. -/
def ShiftPanics (data : Bytes) (off bits : Nat) (epoch : Int) : Prop :=
  ∃ s, slice data off (bits / 8) = some s ∧ 2 ^ (bits - 1) ≤ fromTwos bits (fromLe s) + epoch

/-- Decoding a value of a type at an offset panics. -/
def ValuePanics (z : Codecs) (toast : ToastCache) (data : Bytes) (off : Nat) : PgType → Prop
  | .bool => False
  | .int2 => Overflows data (alignTo off 2 + 2)
  | .int4 | .float4 => Overflows data (alignTo off 4 + 4)
  | .int8 | .float8 => Overflows data (alignTo off 8 + 8)
  | .uuid => Overflows data (off + 16)
  | .date => Overflows data (alignTo off 4 + 4) ∨ ShiftPanics data (alignTo off 4) 32 pgEpochDays
  | .timestamp | .timestampTz =>
    Overflows data (alignTo off 8 + 8) ∨ ShiftPanics data (alignTo off 8) 64 pgEpochMicros
  | .text | .bytea | .numeric => VarlenaPanics toast data off
  | .jsonb =>
    VarlenaPanics toast data off ∨
      ∃ c newOff, decodeVarlena z toast data off = .ok (some c, newOff) ∧ JsonbPanics 201 c

theorem fixed_eq_panic {align n : Nat} {what : String} :
    fixed data off align n what = .error .panic ↔ Overflows data (alignTo off align + n) := by
  unfold fixed Overflows
  dsimp only
  rw [← slice_eq_none]
  cases hslice : slice data (alignTo off align) n with
  | none => simp [truncated_eq_panic]
  | some s => simp

theorem fixed_eq_ok {align n : Nat} {what : String} {r : Bytes × Nat} :
    fixed data off align n what = .ok r ↔
      slice data (alignTo off align) n = some r.1 ∧ r.2 = alignTo off align + n := by
  unfold fixed
  dsimp only
  cases hslice : slice data (alignTo off align) n with
  | none => simp [truncated_ne_ok]
  | some s => simp [Prod.ext_iff, eq_comm]

theorem checkedAdd_eq_panic {bits : Nat} {x y : Int} (h : -2 ^ (bits - 1) ≤ x + y) :
    checkedAdd bits x y = .error .panic ↔ 2 ^ (bits - 1) ≤ x + y := by
  unfold checkedAdd
  split
  · exact iff_of_false nofun (by omega)
  · exact iff_of_true rfl (by omega)

/-- A word of `bits` that is shifted by a positive epoch. -/
theorem shifted_eq_panic {bits n : Nat} {epoch : Int} {what : String} (wrap : Int → Value) (hepoch : 0 ≤ epoch)
    (hbits : bits / 8 = n) :
    (do
      let (s, newOff) ← fixed data off n n what
      let sum ← checkedAdd bits (fromTwos bits (fromLe s)) epoch
      return (some (wrap sum), newOff) : Except Fault (Option Value × Nat)) = .error .panic ↔
      Overflows data (alignTo off n + n) ∨ ShiftPanics data (alignTo off n) bits epoch := by
  rw [bind_eq_panic, fixed_eq_panic]
  refine or_congr_right ?_
  unfold ShiftPanics
  rw [hbits]
  constructor
  · rintro ⟨⟨s, newOff⟩, hfixed, hpanic⟩
    have hlow := fromTwos_ge bits (fromLe s)
    exact ⟨s, (fixed_eq_ok.mp hfixed).1, (checkedAdd_eq_panic (by omega)).mp (bind_pure_eq_panic.mp hpanic)⟩
  · rintro ⟨s, hslice, hlarge⟩
    have hlow := fromTwos_ge bits (fromLe s)
    exact ⟨(s, alignTo off n + n), fixed_eq_ok.mpr ⟨hslice, rfl⟩,
      bind_pure_eq_panic.mpr ((checkedAdd_eq_panic (by omega)).mpr hlarge)⟩

theorem formatUuid_ne_panic {s : Bytes} (h : s.length = 16) : formatUuid s ≠ .error .panic := by
  have hhex : (s.flatMap hexByte).length = 32 := by
    rw [List.length_flatMap]
    simp [hexByte, h]
  unfold formatUuid
  dsimp only
  rw [hhex]
  simp

theorem decodeText_eq_panic {render : Bytes → Except Fault String} :
    decodeText z toast render data off = .error .panic ↔ VarlenaPanics toast data off ∨
      ∃ b newOff, decodeVarlena z toast data off = .ok (some b, newOff) ∧ render b = .error .panic := by
  unfold decodeText
  rw [bind_eq_panic, decodeVarlena_eq_panic]
  refine or_congr_right ?_
  constructor
  · rintro ⟨⟨bytes, newOff⟩, hread, hpanic⟩
    cases bytes with
    | none => cases hpanic
    | some b => exact ⟨b, newOff, hread, bind_pure_eq_panic.mp hpanic⟩
  · rintro ⟨b, newOff, hread, hpanic⟩
    exact ⟨(some b, newOff), hread, bind_pure_eq_panic.mpr hpanic⟩

theorem decodeValue_eq_panic {ty : PgType} :
    decodeValue z toast data off ty = .error .panic ↔ ValuePanics z toast data off ty := by
  cases ty with
  | bool =>
    rw [decodeValue]
    cases data[off]? <;> simp [bail, ValuePanics]
  | int2 | int4 | int8 | float4 | float8 => exact bind_pure_eq_panic.trans fixed_eq_panic
  | date => exact shifted_eq_panic .i32 (by decide) rfl
  | timestamp | timestampTz => exact shifted_eq_panic .i64 (by decide) rfl
  | uuid =>
    rw [decodeValue, ValuePanics, Overflows, ← slice_eq_none]
    cases hslice : slice data off 16 with
    | none => simp [truncated_eq_panic]
    | some s =>
      refine iff_of_false (fun h => ?_) (by simp)
      exact formatUuid_ne_panic (slice_length hslice) (bind_pure_eq_panic.mp h)
  | text => exact decodeText_eq_panic.trans (or_iff_left (by simp))
  | bytea => exact bind_pure_eq_panic.trans decodeVarlena_eq_panic
  | numeric =>
    refine decodeText_eq_panic.trans (or_iff_left ?_)
    rintro ⟨b, -, -, h⟩
    exact numericToString_ne_panic b h
  | jsonb =>
    refine decodeText_eq_panic.trans (or_congr_right ?_)
    simp only [jsonbToString_eq_panic]

/-- A dropped column is stepped over only with an alignment. -/
def PhysCol.Panics (z : Codecs) (toast : ToastCache) (data : Bytes) (off : Nat) : PhysCol → Prop
  | .live col => ValuePanics z toast data off col.ty
  | .dropped attlen align =>
    if 0 ≤ attlen then
      align = 0 ∨ data.length < off + align ∧ 2 ^ 64 ≤ max (off + align) (alignTo off align + attlen.toNat)
    else VarlenaPanics toast data off

theorem skipDropped_eq_panic {attlen : Int} {align : Nat} :
    skipDropped z toast data off attlen align = .error .panic ↔
      (PhysCol.dropped attlen align).Panics z toast data off := by
  unfold skipDropped PhysCol.Panics
  by_cases hfixed : 0 ≤ attlen
  · simp only [ge_iff_le, hfixed, if_true]
    split <;> simp_all
  · simp only [ge_iff_le, hfixed, if_false]
    exact bind_pure_eq_panic.trans decodeVarlena_eq_panic

end Values

/-! ## Attributes -/

section Attributes

variable (z : Codecs) (toast : ToastCache) (t : TupleBody)

/-- The loop comes from a list of columns, with a number and an offset, to one of the columns,
after it has read the ones before. -/
inductive Arrives : Nat → Nat → Nat → List PhysCol → Nat → Nat → PhysCol → Prop where
  | here (i off liveI : Nat) (pc : PhysCol) (rest : List PhysCol) : Arrives i off liveI (pc :: rest) i off pc
  | next {i off liveI off' k j offj : Nat} {pc pcj : PhysCol} {rest : List PhysCol} {vs : Row} :
    Entry z toast t i off liveI pc vs off' k → Arrives (i + 1) off' (pc.nextLive liveI) rest j offj pcj →
    Arrives i off liveI (pc :: rest) j offj pcj

/-- A stored attribute panics if its null bit is behind the bitmap, or if it is not null and
its column panics at the offset. -/
def TupleBody.AttrPanics (i off : Nat) (pc : PhysCol) : Prop :=
  i < t.natts ∧
    (t.hasNulls = true ∧ t.bitmap.length ≤ i / 8 ∨ t.isNull i = .ok false ∧ pc.Panics z toast t.data off)

variable {z toast t} {i off liveI : Nat} {pc : PhysCol} {rest : List PhysCol}

theorem isNull_eq_panic : t.isNull i = .error .panic ↔ t.hasNulls = true ∧ t.bitmap.length ≤ i / 8 := by
  unfold TupleBody.isNull
  cases hnulls : t.hasNulls with
  | false => simp
  | true =>
    cases hbyte : t.bitmap[i / 8]? with
    | none => simpa using hbyte
    | some b => simpa using (List.getElem?_eq_some_iff.mp hbyte).1

/-- An attribute that is read does not panic. -/
theorem Entry.not_panics {vs : Row} {off' k : Nat} (h : Entry z toast t i off liveI pc vs off' k) :
    ¬ t.AttrPanics z toast i off pc := by
  rintro ⟨hi, hpanic⟩
  rw [← isNull_eq_panic] at hpanic
  cases h with
  | absentLive _ habsent | absentDropped _ _ habsent => exact absurd hi (not_lt.mpr habsent)
  | nullLive _ _ hnull | nullDropped _ _ _ hnull => simp [hnull] at hpanic
  | dropped _ hnull hskip =>
    simp only [hnull, reduceCtorEq, false_or, true_and] at hpanic
    cases hskip.symm.trans (skipDropped_eq_panic.mpr hpanic)
  | value _ hnull hvalue | carried _ hnull hvalue _ =>
    simp only [hnull, reduceCtorEq, false_or, true_and] at hpanic
    cases hvalue.symm.trans (decodeValue_eq_panic.mpr hpanic)

theorem inColumn_eq_panic {α : Type} {name : String} {r : Except Fault α} :
    inColumn name r = .error .panic ↔ r = .error .panic := by
  rcases r with (e | _) | a <;> simp [inColumn, bail]

theorem decodeColumn_eq_panic {col : Col} :
    decodeColumn z toast t col off liveI = .error .panic ↔ ValuePanics z toast t.data off col.ty := by
  unfold decodeColumn
  rw [bind_eq_panic, inColumn_eq_panic, decodeValue_eq_panic]
  refine or_iff_left ?_
  rintro ⟨⟨value, newOff⟩, -, hpanic⟩
  cases value with
  | some v => cases hpanic
  | none =>
    dsimp only at hpanic
    split at hpanic
    · cases hpanic
    · exact absurd hpanic bail_ne_panic

/-- The loop panics at its first column, or it reads it and panics at a later one. -/
theorem decodeAttrs_cons_eq_panic :
    decodeAttrs z toast t i off liveI (pc :: rest) = .error .panic ↔
      t.AttrPanics z toast i off pc ∨ ∃ vs off' k, Entry z toast t i off liveI pc vs off' k ∧
        decodeAttrs z toast t (i + 1) off' (pc.nextLive liveI) rest = .error .panic := by
  by_cases hentry : ∃ vs off' k, Entry z toast t i off liveI pc vs off' k
  · obtain ⟨vs, off', k, hentry⟩ := hentry
    rw [hentry.decodeAttrs_eq rest, or_iff_right hentry.not_panics]
    refine map_eq_panic.trans ⟨fun h => ⟨vs, off', k, hentry, h⟩, ?_⟩
    rintro ⟨vs', off'', k', hentry', hpanic⟩
    obtain ⟨-, rfl, -⟩ := hentry.unique hentry'
    exact hpanic
  · rw [or_iff_left fun ⟨vs, off', k, h, _⟩ => hentry ⟨vs, off', k, h⟩]
    unfold TupleBody.AttrPanics
    by_cases habsent : t.natts ≤ i
    · cases pc with
      | live col => exact absurd ⟨_, _, _, .absentLive col habsent⟩ hentry
      | dropped attlen align => exact absurd ⟨_, _, _, .absentDropped attlen align habsent⟩ hentry
    have hi := not_le.mp habsent
    rw [iff_true_intro hi, true_and, ← isNull_eq_panic]
    cases pc with
    | dropped attlen align =>
      rw [decodeAttrs, if_neg habsent, bind_eq_panic]
      refine or_congr_right ?_
      constructor
      · rintro ⟨isNull, hnull, hpanic⟩
        cases isNull with
        | true => exact absurd ⟨_, _, _, .nullDropped attlen align hi hnull⟩ hentry
        | false =>
          rcases bind_eq_panic.mp hpanic with hskip | ⟨off', hskip, -⟩
          · exact ⟨hnull, skipDropped_eq_panic.mp hskip⟩
          · exact absurd ⟨_, _, _, .dropped hi hnull hskip⟩ hentry
      · rintro ⟨hnull, hpanic⟩
        exact ⟨false, hnull, bind_eq_panic.mpr (.inl (skipDropped_eq_panic.mpr hpanic))⟩
    | live col =>
      rw [decodeAttrs, if_neg habsent, bind_eq_panic]
      refine or_congr_right ?_
      constructor
      · rintro ⟨isNull, hnull, hpanic⟩
        cases isNull with
        | true => exact absurd ⟨_, _, _, .nullLive col hi hnull⟩ hentry
        | false =>
          rcases bind_eq_panic.mp hpanic with hcolumn | ⟨⟨v, off'⟩, hcolumn, -⟩
          · exact ⟨hnull, decodeColumn_eq_panic.mp hcolumn⟩
          · obtain ⟨k, hread⟩ := entry_of_decodeColumn hi hnull hcolumn
            exact absurd ⟨_, _, k, hread⟩ hentry
      · rintro ⟨hnull, hpanic⟩
        exact ⟨false, hnull, bind_eq_panic.mpr (.inl (decodeColumn_eq_panic.mpr hpanic))⟩

theorem decodeAttrs_eq_panic {phys : List PhysCol} :
    decodeAttrs z toast t i off liveI phys = .error .panic ↔
      ∃ j offj pc, Arrives z toast t i off liveI phys j offj pc ∧ t.AttrPanics z toast j offj pc := by
  induction phys generalizing i off liveI with
  | nil =>
    refine iff_of_false (by simp [decodeAttrs]) ?_
    rintro ⟨j, offj, pc, harrives, -⟩
    cases harrives
  | cons pc rest ih =>
    rw [decodeAttrs_cons_eq_panic]
    constructor
    · rintro (hhere | ⟨vs, off', k, hentry, hrest⟩)
      · exact ⟨i, off, pc, .here i off liveI pc rest, hhere⟩
      · obtain ⟨j, offj, pcj, harrives, hpanic⟩ := ih.mp hrest
        exact ⟨j, offj, pcj, .next hentry harrives, hpanic⟩
    · rintro ⟨j, offj, pcj, harrives, hpanic⟩
      cases harrives with
      | here => exact .inl hpanic
      | next hentry hrest => exact .inr ⟨_, _, _, hentry, ih.mpr ⟨j, offj, pcj, hrest, hpanic⟩⟩

end Attributes

/-! ## Tuples -/

section Paths

variable (z : Codecs) (toast : ToastCache) (desc : TableDesc)

/-- What the attribute loop reads of a tuple. -/
def PageTuple.body (t : PageTuple) (oldRow : Option Row) : TupleBody where
  data := t.payload.drop (t.hoff - sizeofHeapTupleHeader)
  bitmap := t.payload.take (t.hoff - sizeofHeapTupleHeader)
  hasNulls := t.infomask &&& heapHasNull ≠ 0
  natts := t.infomask2 &&& 0x07FF
  oldRow := oldRow

/-- The tuple passes the checks of its header, and the loop comes to an attribute that panics. -/
def PageTuple.Panics (t : PageTuple) (oldRow : Option Row) : Prop :=
  t.infomask2 &&& 0x07FF ≤ desc.phys.length ∧ sizeofHeapTupleHeader ≤ t.hoff ∧
    t.hoff - sizeofHeapTupleHeader ≤ t.payload.length ∧
    ∃ i off pc, Arrives z toast (t.body oldRow) 0 0 0 desc.phys i off pc ∧
      (t.body oldRow).AttrPanics z toast i off pc

variable {z toast desc}

theorem decodeTuplePayload_eq_panic {t : PageTuple} {oldRow : Option Row} :
    decodeTuplePayload z toast t.payload t.infomask2 t.infomask t.hoff desc oldRow = .error .panic ↔
      t.Panics z toast desc oldRow := by
  unfold decodeTuplePayload PageTuple.Panics
  dsimp only
  by_cases hnatts : t.infomask2 &&& 0x07FF > desc.phys.length
  · rw [if_pos hnatts]
    exact iff_of_false nofun fun h => absurd h.1 (not_le.mpr hnatts)
  by_cases hhoff : t.hoff < sizeofHeapTupleHeader
  · rw [if_neg hnatts, if_pos hhoff]
    exact iff_of_false bail_ne_panic fun h => absurd h.2.1 (not_le.mpr hhoff)
  by_cases hbits : t.payload.length < t.hoff - sizeofHeapTupleHeader
  · rw [if_neg hnatts, if_neg hhoff, if_pos hbits]
    exact iff_of_false bail_ne_panic fun h => absurd h.2.2.1 (not_le.mpr hbits)
  rw [if_neg hnatts, if_neg hhoff, if_neg hbits, iff_true_intro (not_lt.mp hnatts), iff_true_intro (not_lt.mp hhoff),
    iff_true_intro (not_lt.mp hbits), true_and, true_and, true_and]
  exact bind_pure_eq_panic.trans decodeAttrs_eq_panic

/-! ## Paths -/

/-- The tuple behind a header of a record. -/
def WalHeapHeader.tuple (h : WalHeapHeader) (payload : Bytes) : PageTuple :=
  ⟨payload, h.infomask2, h.infomask, h.hoff⟩

theorem walHeapHeader_ne_panic (b : Bytes) (fmt : HeapFmt) : walHeapHeader b fmt ≠ .error .panic := by
  unfold walHeapHeader
  dsimp only
  repeat' split
  all_goals simp [bail]

theorem tupleOnPage_ne_panic (page : Bytes) (offnum : Nat) : tupleOnPage page offnum ≠ .error .panic := by
  unfold tupleOnPage
  dsimp only
  repeat' split
  all_goals simp [bail]

theorem decodeTupleFromPage_eq_panic {page : Bytes} {offnum : Nat} :
    decodeTupleFromPage z page offnum desc toast = .error .panic ↔
      ∃ t, tupleOnPage page offnum = .ok t ∧ t.Panics z toast desc none := by
  unfold decodeTupleFromPage
  rw [bind_eq_panic, or_iff_right (tupleOnPage_ne_panic page offnum)]
  simp only [decodeTuplePayload_eq_panic]

theorem decodeInsertTuple_eq_panic {blockData : Bytes} {fmt : HeapFmt} :
    decodeInsertTuple z blockData desc toast fmt = .error .panic ↔
      ∃ h, walHeapHeader blockData fmt = .ok h ∧ (h.tuple (blockData.drop h.len)).Panics z toast desc none := by
  unfold decodeInsertTuple
  rw [bind_eq_panic, or_iff_right (walHeapHeader_ne_panic blockData fmt)]
  simp only [← decodeTuplePayload_eq_panic]
  rfl

/-- The new tuple of an update, put together from its data and the old attributes. -/
inductive UpdateTuple (blockData : Bytes) (flags : Nat) (oldAttrs : Option Bytes) (fmt : HeapFmt) : PageTuple → Prop
  | intro {shared off sharedEnd off' : Nat} {h : WalHeapHeader} {payload : Bytes} :
    updateShared blockData 0 (flags &&& xlhUpdatePrefixFromOld ≠ 0) "truncated prefix len" = .ok (shared, off) →
    updateShared blockData off (flags &&& xlhUpdateSuffixFromOld ≠ 0) "truncated suffix len" =
      .ok (sharedEnd, off') →
    walHeapHeader (blockData.drop off') fmt = .ok h → sizeofHeapTupleHeader ≤ h.hoff →
    h.hoff - sizeofHeapTupleHeader ≤ (blockData.drop (off' + h.len)).length →
    updatePayload ((blockData.drop (off' + h.len)).take (h.hoff - sizeofHeapTupleHeader))
      ((blockData.drop (off' + h.len)).drop (h.hoff - sizeofHeapTupleHeader)) shared sharedEnd oldAttrs =
        .ok payload →
    UpdateTuple blockData flags oldAttrs fmt (h.tuple payload)

theorem updateShared_ne_panic (blockData : Bytes) (off : Nat) (present : Bool) (what : String) :
    updateShared blockData off present what ≠ .error .panic := by
  unfold updateShared
  repeat' split
  all_goals simp [bail]

theorem updatePayload_ne_panic (bitmap part : Bytes) (shared sharedEnd : Nat) (oldAttrs : Option Bytes) :
    updatePayload bitmap part shared sharedEnd oldAttrs ≠ .error .panic := by
  unfold updatePayload
  repeat' split
  all_goals simp [bail]

theorem decodeUpdateNewTuple_eq_panic {blockData : Bytes} {flags : Nat} {oldAttrs : Option Bytes}
    {oldRow : Option Row} {fmt : HeapFmt} :
    decodeUpdateNewTuple z blockData flags oldAttrs oldRow desc toast fmt = .error .panic ↔
      ∃ t, UpdateTuple blockData flags oldAttrs fmt t ∧ t.Panics z toast desc oldRow := by
  unfold decodeUpdateNewTuple
  constructor
  · intro hpanic
    rw [bind_eq_panic, or_iff_right (updateShared_ne_panic _ _ _ _)] at hpanic
    obtain ⟨⟨shared, off⟩, hshared, hpanic⟩ := hpanic
    rw [bind_eq_panic, or_iff_right (updateShared_ne_panic _ _ _ _)] at hpanic
    obtain ⟨⟨sharedEnd, off'⟩, hsharedEnd, hpanic⟩ := hpanic
    rw [bind_eq_panic, or_iff_right (walHeapHeader_ne_panic _ _)] at hpanic
    obtain ⟨h, hheader, hpanic⟩ := hpanic
    dsimp only at hpanic
    split at hpanic
    · exact absurd hpanic bail_ne_panic
    rename_i hhoff
    split at hpanic
    · exact absurd hpanic bail_ne_panic
    rename_i hbits
    rw [bind_eq_panic, or_iff_right (updatePayload_ne_panic _ _ _ _ _)] at hpanic
    obtain ⟨payload, hpayload, hpanic⟩ := hpanic
    exact ⟨h.tuple payload, .intro hshared hsharedEnd hheader (not_lt.mp hhoff) (not_lt.mp hbits) hpayload,
      decodeTuplePayload_eq_panic.mp hpanic⟩
  · rintro ⟨t, ⟨hshared, hsharedEnd, hheader, hhoff, hbits, hpayload⟩, hpanic⟩
    rw [hshared]
    dsimp only [bind, Except.bind]
    rw [hsharedEnd]
    dsimp only
    rw [hheader]
    dsimp only
    rw [if_neg (not_lt.mpr hhoff), if_neg (not_lt.mpr hbits), hpayload]
    exact decodeTuplePayload_eq_panic.mpr hpanic

variable (z toast desc) in
/-- The decoder of a multi-insert comes from an offset, with so many tuples to go, to a tuple,
after it has decoded the ones before. -/
inductive MultiArrives (blockData : Bytes) : Nat → Nat → PageTuple → Prop
  | here {n off : Nat} {hdr payload : Bytes} :
    slice blockData (alignTo off 2) 7 = some hdr →
    slice blockData (alignTo off 2 + 7) (fromLe (hdr.take 2)) = some payload →
    MultiArrives blockData (n + 1) off
      ⟨payload, fromLe ((hdr.drop 2).take 2), fromLe ((hdr.drop 4).take 2), (hdr.getD 6 0).toNat⟩
  | next {n off : Nat} {hdr payload : Bytes} {row : Row × Bytes} {t : PageTuple} :
    slice blockData (alignTo off 2) 7 = some hdr →
    slice blockData (alignTo off 2 + 7) (fromLe (hdr.take 2)) = some payload →
    decodeTuplePayload z toast payload (fromLe ((hdr.drop 2).take 2)) (fromLe ((hdr.drop 4).take 2))
      (hdr.getD 6 0).toNat desc none = .ok row →
    MultiArrives blockData n (alignTo off 2 + (7 + fromLe (hdr.take 2))) t →
    MultiArrives blockData (n + 1) off t

theorem decodeMultiTuples_eq_panic {blockData : Bytes} {n i off : Nat} :
    decodeMultiTuples z blockData desc toast n i off = .error .panic ↔
      ∃ t, MultiArrives z toast desc blockData n off t ∧ t.Panics z toast desc none := by
  induction n generalizing i off with
  | zero =>
    refine iff_of_false (by simp [decodeMultiTuples]) ?_
    rintro ⟨t, harrives, -⟩
    cases harrives
  | succ n ih =>
    rw [decodeMultiTuples]
    dsimp only
    cases hhdr : slice blockData (alignTo off 2) 7 with
    | none =>
      refine iff_of_false bail_ne_panic ?_
      rintro ⟨t, harrives, -⟩
      cases harrives with
      | here hhdr' | next hhdr' => cases hhdr.symm.trans hhdr'
    | some hdr =>
      cases hpayload : slice blockData (alignTo off 2 + 7) (fromLe (hdr.take 2)) with
      | none =>
        refine iff_of_false (by simp [hpayload, bail]) ?_
        rintro ⟨t, harrives, -⟩
        cases harrives with
        | here hhdr' hpayload' | next hhdr' hpayload' =>
          obtain rfl := Option.some.inj (hhdr.symm.trans hhdr')
          cases hpayload.symm.trans hpayload'
      | some payload =>
        simp only [hpayload]
        constructor
        · intro hpanic
          rcases bind_eq_panic.mp hpanic with hpanic | ⟨row, hrow, hpanic⟩
          · exact ⟨⟨payload, _, _, _⟩, .here hhdr hpayload, decodeTuplePayload_eq_panic.mp hpanic⟩
          · obtain ⟨t, harrives, hpanics⟩ := ih.mp (bind_pure_eq_panic.mp hpanic)
            exact ⟨t, .next hhdr hpayload hrow harrives, hpanics⟩
        · rintro ⟨t, harrives, hpanics⟩
          cases harrives with
          | here hhdr' hpayload' =>
            obtain rfl := Option.some.inj (hhdr.symm.trans hhdr')
            obtain rfl := Option.some.inj (hpayload.symm.trans hpayload')
            exact bind_eq_panic.mpr (.inl (decodeTuplePayload_eq_panic.mpr hpanics))
          | next hhdr' hpayload' hrow hrest =>
            obtain rfl := Option.some.inj (hhdr.symm.trans hhdr')
            obtain rfl := Option.some.inj (hpayload.symm.trans hpayload')
            exact bind_eq_panic.mpr (.inr ⟨_, hrow, bind_pure_eq_panic.mpr (ih.mpr ⟨t, hrest, hpanics⟩)⟩)

theorem decodeMultiInsert_eq_panic {blockData mainData : Bytes} :
    decodeMultiInsert z blockData mainData desc toast = .error .panic ↔ 4 ≤ mainData.length ∧
      ∃ t, MultiArrives z toast desc blockData (fromLe ((mainData.drop 2).take 2)) 0 t ∧
        t.Panics z toast desc none := by
  unfold decodeMultiInsert
  split
  · rename_i hshort
    exact iff_of_false bail_ne_panic fun h => absurd h.1 (not_le.mpr hshort)
  · rename_i hlong
    rw [decodeMultiTuples_eq_panic, iff_true_intro (not_lt.mp hlong), true_and]

theorem rawAttrsFromPage_ne_panic (page : Bytes) (offnum : Nat) : rawAttrsFromPage page offnum ≠ .error .panic := by
  unfold rawAttrsFromPage
  rw [Ne, bind_eq_panic, or_iff_right (tupleOnPage_ne_panic page offnum)]
  rintro ⟨t, -, hpanic⟩
  split at hpanic
  · exact bail_ne_panic hpanic
  split at hpanic
  · exact bail_ne_panic hpanic
  · cases hpanic

/-- A chunk is read without any buffered values. -/
theorem decodeToastChunk_ne_panic (payload : Bytes) (tHoff : Nat) :
    decodeToastChunk z payload tHoff ≠ .error .panic := by
  unfold decodeToastChunk
  dsimp only
  split
  · exact bail_ne_panic
  split
  · exact bail_ne_panic
  split
  · exact bail_ne_panic
  split
  · exact bail_ne_panic
  rw [Ne, bind_eq_panic, decodeVarlena_eq_panic, or_iff_right not_varlenaPanics_empty]
  rintro ⟨⟨bytes, newOff⟩, -, hpanic⟩
  cases bytes with
  | none => exact bail_ne_panic hpanic
  | some b => cases hpanic

/-- Where the offset numbers of a multi-insert begin. -/
def HeapFmt.offsetsBase : HeapFmt → Nat
  | .vanilla => 4
  | .neon => 8

/-- Offsets are read from inside the main data. -/
theorem multiInsertOffsets_inside {mainData : Bytes} {info : Nat} {fmt : HeapFmt} {offnums : List Nat}
    (h : multiInsertOffsets mainData info fmt = .ok offnums) (hinfo : info &&& xlogHeapInitPage = 0) :
    fmt.offsetsBase + 2 * offnums.length ≤ mainData.length := by
  unfold multiInsertOffsets at h
  split at h
  · cases h
  dsimp only at h
  rw [if_neg (not_not.mpr hinfo)] at h
  split at h
  · rename_i arr hslice
    obtain rfl := Except.ok.inj h
    rw [chunksLe_length]
    cases fmt <;> exact slice_le hslice
  · cases h

end Paths

/-- A tuple decoder panics exactly at a tuple with an attribute that panics, which it comes to
after everything in front of it was read; the other decoders never do. -/
theorem decoders_panic_iff (z : Codecs) (toast : ToastCache) (desc : TableDesc) :
    (∀ blockData fmt, decodeInsertTuple z blockData desc toast fmt = .error .panic ↔
      ∃ h, walHeapHeader blockData fmt = .ok h ∧ (h.tuple (blockData.drop h.len)).Panics z toast desc none) ∧
    (∀ blockData flags oldAttrs oldRow fmt,
      decodeUpdateNewTuple z blockData flags oldAttrs oldRow desc toast fmt = .error .panic ↔
        ∃ t, UpdateTuple blockData flags oldAttrs fmt t ∧ t.Panics z toast desc oldRow) ∧
    (∀ blockData mainData, decodeMultiInsert z blockData mainData desc toast = .error .panic ↔
      4 ≤ mainData.length ∧ ∃ t, MultiArrives z toast desc blockData (fromLe ((mainData.drop 2).take 2)) 0 t ∧
        t.Panics z toast desc none) ∧
    (∀ page offnum, decodeTupleFromPage z page offnum desc toast = .error .panic ↔
      ∃ t, tupleOnPage page offnum = .ok t ∧ t.Panics z toast desc none) ∧
    (∀ page offnum, rawAttrsFromPage page offnum ≠ .error .panic) ∧
    (∀ payload tHoff, decodeToastChunk z payload tHoff ≠ .error .panic) ∧
    (∀ blockData fmt, decodeToastChunkFromWal z blockData fmt ≠ .error .panic) ∧
    (∀ page offnum, decodeToastChunkFromPage z page offnum ≠ .error .panic) ∧
    ∀ mainData info fmt offnums, multiInsertOffsets mainData info fmt = .ok offnums →
      info &&& xlogHeapInitPage = 0 → fmt.offsetsBase + 2 * offnums.length ≤ mainData.length := by
  refine ⟨fun _ _ => decodeInsertTuple_eq_panic, fun _ _ _ _ _ => decodeUpdateNewTuple_eq_panic,
    fun _ _ => decodeMultiInsert_eq_panic, fun _ _ => decodeTupleFromPage_eq_panic, rawAttrsFromPage_ne_panic,
    decodeToastChunk_ne_panic, fun blockData fmt hpanic => ?_, fun page offnum hpanic => ?_,
    fun _ _ _ _ => multiInsertOffsets_inside⟩
  · obtain hheader | ⟨h, -, hpanic⟩ := bind_eq_panic.mp hpanic
    · exact walHeapHeader_ne_panic _ _ hheader
    · exact decodeToastChunk_ne_panic _ _ hpanic
  · obtain hpage | ⟨t, -, hpanic⟩ := bind_eq_panic.mp hpanic
    · exact tupleOnPage_ne_panic _ _ hpage
    · exact decodeToastChunk_ne_panic _ _ hpanic

/-- A tuple with nulls and no bitmap, and a jsonb scalar that counts no element. -/
theorem decodeInsertTuple_panics :
    (∀ z, decodeInsertTuple z [1, 0, 1, 0, 23] .oneInt .empty .vanilla = .error .panic) ∧
      ∀ z, decodeInsertTuple z [1, 0, 0, 0, 24, 0, 19, 0, 0, 0, 0x10, 0, 0, 0, 0]
        { TableDesc.oneInt with cols := [⟨"x", .jsonb⟩], phys := [.live ⟨"x", .jsonb⟩] } .empty .vanilla =
          .error .panic :=
  ⟨fun _ => rfl, fun _ => rfl⟩

end Ltap
