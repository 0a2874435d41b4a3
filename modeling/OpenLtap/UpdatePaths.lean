-- SUMMARY: An update from its tuple data and from a page image, and where the two differ.
import OpenLtap.Engine.Startup
import OpenLtap.Wal.Assembly
import OpenLtap.Wal.AttrLoop
import OpenLtap.Wal.Encode
import OpenLtap.Wal.InsertPaths

/-!
# Paths of an updated tuple

The new tuple of an update arrives in the data of block 0, less the bytes that it shares
with the old tuple, or on an image of its page. Only the first path is told the old row,
from which an out-of-line value without chunks can be taken.
-/

namespace Ltap

/-! ## Layouts of an update -/

/-- An update: the new tuple, the version that it replaces, and what a record with tuple
data logs. -/
structure Update where
  fmt : HeapFmt
  cid : Nat
  tuple : HeapTuple
  oldCtid : Ctid
  newCtid : Ctid
  oldRow : Row
  oldAttrs : Bytes
  /-- The number of leading bytes shared with the old tuple, if it is logged. -/
  shared : Option Nat
  sharedEnd : Option Nat
  /-- The bytes in between. -/
  part : Bytes
  hoff_le : sizeofHeapTupleHeader ≤ tuple.hoff
  bits_le : tuple.hoff - sizeofHeapTupleHeader ≤ tuple.payload.length
  shared_lt : ∀ n ∈ shared, n < 2 ^ 16
  sharedEnd_lt : ∀ n ∈ sharedEnd, n < 2 ^ 16
  shared_le : shared.getD 0 + sharedEnd.getD 0 ≤ oldAttrs.length
  attrs_eq : tuple.payload.drop (tuple.hoff - sizeofHeapTupleHeader) =
    oldAttrs.take (shared.getD 0) ++
      (part ++ oldAttrs.drop (oldAttrs.length - sharedEnd.getD 0))

namespace Update

variable (u : Update)

def bitmap : Bytes := u.tuple.payload.take (u.tuple.hoff - sizeofHeapTupleHeader)

def attrs : Bytes := u.tuple.payload.drop (u.tuple.hoff - sizeofHeapTupleHeader)

def header : Bytes :=
  toLe 2 u.tuple.infomask2 ++ (toLe 2 u.tuple.infomask ++
    ((match u.fmt with
      | .vanilla => []
      | .neon => toLe 4 u.cid) ++ toLe 1 u.tuple.hoff))

def lengthField (n : Option Nat) : Bytes := (n.map (toLe 2)).getD []

def blockData : Bytes :=
  lengthField u.shared ++ (lengthField u.sharedEnd ++ (u.header ++ (u.bitmap ++ u.part)))

/-- What both kinds of record have in common. -/
structure Logged (rec : Record) (block0 : BlockRef) (flags : Nat) : Prop where
  main : parseUpdateMain rec.mainData u.fmt = .ok ⟨u.oldCtid.2, u.newCtid.2, flags⟩
  old : ((rec.blocks.find? (·.id = 1)).getD block0).blkno = u.oldCtid.1
  new : block0.blkno = u.newCtid.1

/-- A record with the data of the tuple. -/
structure InData (rec : Record) (block0 : BlockRef) (flags : Nat) : Prop
    extends u.Logged rec block0 flags where
  data : block0.data = u.blockData
  shared : u.shared.isSome ↔ flags &&& xlhUpdatePrefixFromOld ≠ 0
  sharedEnd : u.sharedEnd.isSome ↔ flags &&& xlhUpdateSuffixFromOld ≠ 0

/-- A record with an image of the tuple's page instead. -/
structure InImage (z : Codecs) (rec : Record) (block0 : BlockRef) (flags : Nat) : Prop
    extends u.Logged rec block0 flags where
  data : block0.data = []
  image : ∃ img page, block0.image = some img ∧ img.restore z = .ok page ∧
    Nonempty (u.tuple.OnPage page u.newCtid.2)

/-- The attributes as the loop reads them. -/
def body : TupleBody where
  data := u.attrs
  bitmap := u.bitmap
  hasNulls := u.tuple.infomask &&& heapHasNull ≠ 0
  natts := u.tuple.infomask2 &&& 0x07FF
  oldRow := some u.oldRow

/-- The tuple can be read with the old row, and holds an out-of-line value without chunks
that is taken from there. -/
def CarriesToast (z : Codecs) (toast : ToastCache) (desc : TableDesc) : Prop :=
  u.tuple.infomask2 &&& 0x07FF ≤ desc.phys.length ∧
    ∃ row n, Entries z toast u.body 0 0 0 desc.phys row (n + 1)

/-! ## Reading the data -/

theorem updateShared_lengthField (before after : Bytes) {n : Option Nat} (hn : ∀ k ∈ n, k < 2 ^ 16)
    (what : String) :
    updateShared (before ++ (lengthField n ++ after)) before.length n.isSome what =
      .ok (n.getD 0, before.length + (lengthField n).length) := by
  cases n with
  | none => rfl
  | some k =>
    have hslice : slice (before ++ (toLe 2 k ++ after)) before.length 2 = some (toLe 2 k) :=
      slice_append rfl (toLe_length 2 k)
    have hk : fromLe (toLe 2 k) = k := fromLe_toLe (hn k rfl)
    simp only [updateShared, Option.isSome_some, if_true, lengthField, Option.map_some, Option.getD_some,
      hslice, hk, toLe_length]

theorem walHeapHeader_header (rest : Bytes) :
    walHeapHeader (u.header ++ rest) u.fmt = .ok {
      infomask2 := u.tuple.infomask2, infomask := u.tuple.infomask, hoff := u.tuple.hoff
      len := u.header.length } := by
  have h₁ := fromLe_toLe (n := 2) u.tuple.infomask2_lt
  have h₂ := fromLe_toLe (n := 2) u.tuple.infomask_lt
  have h₃ := u.tuple.hoff_byte
  have hlen : ∀ n, u.header.length = n → ¬ (u.header ++ rest).length < n := by
    intro n hn
    rw [List.length_append, hn]
    omega
  cases hf : u.fmt with
  | vanilla =>
    have hheader : u.header = toLe 2 u.tuple.infomask2 ++ (toLe 2 u.tuple.infomask ++
        toLe 1 u.tuple.hoff) := by
      rw [header, hf]
      rfl
    have htake : (u.header ++ rest).take 2 = toLe 2 u.tuple.infomask2 := by rw [hheader]; rfl
    have hmask : ((u.header ++ rest).drop 2).take 2 = toLe 2 u.tuple.infomask := by rw [hheader]; rfl
    have hhoff : (u.header ++ rest).getD 4 0 = UInt8.ofNat (u.tuple.hoff % 256) := by rw [hheader]; rfl
    have hfive : u.header.length = 5 := by rw [hheader]; rfl
    simp only [walHeapHeader, if_neg (hlen 5 hfive), htake, hmask, hhoff, h₁, h₂, h₃, hfive]
  | neon =>
    have hheader : u.header = toLe 2 u.tuple.infomask2 ++ (toLe 2 u.tuple.infomask ++
        (toLe 4 u.cid ++ toLe 1 u.tuple.hoff)) := by
      rw [header, hf]
    have htake : (u.header ++ rest).take 2 = toLe 2 u.tuple.infomask2 := by rw [hheader]; rfl
    have hmask : ((u.header ++ rest).drop 2).take 2 = toLe 2 u.tuple.infomask := by rw [hheader]; rfl
    have hhoff : (u.header ++ rest).getD 8 0 = UInt8.ofNat (u.tuple.hoff % 256) := by rw [hheader]; rfl
    have hnine : u.header.length = 9 := by rw [hheader]; rfl
    simp only [walHeapHeader, if_neg (hlen 9 hnine), htake, hmask, hhoff, h₁, h₂, h₃, hnine]

theorem bitmap_length : u.bitmap.length = u.tuple.hoff - sizeofHeapTupleHeader := by
  rw [bitmap, List.length_take, Nat.min_eq_left u.bits_le]

/-- With the shared bytes filled in, the data is the tuple. -/
theorem updatePayload_part :
    updatePayload u.bitmap u.part (u.shared.getD 0) (u.sharedEnd.getD 0) (some u.oldAttrs) =
      .ok u.tuple.payload := by
  have hpayload : u.tuple.payload = u.bitmap ++ u.attrs := (List.take_append_drop _ _).symm
  have hattrs : u.attrs = _ := u.attrs_eq
  unfold updatePayload
  split
  · rename_i hnone
    rw [hpayload, hattrs, hnone.1, hnone.2]
    simp
  · simp only [gt_iff_lt, if_neg (Nat.not_lt.mpr u.shared_le)]
    rw [hpayload, hattrs]
    simp [List.append_assoc]

theorem decodeUpdateNewTuple_blockData (z : Codecs) (toast : ToastCache) (desc : TableDesc) {flags : Nat}
    (hshared : u.shared.isSome ↔ flags &&& xlhUpdatePrefixFromOld ≠ 0)
    (hend : u.sharedEnd.isSome ↔ flags &&& xlhUpdateSuffixFromOld ≠ 0) (oldRow : Option Row) :
    decodeUpdateNewTuple z u.blockData flags (some u.oldAttrs) oldRow desc toast u.fmt =
      decodeTuplePayload z toast u.tuple.payload u.tuple.infomask2 u.tuple.infomask u.tuple.hoff desc oldRow := by
  have hflag : decide (flags &&& xlhUpdatePrefixFromOld ≠ 0) = u.shared.isSome := by
    rw [Bool.eq_iff_iff, decide_eq_true_iff]
    exact hshared.symm
  have hflagEnd : decide (flags &&& xlhUpdateSuffixFromOld ≠ 0) = u.sharedEnd.isSome := by
    rw [Bool.eq_iff_iff, decide_eq_true_iff]
    exact hend.symm
  have h₁ := updateShared_lengthField [] (lengthField u.sharedEnd ++ (u.header ++ (u.bitmap ++ u.part)))
    u.shared_lt "truncated prefix len"
  have h₂ := updateShared_lengthField (lengthField u.shared) (u.header ++ (u.bitmap ++ u.part))
    u.sharedEnd_lt "truncated suffix len"
  have hfront : u.blockData.drop ((lengthField u.shared).length + (lengthField u.sharedEnd).length) =
      u.header ++ (u.bitmap ++ u.part) := by
    rw [blockData, ← List.append_assoc]
    exact List.drop_left' (by rw [List.length_append])
  have hrest : u.blockData.drop ((lengthField u.shared).length + (lengthField u.sharedEnd).length +
      u.header.length) = u.bitmap ++ u.part := by
    rw [← List.drop_drop, hfront]
    exact List.drop_left' rfl
  have htake : (u.bitmap ++ u.part).take (u.tuple.hoff - sizeofHeapTupleHeader) = u.bitmap :=
    List.take_left' u.bitmap_length
  have hdrop : (u.bitmap ++ u.part).drop (u.tuple.hoff - sizeofHeapTupleHeader) = u.part :=
    List.drop_left' u.bitmap_length
  have hlong : ¬ (u.bitmap ++ u.part).length < u.tuple.hoff - sizeofHeapTupleHeader := by
    rw [List.length_append, u.bitmap_length]
    omega
  simp only [List.nil_append, List.length_nil, Nat.zero_add] at h₁
  simp only [decodeUpdateNewTuple, hflag, hflagEnd, bind, Except.bind]
  rw [show updateShared u.blockData 0 u.shared.isSome "truncated prefix len" = _ from h₁]
  simp only
  rw [show updateShared u.blockData (lengthField u.shared).length u.sharedEnd.isSome
    "truncated suffix len" = _ from h₂]
  simp only [hfront, u.walHeapHeader_header, hrest, if_neg (Nat.not_lt.mpr u.hoff_le), if_neg hlong, htake,
    hdrop, u.updatePayload_part]

/-! ## Both paths -/

/-- The op of an update whose tuple decodes so. -/
def opOf (decoded : Row × Bytes) : List Op :=
  [.update u.oldCtid u.newCtid { row := decoded.1, attrs := some decoded.2 }]

theorem opOf_injective : Function.Injective u.opOf := by
  rintro ⟨row, attrs⟩ ⟨row', attrs'⟩ h
  simp only [opOf, List.cons.injEq, Op.update.injEq, RowVersion.mk.injEq, Option.some.injEq, true_and,
    and_true] at h
  exact Prod.ext h.1 h.2

variable {u} {z : Codecs} {e : Engine} {lsn : Lsn} {rec : Record} {block0 : BlockRef} {flags ti : Nat}
  {t : Table}

theorem updateChange_inData
    (hpre : e.preimage ti u.oldCtid = some { row := u.oldRow, attrs := some u.oldAttrs })
    (h : u.InData rec block0 flags) :
    (e.updateChange (heapDecoder z) lsn rec block0 ti t u.fmt).toOption =
      (decodeTuplePayload z e.toast u.tuple.payload u.tuple.infomask2 u.tuple.infomask u.tuple.hoff t.desc
        (some u.oldRow)).toOption.map u.opOf := by
  have hne : u.blockData ≠ [] := by
    rw [blockData, header]
    simp [toLe]
  have hdecode := u.decodeUpdateNewTuple_blockData z e.toast t.desc h.shared h.sharedEnd (some u.oldRow)
  simp only [Engine.updateChange, h.main, bind, Except.bind, h.old, h.new, hpre, if_pos hne,
    Option.bind_some, Option.map_some, Option.some_or, heapDecoder, h.data, hdecode]
  cases decodeTuplePayload z e.toast u.tuple.payload u.tuple.infomask2 u.tuple.infomask u.tuple.hoff t.desc
    (some u.oldRow) with
  | error f => rfl
  | ok r => rfl

theorem updateChange_inImage (h : u.InImage z rec block0 flags) :
    (e.updateChange (heapDecoder z) lsn rec block0 ti t u.fmt).toOption =
      (decodeTuplePayload z e.toast u.tuple.payload u.tuple.infomask2 u.tuple.infomask u.tuple.hoff t.desc
        none).toOption.map u.opOf := by
  obtain ⟨img, page, himage, hrestore, ⟨honPage⟩⟩ := h.image
  have hdecode := HeapTuple.decodeTupleFromPage_onPage z t.desc e.toast honPage
  have hdata : ¬ block0.data ≠ [] := by simp [h.data]
  simp only [Engine.updateChange, h.main, bind, Except.bind, h.old, h.new, if_neg hdata, himage,
    heapDecoder, hrestore, Except.mapError, hdecode]
  rw [HeapTuple.decode]
  cases decodeTuplePayload z e.toast u.tuple.payload u.tuple.infomask2 u.tuple.infomask u.tuple.hoff t.desc
    none with
  | error f => rfl
  | ok r => rfl

/-- The payload of the tuple is readable with the old row and without it alike, unless a value is
taken from there. -/
theorem decodeTuplePayload_alone_iff (u : Update) (z : Codecs) (toast : ToastCache) (desc : TableDesc) :
    (decodeTuplePayload z toast u.tuple.payload u.tuple.infomask2 u.tuple.infomask u.tuple.hoff desc
        (some u.oldRow)).toOption =
      (decodeTuplePayload z toast u.tuple.payload u.tuple.infomask2 u.tuple.infomask u.tuple.hoff desc
        none).toOption ↔ ¬ u.CarriesToast z toast desc := by
  unfold CarriesToast
  by_cases hnatts : u.tuple.infomask2 &&& 0x07FF > desc.phys.length
  · have hdrift : ∀ old, decodeTuplePayload z toast u.tuple.payload u.tuple.infomask2 u.tuple.infomask
        u.tuple.hoff desc old = .error (.error .schemaDrift) := by
      intro old
      simp only [decodeTuplePayload, if_pos hnatts]
    simp [hdrift, Nat.not_le.mpr hnatts]
  · have hbody : ∀ old, decodeTuplePayload z toast u.tuple.payload u.tuple.infomask2 u.tuple.infomask
        u.tuple.hoff desc old =
        (decodeAttrs z toast { u.body with oldRow := old } 0 0 0 desc.phys).map (·, u.attrs) := by
      intro old
      simp only [decodeTuplePayload, if_neg hnatts, if_neg (Nat.not_lt.mpr u.hoff_le),
        if_neg (Nat.not_lt.mpr u.bits_le)]
      rfl
    have hpair : Function.Injective fun row : Row => (row, u.attrs) := fun _ _ h => (Prod.ext_iff.mp h).1
    have htoOption : ∀ r : Except Fault Row,
        (r.map (·, u.attrs)).toOption = r.toOption.map (·, u.attrs) := by
      rintro (_ | _) <;> rfl
    rw [hbody, hbody, htoOption, htoOption, (Option.map_injective hpair).eq_iff]
    rw [not_and_or, or_iff_right (by omega)]
    exact decodeAttrs_alone_iff

end Update

/-- A record with the data of the new tuple and one with an image of its page buffer the same
op, or both none, exactly if no out-of-line value without chunks has to be taken from the old
row. -/
theorem Engine.updateChange_paths {u : Update} {z : Codecs} {e : Engine} {lsn : Lsn} {ti : Nat} {t : Table}
    {recD recI : Record} {blockD blockI : BlockRef} {flagsD flagsI : Nat}
    (hpre : e.preimage ti u.oldCtid = some { row := u.oldRow, attrs := some u.oldAttrs })
    (hdata : u.InData recD blockD flagsD) (himage : u.InImage z recI blockI flagsI) :
    (e.updateChange (heapDecoder z) lsn recD blockD ti t u.fmt).toOption =
      (e.updateChange (heapDecoder z) lsn recI blockI ti t u.fmt).toOption ↔
      ¬ u.CarriesToast z e.toast t.desc := by
  rw [Update.updateChange_inData hpre hdata, Update.updateChange_inImage himage,
    (Option.map_injective u.opOf_injective).eq_iff, u.decodeTuplePayload_alone_iff]

/-! ## Bytes shared with the old tuple -/

namespace HeapTuple

variable (t : HeapTuple)

/-- The null bitmap and the padding behind it. -/
def bits : Bytes := t.payload.take (t.hoff - sizeofHeapTupleHeader)

def attrs : Bytes := t.payload.drop (t.hoff - sizeofHeapTupleHeader)

/-- `xl_heap_header`, or `xl_neon_heap_header`. -/
def walHeader (fmt : HeapFmt) (cid : Nat) : Bytes :=
  toLe 2 t.infomask2 ++ (toLe 2 t.infomask ++
    ((match fmt with
      | .vanilla => []
      | .neon => toLe 4 cid) ++ toLe 1 t.hoff))

/-- The data of block 0 that `log_heap_update` writes for the new tuple, less so many leading and so
many trailing attribute bytes. -/
def updateData (fmt : HeapFmt) (cid flags shared sharedEnd : Nat) : Bytes :=
  (if flags &&& xlhUpdatePrefixFromOld ≠ 0 then toLe 2 shared else []) ++
    ((if flags &&& xlhUpdateSuffixFromOld ≠ 0 then toLe 2 sharedEnd else []) ++
      (t.walHeader fmt cid ++ (t.bits ++ (t.attrs.drop shared).take (t.attrs.length - shared - sharedEnd))))

variable {t} {old : Bytes} {shared sharedEnd : Nat}

/-- The attributes of the new tuple, put together from the old ones. -/
theorem attrs_spliced (hnew : shared + sharedEnd ≤ t.attrs.length)
    (hfront : old.take shared = t.attrs.take shared)
    (hsuffix : old.drop (old.length - sharedEnd) = t.attrs.drop (t.attrs.length - sharedEnd)) :
    t.attrs = old.take shared ++
      ((t.attrs.drop shared).take (t.attrs.length - shared - sharedEnd) ++ old.drop (old.length - sharedEnd)) := by
  have hend : t.attrs.drop (t.attrs.length - sharedEnd) =
      (t.attrs.drop shared).drop (t.attrs.length - shared - sharedEnd) := by
    rw [List.drop_drop]
    congr 1
    omega
  rw [hfront, hsuffix, hend, List.take_append_drop, List.take_append_drop]

end HeapTuple

/-- The data of an update decodes like the whole new tuple, attribute bytes included, whatever it shares
with the old one. -/
theorem decodeUpdateNewTuple_updateData (z : Codecs) (toast : ToastCache) (desc : TableDesc) (fmt : HeapFmt)
    (cid flags shared sharedEnd : Nat) (t : HeapTuple) (old : Bytes) (oldRow : Option Row)
    (hhoff : sizeofHeapTupleHeader ≤ t.hoff) (hbits : t.hoff - sizeofHeapTupleHeader ≤ t.payload.length)
    (hshared : shared < 2 ^ 16) (hsharedEnd : sharedEnd < 2 ^ 16)
    (hold : shared + sharedEnd ≤ old.length) (hnew : shared + sharedEnd ≤ t.attrs.length)
    (hfront : old.take shared = t.attrs.take shared)
    (hsuffix : old.drop (old.length - sharedEnd) = t.attrs.drop (t.attrs.length - sharedEnd))
    (hflag : shared ≠ 0 → flags &&& xlhUpdatePrefixFromOld ≠ 0)
    (hflagEnd : sharedEnd ≠ 0 → flags &&& xlhUpdateSuffixFromOld ≠ 0) :
    decodeUpdateNewTuple z (t.updateData fmt cid flags shared sharedEnd) flags (some old) oldRow desc toast fmt =
      decodeTuplePayload z toast t.payload t.infomask2 t.infomask t.hoff desc oldRow := by
  -- A length that is not logged is zero.
  have hfield : ∀ {n mask : Nat}, (n ≠ 0 → flags &&& mask ≠ 0) →
      (if flags &&& mask ≠ 0 then some n else none).getD 0 = n := by
    intro n mask h
    split
    · rfl
    · rename_i hclear
      exact (Classical.byContradiction fun hne => hclear (h (Ne.symm hne)))
  have hlt : ∀ {n mask : Nat}, n < 2 ^ 16 → ∀ k ∈ (if flags &&& mask ≠ 0 then some n else none), k < 2 ^ 16 := by
    intro n mask h k hk
    split at hk
    · rwa [← Option.some.inj hk]
    · cases hk
  let u : Update := {
    fmt, cid, tuple := t, oldCtid := (0, 0), newCtid := (0, 0), oldRow := [], oldAttrs := old
    shared := if flags &&& xlhUpdatePrefixFromOld ≠ 0 then some shared else none
    sharedEnd := if flags &&& xlhUpdateSuffixFromOld ≠ 0 then some sharedEnd else none
    part := (t.attrs.drop shared).take (t.attrs.length - shared - sharedEnd)
    hoff_le := hhoff
    bits_le := hbits
    shared_lt := hlt hshared
    sharedEnd_lt := hlt hsharedEnd
    shared_le := by rwa [hfield hflag, hfield hflagEnd]
    attrs_eq := by
      rw [hfield hflag, hfield hflagEnd]
      exact HeapTuple.attrs_spliced hnew hfront hsuffix }
  have hdata : t.updateData fmt cid flags shared sharedEnd = u.blockData := by
    have hmap : ∀ {n mask : Nat}, (if flags &&& mask ≠ 0 then toLe 2 n else []) =
        Update.lengthField (if flags &&& mask ≠ 0 then some n else none) := by
      intro n mask
      split <;> rfl
    rw [HeapTuple.updateData, hmap, hmap]
    rfl
  rw [hdata]
  exact u.decodeUpdateNewTuple_blockData z toast desc (by simp [u]) (by simp [u]) oldRow

/-- `update t set n = 258 where n = 2`: only the second byte differs. -/
def Sample.countTuple : HeapTuple where
  infomask2 := 1
  infomask := 0x0800
  hoff := 24
  payload := [0] ++ toLe 4 258
  infomask2_lt := (by decide : 1 < 65536)
  infomask_lt := (by decide : 2048 < 65536)
  hoff_lt := (by decide : 24 < 256)

theorem decodeUpdateNewTuple_updateData_count :
    let desc : TableDesc := { Sample.desc "t" 16384 with cols := [⟨"n", .int4⟩], phys := [.live ⟨"n", .int4⟩] }
    decodeUpdateNewTuple .pglzOnly (Sample.countTuple.updateData .neon 5 0x60 1 2) 0x60 (some (toLe 4 2))
      (some [some (.i32 2)]) desc .empty .neon = .ok ([some (.i32 258)], toLe 4 258) :=
  (decodeUpdateNewTuple_updateData .pglzOnly .empty _ .neon 5 0x60 1 2 Sample.countTuple (toLe 4 2) _ (by decide)
    (by decide) (by decide) (by decide) (by decide) (by decide) (by decide) (by decide) (by decide)
    (by decide)).trans (by decide +kernel)

/-! ## An unchanged out-of-line value -/

namespace Sample

/-- `t (id int, doc text)`. -/
def docDesc : TableDesc :=
  { desc "t" 16384 with
    cols := [⟨"id", .int4⟩, ⟨"doc", .text⟩]
    phys := [.live ⟨"id", .int4⟩, .live ⟨"doc", .text⟩] }

/-- The stored `doc`: a pointer to value 99 out of line, or `abc` in place. -/
def storedDoc (toasted : Bool) : Bytes :=
  if toasted then [0x01, 18] ++ (toLe 4 2004 ++ (toLe 4 2000 ++ (toLe 4 99 ++ toLe 4 16390)))
  else [0x09, 0x61, 0x62, 0x63]

/-- The tuple `(id, doc)`. -/
def docTuple (toasted : Bool) (id : Nat) : HeapTuple where
  infomask2 := 2
  infomask := 0x0802
  hoff := 24
  payload := [0] ++ (toLe 4 id ++ storedDoc toasted)
  infomask2_lt := by decide
  infomask_lt := by decide
  hoff_lt := (by decide : 24 < 256)

/-- `update t set id = 2 where id = 1`. The record shares `doc` with the old tuple. -/
def docUpdate (toasted : Bool) : Update where
  fmt := .vanilla
  cid := 0
  tuple := docTuple toasted 2
  oldCtid := (0, 1)
  newCtid := (0, 2)
  oldRow := [some (.i32 1), some (.text "abc")]
  oldAttrs := toLe 4 1 ++ storedDoc toasted
  shared := none
  sharedEnd := some (storedDoc toasted).length
  part := toLe 4 2
  hoff_le := (by decide : 23 ≤ 24)
  bits_le := by cases toasted <;> decide
  shared_lt := by decide
  sharedEnd_lt := by cases toasted <;> decide
  shared_le := by cases toasted <;> decide
  attrs_eq := by cases toasted <;> decide

/-- The page with the old and the new tuple. -/
def docPage (toasted : Bool) : Bytes :=
  let old := (docTuple toasted 1).pageData (List.replicate 18 0)
  let new := (docTuple toasted 2).pageData (List.replicate 18 0)
  List.replicate 24 0 ++ (toLe 4 (32 + 2 ^ 15 + old.length * 2 ^ 17) ++
    (toLe 4 (32 + old.length + 2 ^ 15 + new.length * 2 ^ 17) ++ (old ++
      (new ++ List.replicate (8160 - (old.length + new.length)) 0))))

def docPage_onPage (toasted : Bool) : (docTuple toasted 2).OnPage (docPage toasted) 2 where
  lpOff := 32 + ((docTuple toasted 1).pageData (List.replicate 18 0)).length
  head := List.replicate 18 0
  offnum_ne := by decide
  lpOff_lt := by cases toasted <;> decide
  len_lt := by cases toasted <;> decide
  head_length := (rfl : 18 = 18)
  itemid := by
    rw [docPage, ← List.append_assoc]
    exact slice_append rfl rfl
  tuple := by
    rw [docPage, ← List.append_assoc, ← List.append_assoc, ← List.append_assoc]
    refine slice_append ?_ rfl
    cases toasted <;> rfl

def docImage (toasted : Bool) : ImageSpec where
  page := docPage toasted
  holeOffset := 0
  holeLen := 0
  form := .raw
  apply := true
  page_length := by
    rw [docPage]
    simp only [List.length_append, List.length_replicate, toLe_length]
    cases toasted <;> rfl
  hole_le := by decide
  hole_zero := by simp
  form_ok := trivial

/-- The record of the update, with the tuple's data or with the image. -/
def docBlock (toasted image : Bool) : BlockRef where
  id := 0
  rel := ⟨1663, 5, 16384⟩
  blkno := 0
  image := if image then some (docImage toasted).stored else none
  data := if image then [] else (docUpdate toasted).blockData

def docRecord (toasted image : Bool) : Record where
  xid := 7
  rmid := Rmgr.heap
  info := xlogHeapUpdate
  blocks := [docBlock toasted image]
  mainData := toLe 4 7 ++ (toLe 2 1 ++ ([0, if image then 0 else 0x40] ++ (toLe 4 0 ++ toLe 2 2)))

theorem docRecord_inData (toasted : Bool) :
    (docUpdate toasted).InData (docRecord toasted false) (docBlock toasted false) 0x40 where
  main := by cases toasted <;> decide
  old := rfl
  new := rfl
  data := rfl
  shared := by cases toasted <;> decide
  sharedEnd := by cases toasted <;> decide

theorem docRecord_inImage (z : Codecs) (toasted : Bool) :
    (docUpdate toasted).InImage z (docRecord toasted true) (docBlock toasted true) 0 where
  main := by cases toasted <;> decide
  old := rfl
  new := rfl
  data := rfl
  image := ⟨_, docPage toasted, rfl, (docImage toasted).restore_stored z, ⟨docPage_onPage toasted⟩⟩

def docTable (toasted : Bool) : Table :=
  { Table.opened docDesc (sink docDesc) with
    mirror := AList.singleton (0, 1)
      { row := (docUpdate toasted).oldRow, attrs := some (docUpdate toasted).oldAttrs } }

/-- An engine that has the old version of the row. -/
def docEngine (toasted : Bool) : Engine :=
  { engine [docDesc] with tables := [docTable toasted] }

theorem docEngine_preimage (toasted : Bool) :
    (docEngine toasted).preimage 0 (docUpdate toasted).oldCtid =
      some { row := (docUpdate toasted).oldRow, attrs := some (docUpdate toasted).oldAttrs } := rfl

end Sample

/-- With `abc` stored in place, both paths buffer the op. -/
theorem Engine.updateChange_paths_inline :
    ((Sample.docEngine false).updateChange (heapDecoder .pglzOnly) 10 (Sample.docRecord false false)
        (Sample.docBlock false false) 0 (Sample.docTable false) .vanilla).toOption =
      ((Sample.docEngine false).updateChange (heapDecoder .pglzOnly) 10 (Sample.docRecord false true)
        (Sample.docBlock false true) 0 (Sample.docTable false) .vanilla).toOption := by
  refine (updateChange_paths (u := Sample.docUpdate false) (Sample.docEngine_preimage false)
    (Sample.docRecord_inData false) (Sample.docRecord_inImage .pglzOnly false)).mpr ?_
  rintro ⟨-, row, n, hcarried⟩
  have hread : Entries .pglzOnly .empty (Sample.docUpdate false).body 0 0 0 Sample.docDesc.phys
      ([some (.i32 2)] ++ ([some (.text "abc")] ++ [])) (0 + 0 + 0) := by
    have hid : decodeValue .pglzOnly .empty (Sample.docUpdate false).body.data 0 .int4 =
        .ok (some (.i32 2), 4) := by decide +kernel
    have hdoc : decodeValue .pglzOnly .empty (Sample.docUpdate false).body.data 4 .text =
        .ok (some (.text "abc"), 8) := by decide +kernel
    exact .cons (.value (by decide) (by decide) hid)
      (.cons (.value (by decide) (by decide) hdoc) (.nil 2 8 2))
  have := hread.count_unique hcarried
  omega

/-- With `doc` out of line, the image fails where the data does not. -/
theorem Engine.updateChange_toast_lost :
    (Sample.docUpdate true).InData (Sample.docRecord true false) (Sample.docBlock true false) 0x40 ∧
    (Sample.docUpdate true).InImage .pglzOnly (Sample.docRecord true true) (Sample.docBlock true true) 0 ∧
    ((Sample.docEngine true).updateChange (heapDecoder .pglzOnly) 10 (Sample.docRecord true false)
        (Sample.docBlock true false) 0 (Sample.docTable true) .vanilla).toOption =
      some [.update (0, 1) (0, 2) ⟨[some (.i32 2), some (.text "abc")],
        some (toLe 4 2 ++ Sample.storedDoc true)⟩] ∧
    ((Sample.docEngine true).updateChange (heapDecoder .pglzOnly) 10 (Sample.docRecord true true)
        (Sample.docBlock true true) 0 (Sample.docTable true) .vanilla).toOption = none := by
  refine ⟨Sample.docRecord_inData true, Sample.docRecord_inImage .pglzOnly true, ?_, ?_⟩
  · refine (Update.updateChange_inData (Sample.docEngine_preimage true)
      (Sample.docRecord_inData true)).trans ?_
    decide +kernel
  · refine (Update.updateChange_inImage (Sample.docRecord_inImage .pglzOnly true)).trans ?_
    decide +kernel

end Ltap