-- SUMMARY: The layouts in which an inserted tuple arrives, and that all of them decode alike.
import OpenLtap.Wal.Tuple

/-!
# Paths of an inserted tuple

A tuple arrives in the block data of an INSERT in one of two dialects, among others in
the block data of a MULTI_INSERT, or on a page. Each layout is written down here as the
server writes it.
-/

namespace Ltap

/-- A tuple behind its fixed header. -/
structure HeapTuple where
  infomask2 : Nat
  infomask : Nat
  hoff : Nat
  payload : Bytes
  infomask2_lt : infomask2 < 2 ^ 16
  infomask_lt : infomask < 2 ^ 16
  hoff_lt : hoff < 2 ^ 8

namespace HeapTuple

variable (t : HeapTuple)

/-- What every path should make of the tuple. -/
def decode (z : Codecs) (desc : TableDesc) (toast : ToastCache) : Except Fault (Row × Bytes) :=
  decodeTuplePayload z toast t.payload t.infomask2 t.infomask t.hoff desc none

/-! ## Layouts -/

/-- `xl_heap_header` and the payload. -/
def vanillaData : Bytes := toLe 2 t.infomask2 ++ (toLe 2 t.infomask ++ (toLe 1 t.hoff ++ t.payload))

/-- `xl_neon_heap_header` and the payload. -/
def neonData (cid : Nat) : Bytes :=
  toLe 2 t.infomask2 ++ (toLe 2 t.infomask ++ (toLe 4 cid ++ (toLe 1 t.hoff ++ t.payload)))

/-- `xl_multi_insert_tuple` and the payload. -/
def multiData : Bytes :=
  toLe 2 t.payload.length ++ (toLe 2 t.infomask2 ++ (toLe 2 t.infomask ++ (toLe 1 t.hoff ++ t.payload)))

/-- The tuple as a page stores it, behind the transaction ids and the ctid. -/
def pageData (head : Bytes) : Bytes :=
  head ++ (toLe 2 t.infomask2 ++ (toLe 2 t.infomask ++ (toLe 1 t.hoff ++ t.payload)))

/-- The line pointer of `offnum` is normal and leads to the tuple. -/
structure OnPage (page : Bytes) (offnum : Nat) where
  lpOff : Nat
  head : Bytes
  offnum_ne : offnum ≠ 0
  lpOff_lt : lpOff < 2 ^ 15
  len_lt : (t.pageData head).length < 2 ^ 15
  head_length : head.length = 18
  itemid : slice page (24 + (offnum - 1) * 4) 4 =
    some (toLe 4 (lpOff + 2 ^ 15 + (t.pageData head).length * 2 ^ 17))
  tuple : slice page lpOff (t.pageData head).length = some (t.pageData head)

end HeapTuple

/-- A MULTI_INSERT record. -/
structure MultiInsert where
  fmt : HeapFmt
  flags : Nat
  cid : Nat
  /-- Info bits of the record besides the page initialisation. -/
  info : Nat
  /-- Each tuple with the byte that pads it to an even offset, if one is needed. -/
  tuples : List (HeapTuple × UInt8)
  /-- Offset numbers, which a record that initialises its page leaves out. -/
  offsets : Option (List Nat)
  info_lt : info < 0x80
  count_lt : tuples.length < 2 ^ 16
  datalen_lt : ∀ t ∈ tuples, t.1.payload.length < 2 ^ 16
  offsets_ok : ∀ offs ∈ offsets, offs.length = tuples.length ∧ ∀ off ∈ offs, off < 2 ^ 16

namespace MultiInsert

variable (m : MultiInsert)

def recordInfo : Nat := m.info + if m.offsets.isSome then 0 else xlogHeapInitPage

def mainData : Bytes :=
  toLe 2 m.flags ++ (toLe 2 m.tuples.length ++
    ((match m.fmt with
      | .vanilla => []
      | .neon => toLe 4 m.cid) ++ (m.offsets.getD []).flatMap (toLe 2)))

/-- The tuples from an offset on, each at an even one. -/
def tuplesFrom : Nat → List (HeapTuple × UInt8) → Bytes
  | _, [] => []
  | off, (t, pad) :: ts =>
    List.replicate (off % 2) pad ++ (t.multiData ++ tuplesFrom (off + off % 2 + (7 + t.payload.length)) ts)

def blockData : Bytes := tuplesFrom 0 m.tuples

/-- The offset numbers the tuples go to. -/
def offnums : List Nat := m.offsets.getD ((List.range m.tuples.length).map (· + 1))

end MultiInsert

/-! ## Single tuples -/

theorem slice_append {before mid after : Bytes} {off n : Nat} (hoff : before.length = off)
    (hn : mid.length = n) : slice (before ++ (mid ++ after)) off n = some mid := by
  rw [slice, List.drop_left' hoff, List.take_left' hn, if_pos]
  simp only [List.length_append]
  omega

theorem alignTo_two_pow (off k : Nat) : alignTo off (2 ^ k) = (off + (2 ^ k - 1)) / 2 ^ k * 2 ^ k := by
  have hsub : off + 2 ^ k - 1 = off + (2 ^ k - 1) := Nat.add_sub_assoc (Nat.two_pow_pos k) off
  rw [alignTo, Nat.and_two_pow_sub_one_eq_mod, hsub, Nat.div_mul_self_eq_mod_sub_self]

namespace HeapTuple

variable (t : HeapTuple) (z : Codecs) (desc : TableDesc) (toast : ToastCache)

theorem hoff_byte : (UInt8.ofNat (t.hoff % 256)).toNat = t.hoff := by
  have := t.hoff_lt
  rw [UInt8.toNat_ofNat']
  omega

theorem decodeInsertTuple_vanilla :
    decodeInsertTuple z t.vanillaData desc toast .vanilla = t.decode z desc toast := by
  have hlen : ¬ t.vanillaData.length < 5 := by
    simp only [vanillaData, List.length_append, toLe_length]
    omega
  have h₁ : t.vanillaData.take 2 = toLe 2 t.infomask2 := rfl
  have h₂ : (t.vanillaData.drop 2).take 2 = toLe 2 t.infomask := rfl
  have h₃ : t.vanillaData.getD 4 0 = UInt8.ofNat (t.hoff % 256) := rfl
  have h₄ : t.vanillaData.drop 5 = t.payload := rfl
  simp only [decodeInsertTuple, walHeapHeader, if_neg hlen, h₁, h₂, h₃, t.hoff_byte, bind, Except.bind, h₄,
    fromLe_toLe (n := 2) t.infomask2_lt, fromLe_toLe (n := 2) t.infomask_lt, decode]

theorem decodeInsertTuple_neon (cid : Nat) :
    decodeInsertTuple z (t.neonData cid) desc toast .neon = t.decode z desc toast := by
  have hlen : ¬ (t.neonData cid).length < 9 := by
    simp only [neonData, List.length_append, toLe_length]
    omega
  have h₁ : (t.neonData cid).take 2 = toLe 2 t.infomask2 := rfl
  have h₂ : ((t.neonData cid).drop 2).take 2 = toLe 2 t.infomask := rfl
  have h₃ : (t.neonData cid).getD 8 0 = UInt8.ofNat (t.hoff % 256) := rfl
  have h₄ : (t.neonData cid).drop 9 = t.payload := rfl
  simp only [decodeInsertTuple, walHeapHeader, if_neg hlen, h₁, h₂, h₃, t.hoff_byte, bind, Except.bind, h₄,
    fromLe_toLe (n := 2) t.infomask2_lt, fromLe_toLe (n := 2) t.infomask_lt, decode]

/-- A line pointer taken apart: offset, flags, length. -/
theorem itemid_fields {off flags len : Nat} (hoff : off < 2 ^ 15) (hflags : flags < 4) (hlen : len < 2 ^ 15) :
    off + flags * 2 ^ 15 + len * 2 ^ 17 < 256 ^ 4 ∧
      (off + flags * 2 ^ 15 + len * 2 ^ 17) &&& 0x7FFF = off ∧
      ((off + flags * 2 ^ 15 + len * 2 ^ 17) >>> 15) &&& 0x3 = flags ∧
      (off + flags * 2 ^ 15 + len * 2 ^ 17) >>> 17 = len := by
  refine ⟨by omega, ?_, ?_, ?_⟩
  · rw [show 0x7FFF = (2 ^ 15 - 1) * 2 ^ 0 by rfl, and_mask]
    omega
  · rw [Nat.shiftRight_eq_div_pow, show 0x3 = (2 ^ 2 - 1) * 2 ^ 0 by rfl, and_mask]
    omega
  · rw [Nat.shiftRight_eq_div_pow]
    omega

variable {t} in
theorem OnPage.tupleOnPage {page : Bytes} {offnum : Nat} (h : t.OnPage page offnum) :
    tupleOnPage page offnum =
      .ok { payload := t.payload, infomask2 := t.infomask2, infomask := t.infomask, hoff := t.hoff } := by
  obtain ⟨hlt, hoff, hflags, hlen⟩ := itemid_fields h.lpOff_lt (show 1 < 4 by decide) h.len_lt
  have hitem := h.itemid
  rw [show h.lpOff + 2 ^ 15 = h.lpOff + 1 * 2 ^ 15 by omega] at hitem
  have hhead := h.head_length
  have hlong : ¬ (t.pageData h.head).length < sizeofHeapTupleHeader := by
    simp only [pageData, List.length_append, hhead, toLe_length, sizeofHeapTupleHeader]
    omega
  have hdrop : ∀ n, (t.pageData h.head).drop (18 + n) =
      (toLe 2 t.infomask2 ++ (toLe 2 t.infomask ++ (toLe 1 t.hoff ++ t.payload))).drop n := by
    intro n
    rw [pageData, ← List.drop_drop, List.drop_left' hhead]
  have h₁ : ((t.pageData h.head).drop 18).take 2 = toLe 2 t.infomask2 := by rw [hdrop 0]; rfl
  have h₂ : ((t.pageData h.head).drop 20).take 2 = toLe 2 t.infomask := by rw [hdrop 2]; rfl
  have h₃ : (t.pageData h.head).getD 22 0 = UInt8.ofNat (t.hoff % 256) := by
    rw [List.getD_eq_getElem?_getD, ← List.getElem?_drop (i := 18) (j := 4), hdrop 0]
    rfl
  have h₄ : (t.pageData h.head).drop sizeofHeapTupleHeader = t.payload := by
    rw [sizeofHeapTupleHeader, hdrop 5]
    rfl
  simp only [Ltap.tupleOnPage, if_neg h.offnum_ne, hitem, fromLe_toLe hlt, hoff, hflags, hlen, ne_eq,
    not_true_eq_false, if_false, h.tuple, if_neg hlong, h₁, h₂, h₃, h₄, t.hoff_byte,
    fromLe_toLe (n := 2) t.infomask2_lt, fromLe_toLe (n := 2) t.infomask_lt]

variable {t} in
theorem decodeTupleFromPage_onPage {page : Bytes} {offnum : Nat} (h : t.OnPage page offnum) :
    decodeTupleFromPage z page offnum desc toast = t.decode z desc toast := by
  rw [decodeTupleFromPage, h.tupleOnPage]
  rfl

/-- What a tuple is decoded from. -/
theorem decodeTuplePayload_ok_iff {payload : Bytes} {im2 im hoff : Nat} {oldRow : Option Row} {row : Row}
    {attrs : Bytes} :
    decodeTuplePayload z toast payload im2 im hoff desc oldRow = .ok (row, attrs) ↔
      im2 &&& 0x07FF ≤ desc.phys.length ∧ sizeofHeapTupleHeader ≤ hoff ∧
        hoff - sizeofHeapTupleHeader ≤ payload.length ∧ attrs = payload.drop (hoff - sizeofHeapTupleHeader) ∧
        decodeAttrs z toast
          { data := payload.drop (hoff - sizeofHeapTupleHeader), bitmap := payload.take (hoff - sizeofHeapTupleHeader)
            hasNulls := im &&& heapHasNull ≠ 0, natts := im2 &&& 0x07FF, oldRow } 0 0 0 desc.phys = .ok row := by
  unfold decodeTuplePayload
  dsimp only
  constructor
  · intro h
    split at h
    · cases h
    split at h
    · cases h
    split at h
    · cases h
    rename_i hnatts hhoff hlen
    obtain ⟨row', hrow, h⟩ := bind_eq_ok.mp h
    obtain ⟨rfl, rfl⟩ := Prod.ext_iff.mp (Except.ok.inj h)
    exact ⟨Nat.le_of_not_lt hnatts, Nat.le_of_not_lt hhoff, Nat.le_of_not_lt hlen, rfl, hrow⟩
  · rintro ⟨hnatts, hhoff, hlen, rfl, hrow⟩
    rw [if_neg (Nat.not_lt.mpr hnatts), if_neg (Nat.not_lt.mpr hhoff), if_neg (Nat.not_lt.mpr hlen), hrow]
    rfl

/-- A tuple that decodes gives its attribute bytes. -/
theorem decode_attrs {row : Row} {attrs : Bytes} (h : t.decode z desc toast = .ok (row, attrs)) :
    sizeofHeapTupleHeader ≤ t.hoff ∧ t.hoff - sizeofHeapTupleHeader ≤ t.payload.length ∧
      attrs = t.payload.drop (t.hoff - sizeofHeapTupleHeader) := by
  obtain ⟨-, hhoff, hlen, hattrs, -⟩ := (decodeTuplePayload_ok_iff z desc toast).mp h
  exact ⟨hhoff, hlen, hattrs⟩

variable {t} in
theorem rawAttrsFromPage_onPage {page : Bytes} {offnum : Nat} (h : t.OnPage page offnum) {row : Row}
    {attrs : Bytes} (hrow : t.decode z desc toast = .ok (row, attrs)) :
    rawAttrsFromPage page offnum = .ok attrs := by
  obtain ⟨hhoff, hlen, rfl⟩ := t.decode_attrs z desc toast hrow
  simp only [rawAttrsFromPage, h.tupleOnPage, bind, Except.bind, if_neg (Nat.not_lt.mpr hhoff),
    if_neg (Nat.not_lt.mpr hlen)]
  rfl

end HeapTuple

/-! ## Multi-inserts -/

namespace MultiInsert

variable (z : Codecs) (desc : TableDesc) (toast : ToastCache)

theorem decodeMultiTuples_tuplesFrom (ts : List (HeapTuple × UInt8)) :
    ∀ (before : Bytes) (i : Nat), (∀ t ∈ ts, t.1.payload.length < 2 ^ 16) →
      decodeMultiTuples z (before ++ tuplesFrom before.length ts) desc toast ts.length i before.length =
        ts.mapM fun t => t.1.decode z desc toast := by
  induction ts with
  | nil => intro before i _; rfl
  | cons tp ts ih =>
    obtain ⟨t, pad⟩ := tp
    intro before i hlen
    have hlt : t.payload.length < 256 ^ 2 := hlen (t, pad) List.mem_cons_self
    obtain ⟨front, hpadded⟩ : ∃ front, before ++ List.replicate (before.length % 2) pad = front := ⟨_, rfl⟩
    have hfront : front.length = before.length + before.length % 2 := by
      rw [← hpadded, List.length_append, List.length_replicate]
    have halign : alignTo before.length 2 = front.length := by
      rw [hfront, show 2 = 2 ^ 1 by rfl, alignTo_two_pow]
      omega
    let hdr := toLe 2 t.payload.length ++ (toLe 2 t.infomask2 ++ (toLe 2 t.infomask ++ toLe 1 t.hoff))
    let rest := tuplesFrom (front.length + (7 + t.payload.length)) ts
    have hdata : before ++ tuplesFrom before.length ((t, pad) :: ts) = front ++ (hdr ++ (t.payload ++ rest)) := by
      rw [tuplesFrom, ← hfront, ← List.append_assoc, hpadded]
      simp only [HeapTuple.multiData, hdr, rest, List.append_assoc]
    have hhdr : slice (front ++ (hdr ++ (t.payload ++ rest))) front.length 7 = some hdr :=
      slice_append rfl rfl
    have hpayload : slice (front ++ (hdr ++ (t.payload ++ rest))) (front.length + 7) t.payload.length =
        some t.payload := by
      rw [← List.append_assoc]
      exact slice_append (by rw [List.length_append]; rfl) rfl
    have h₁ : hdr.take 2 = toLe 2 t.payload.length := rfl
    have h₂ : (hdr.drop 2).take 2 = toLe 2 t.infomask2 := rfl
    have h₃ : (hdr.drop 4).take 2 = toLe 2 t.infomask := rfl
    have h₄ : hdr.getD 6 0 = UInt8.ofNat (t.hoff % 256) := rfl
    have hnext := ih (front ++ (hdr ++ t.payload)) (i + 1) fun x hx => hlen x (List.mem_cons_of_mem _ hx)
    have hoff : (front ++ (hdr ++ t.payload)).length = front.length + (7 + t.payload.length) := by
      simp only [List.length_append]
      rfl
    rw [hoff, List.append_assoc, List.append_assoc] at hnext
    rw [hdata, List.length_cons, List.mapM_cons]
    simp only [decodeMultiTuples, halign, hhdr, h₁, fromLe_toLe hlt, hpayload, h₂, h₃, h₄, t.hoff_byte,
      fromLe_toLe (n := 2) t.infomask2_lt, fromLe_toLe (n := 2) t.infomask_lt]
    rw [hnext]
    rfl

variable (m : MultiInsert)

theorem mainData_fields :
    4 ≤ m.mainData.length ∧ fromLe ((m.mainData.drop 2).take 2) = m.tuples.length := by
  refine ⟨?_, ?_⟩
  · simp only [mainData, List.length_append, toLe_length]
    omega
  · have htake : (m.mainData.drop 2).take 2 = toLe 2 m.tuples.length := rfl
    rw [htake, fromLe_toLe (n := 2) m.count_lt]

theorem decodeMultiInsert_record :
    decodeMultiInsert z m.blockData m.mainData desc toast = m.tuples.mapM fun t => t.1.decode z desc toast := by
  obtain ⟨hlen, hcount⟩ := m.mainData_fields
  rw [decodeMultiInsert, if_neg (Nat.not_lt.mpr hlen), hcount]
  exact decodeMultiTuples_tuplesFrom z desc toast m.tuples [] 0 m.datalen_lt

theorem recordInfo_init : m.recordInfo &&& xlogHeapInitPage ≠ 0 ↔ m.offsets = none := by
  have hlt := m.info_lt
  have hmask : m.recordInfo &&& xlogHeapInitPage = m.recordInfo / 2 ^ 7 % 2 ^ 1 * 2 ^ 7 := by
    rw [show xlogHeapInitPage = (2 ^ 1 - 1) * 2 ^ 7 by rfl, and_mask]
  rw [hmask, recordInfo, xlogHeapInitPage]
  cases m.offsets with
  | none =>
    simp only [Option.isSome_none, Bool.false_eq_true, if_false, iff_true]
    omega
  | some offs =>
    simp only [Option.isSome_some, if_true, reduceCtorEq, iff_false]
    omega

theorem multiInsertOffsets_record :
    multiInsertOffsets m.mainData m.recordInfo m.fmt = .ok m.offnums ∧ m.offnums.length = m.tuples.length := by
  obtain ⟨hlen, hcount⟩ := m.mainData_fields
  have hinit := m.recordInfo_init
  have hok := m.offsets_ok
  cases ho : m.offsets with
  | none =>
    have hoffnums : m.offnums = (List.range m.tuples.length).map (· + 1) := by rw [offnums, ho]; rfl
    refine ⟨?_, by rw [hoffnums]; simp⟩
    simp only [multiInsertOffsets, if_neg (Nat.not_lt.mpr hlen), hcount, if_pos (hinit.mpr ho), hoffnums]
  | some offs =>
    obtain ⟨hcountEq, hlt⟩ := hok offs ho
    have hoffnums : m.offnums = offs := by rw [offnums, ho]; rfl
    have hflag : ¬ m.recordInfo &&& xlogHeapInitPage ≠ 0 := by rw [hinit, ho]; simp
    have hbytes : (offs.flatMap (toLe 2)).length = 2 * m.tuples.length := by
      rw [flatMap_toLe_length, hcountEq]
    have hchunks : chunksLe 2 m.tuples.length (offs.flatMap (toLe 2)) = offs := by
      rw [← hcountEq, chunksLe_toLe hlt]
    refine ⟨?_, by rw [hoffnums, hcountEq]⟩
    have hslice : ∀ base (front : Bytes), front.length = base →
        m.mainData = front ++ (offs.flatMap (toLe 2) ++ []) →
        slice m.mainData base (2 * m.tuples.length) = some (offs.flatMap (toLe 2)) := by
      intro base front hbase hmain
      rw [hmain]
      exact slice_append hbase hbytes
    simp only [multiInsertOffsets, if_neg (Nat.not_lt.mpr hlen), hcount, if_neg hflag, hoffnums]
    cases hf : m.fmt with
    | vanilla =>
      have h := hslice 4 (toLe 2 m.flags ++ toLe 2 m.tuples.length)
        (by simp only [List.length_append, toLe_length]) (by simp [mainData, hf, ho])
      simp only [h, hchunks]
    | neon =>
      have h := hslice 8 (toLe 2 m.flags ++ (toLe 2 m.tuples.length ++ toLe 4 m.cid))
        (by simp only [List.length_append, toLe_length]) (by simp [mainData, hf, ho])
      simp only [h, hchunks]

end MultiInsert

/-- Every path of an inserted tuple decodes it alike, and the offset numbers of a
multi-insert are those of its tuples in order. -/
theorem insert_paths_agree (z : Codecs) (desc : TableDesc) (toast : ToastCache) :
    (∀ t : HeapTuple,
      decodeInsertTuple z t.vanillaData desc toast .vanilla = t.decode z desc toast ∧
      (∀ cid, decodeInsertTuple z (t.neonData cid) desc toast .neon = t.decode z desc toast) ∧
      ∀ page offnum, Nonempty (t.OnPage page offnum) →
        decodeTupleFromPage z page offnum desc toast = t.decode z desc toast ∧
        ∀ row attrs, t.decode z desc toast = .ok (row, attrs) → rawAttrsFromPage page offnum = .ok attrs) ∧
    ∀ m : MultiInsert,
      decodeMultiInsert z m.blockData m.mainData desc toast =
        m.tuples.mapM (fun t => t.1.decode z desc toast) ∧
      multiInsertOffsets m.mainData m.recordInfo m.fmt = .ok m.offnums ∧
      m.offnums.length = m.tuples.length := by
  refine ⟨fun t => ⟨?_, ?_, ?_⟩, fun m => ⟨?_, ?_⟩⟩
  · exact t.decodeInsertTuple_vanilla z desc toast
  · exact t.decodeInsertTuple_neon z desc toast
  · rintro page offnum ⟨h⟩
    refine ⟨HeapTuple.decodeTupleFromPage_onPage z desc toast h, fun row attrs hrow => ?_⟩
    exact HeapTuple.rawAttrsFromPage_onPage z desc toast h hrow
  · exact MultiInsert.decodeMultiInsert_record z desc toast m
  · exact m.multiInsertOffsets_record

/-- A table of one int4 column. -/
def TableDesc.oneInt : TableDesc :=
  { name := "t", oid := 1, dbOid := 1, relNode := 1, toastRelNode := none, cols := [⟨"x", .int4⟩]
    phys := [.live ⟨"x", .int4⟩], hasFastDefaults := false, pk := [] }

/-- The row (42). -/
def HeapTuple.sample : HeapTuple where
  infomask2 := 1
  infomask := 0x0800
  hoff := 24
  payload := [0, 42, 0, 0, 0]
  infomask2_lt := by decide
  infomask_lt := by decide
  hoff_lt := by decide

/-- A page head with one line pointer, and the tuple right behind it. -/
def HeapTuple.samplePage : Bytes :=
  List.replicate 24 0 ++ (toLe 4 (28 + 2 ^ 15 + 28 * 2 ^ 17) ++ sample.pageData (List.replicate 18 0))

def HeapTuple.sample_onPage : sample.OnPage samplePage 1 where
  lpOff := 28
  head := List.replicate 18 0
  offnum_ne := by decide
  lpOff_lt := by decide
  len_lt := by decide
  head_length := by decide
  itemid := by decide +kernel
  tuple := by decide +kernel

/-- No codec but pglz. -/
def Codecs.pglzOnly : Codecs where
  lz4 _ _ := .error "no lz4"
  zstd _ _ := .error "no zstd"

theorem insert_paths_agree_sample :
    decodeTupleFromPage .pglzOnly HeapTuple.samplePage 1 .oneInt .empty = .ok ([some (.i32 42)], [42, 0, 0, 0]) ∧
      rawAttrsFromPage HeapTuple.samplePage 1 = .ok [42, 0, 0, 0] := by
  have hrow : HeapTuple.sample.decode .pglzOnly .oneInt .empty = .ok ([some (.i32 42)], [42, 0, 0, 0]) := by
    decide +kernel
  obtain ⟨hpage, hattrs⟩ := ((insert_paths_agree .pglzOnly .oneInt .empty).1 HeapTuple.sample).2.2
    HeapTuple.samplePage 1 ⟨HeapTuple.sample_onPage⟩
  exact ⟨hpage.trans hrow, hattrs _ _ hrow⟩

end Ltap
