-- SUMMARY: A raw tuple placed on a page is taken from it as it was.
import OpenLtap.Page.Geometry
import OpenLtap.Page.RoundTrip

/-!
# Raw tuples on a page and back

`RawTuple::from_page` undoes the placing of a raw tuple. The attribute bytes and the null
bitmap are copied, the rest goes through the header: flag bits, a block number in two
halves, and the offset of the attributes.
-/

namespace Ltap

/-- The fields fit their machine integers, and there are no more attributes than a table can
have columns. -/
structure RawTuple.Sized (rt : RawTuple) : Prop where
  natts : rt.natts ≤ 1600
  xmin : rt.xmin < 2 ^ 32
  xmax : rt.xmax < 2 ^ 32
  ctid : ∀ c ∈ rt.ctid, c.1 < 2 ^ 32 ∧ c.2 < 2 ^ 16

theorem infomask_varwidth (xmin xmax : Xid) (hasNulls hasVarwidth : Bool) :
    decide (infomask xmin xmax hasNulls hasVarwidth &&& heapHasVarwidth ≠ 0) = hasVarwidth := by
  unfold infomask
  by_cases hmax : xmax = 0 <;> by_cases hmin : xmin = frozenXid <;> cases hasNulls <;> cases hasVarwidth <;>
    simp only [hmax, hmin, if_true, if_false, Bool.false_eq_true] <;> decide

/-- A block number from its halves. -/
theorem block_halves {b : Nat} (h : b < 2 ^ 32) :
    fromLe (toLe 2 (b >>> 16)) <<< 16 ||| fromLe (toLe 2 (b &&& 0xFFFF)) = b := by
  have hlow : b &&& 0xFFFF = b % 2 ^ 16 := Nat.and_two_pow_sub_one_eq_mod b 16
  have hhigh : b >>> 16 = b / 2 ^ 16 := Nat.shiftRight_eq_div_pow b 16
  rw [hlow, hhigh, fromLe_toLe (by omega), fromLe_toLe (by omega),
    ← Nat.shiftLeft_add_eq_or_of_lt (Nat.mod_lt _ (by decide)), Nat.shiftLeft_eq]
  omega

/-- The reader of a normal line pointer, on the bytes of the tuple. -/
theorem RawTuple.fromPage_of_tuple {page tup : Bytes} {i : Nat} (h : TupleAt page i tup) {bitmap : Bytes}
    (hlen : sizeofHeapTupleHeader ≤ tup.length)
    (hbitmap : slice tup sizeofHeapTupleHeader
      (if fromLe ((tup.drop 20).take 2) &&& heapHasNull ≠ 0 then
        ((fromLe ((tup.drop 18).take 2) &&& heapNattsMask) + 7) / 8 else 0) = some bitmap)
    (hhoff : (tup.getD 22 0).toNat ≤ tup.length) :
    RawTuple.fromPage page (i + 1) = .ok {
      attrs := tup.drop (tup.getD 22 0).toNat, nullBitmap := bitmap
      natts := fromLe ((tup.drop 18).take 2) &&& heapNattsMask
      hasVarwidth := fromLe ((tup.drop 20).take 2) &&& heapHasVarwidth ≠ 0
      xmin := fromLe (tup.take 4), xmax := fromLe ((tup.drop 4).take 4)
      ctid := some (fromLe ((tup.drop 12).take 2) <<< 16 ||| fromLe ((tup.drop 14).take 2),
        fromLe ((tup.drop 16).take 2))
      heapOnly := fromLe ((tup.drop 18).take 2) &&& heapOnlyTuple ≠ 0
      hotUpdated := fromLe ((tup.drop 18).take 2) &&& heapHotUpdated ≠ 0 } := by
  obtain ⟨off, hheader, hend, hitem, hslice⟩ := h
  have hsize : pageSize < 2 ^ 15 := by decide
  have hlp := linePointer_item (by omega) (show 1 < 4 by decide) (by omega) hitem
  simp only [fromPage, hlp, bind, Except.bind, ne_eq, not_true_eq_false, if_false, hslice,
    if_neg (Nat.not_lt.mpr hlen), if_neg (Nat.not_lt.mpr hhoff)]
  simp only [ne_eq] at hbitmap
  rw [hbitmap]
  rfl

/-- The parts of an encoded raw tuple. -/
theorem encodeRawTuple_parts {block offnum : Nat} {rt : RawTuple} {tup : Bytes}
    (h : encodeRawTuple block offnum rt = .ok tup) :
    rt.nullBitmap.length = (if rt.nullBitmap ≠ [] then (rt.natts + 7) / 8 else 0) ∧
      tup = heapHeader rt.xmin rt.xmax (rt.ctid.getD (block, offnum)).1 (rt.ctid.getD (block, offnum)).2
          (infomask2 rt.natts rt.heapOnly rt.hotUpdated)
          (infomask rt.xmin rt.xmax (rt.nullBitmap ≠ []) rt.hasVarwidth)
          (maxalign (sizeofHeapTupleHeader + rt.nullBitmap.length)) ++
        (rt.nullBitmap ++ List.replicate (maxalign (sizeofHeapTupleHeader + rt.nullBitmap.length) -
          (sizeofHeapTupleHeader + rt.nullBitmap.length)) 0 ++ rt.attrs) := by
  have hnulls : (!rt.nullBitmap.isEmpty) = decide (rt.nullBitmap ≠ []) := by
    cases rt.nullBitmap <;> rfl
  unfold encodeRawTuple at h
  simp only [hnulls, decide_eq_true_eq] at h
  by_cases hlen : rt.nullBitmap.length ≠ (if rt.nullBitmap ≠ [] then (rt.natts + 7) / 8 else 0)
  · rw [if_pos hlen] at h
    cases h
  · rw [if_neg hlen] at h
    exact ⟨not_not.mp hlen, (Except.ok.inj h).symm⟩

/-- The header fields of a tuple. -/
theorem heapHeader_fields (xmin xmax cblk coff mask2 mask hoff : Nat) (rest : Bytes) :
    (heapHeader xmin xmax cblk coff mask2 mask hoff ++ rest).take 4 = toLe 4 xmin ∧
      ((heapHeader xmin xmax cblk coff mask2 mask hoff ++ rest).drop 4).take 4 = toLe 4 xmax ∧
      ((heapHeader xmin xmax cblk coff mask2 mask hoff ++ rest).drop 12).take 2 = toLe 2 (cblk >>> 16) ∧
      ((heapHeader xmin xmax cblk coff mask2 mask hoff ++ rest).drop 14).take 2 = toLe 2 (cblk &&& 0xFFFF) ∧
      ((heapHeader xmin xmax cblk coff mask2 mask hoff ++ rest).drop 16).take 2 = toLe 2 coff ∧
      ((heapHeader xmin xmax cblk coff mask2 mask hoff ++ rest).drop 18).take 2 = toLe 2 mask2 ∧
      ((heapHeader xmin xmax cblk coff mask2 mask hoff ++ rest).drop 20).take 2 = toLe 2 mask ∧
      (heapHeader xmin xmax cblk coff mask2 mask hoff ++ rest).getD 22 0 = UInt8.ofNat (hoff % 256) ∧
      (heapHeader xmin xmax cblk coff mask2 mask hoff ++ rest).drop sizeofHeapTupleHeader = rest :=
  ⟨rfl, rfl, rfl, rfl, rfl, rfl, rfl, rfl, rfl⟩

theorem heapHeader_length (xmin xmax cblk coff mask2 mask hoff : Nat) :
    (heapHeader xmin xmax cblk coff mask2 mask hoff).length = sizeofHeapTupleHeader := by
  simp only [heapHeader, List.length_append, tupleHead_length, toLe_length, sizeofHeapTupleHeader]

/-- A raw tuple on a page is read back, with the address it points at. -/
theorem RawTuple.fromPage_encoded {page tup : Bytes} {block i : Nat} {rt : RawTuple}
    (hencode : encodeRawTuple block (i + 1) rt = .ok tup) (hat : TupleAt page i tup)
    (hsized : rt.Sized) (hblock : block < 2 ^ 32) (hoffnum : i + 1 < 2 ^ 16) :
    RawTuple.fromPage page (i + 1) = .ok { rt with ctid := some (rt.ctid.getD (block, i + 1)) } := by
  obtain ⟨hbitmap, rfl⟩ := encodeRawTuple_parts hencode
  have hctid : (rt.ctid.getD (block, i + 1)).1 < 2 ^ 32 ∧ (rt.ctid.getD (block, i + 1)).2 < 2 ^ 16 := by
    cases hc : rt.ctid with
    | none => exact ⟨hblock, hoffnum⟩
    | some c => exact hsized.ctid c hc
  -- The header with its bitmap is short, so its length fits the one byte for it.
  have hbytes : rt.nullBitmap.length ≤ 200 := by
    have hnatts := hsized.natts
    rw [hbitmap]
    split <;> omega
  obtain ⟨hroom, hbyte⟩ := maxalign_header hbytes
  obtain ⟨hmask, hhas, -, -⟩ := infomask_bits rt.xmin rt.xmax (rt.nullBitmap ≠ []) rt.hasVarwidth
  obtain ⟨hmask2, hnatts, honly, hhot⟩ := infomask2_bits rt.natts rt.heapOnly rt.hotUpdated
  have hnatts' : infomask2 rt.natts rt.heapOnly rt.hotUpdated &&& heapNattsMask = rt.natts := by
    rw [hnatts]
    exact Nat.and_two_pow_sub_one_of_lt_two_pow (n := 11) (by have := hsized.natts; omega)
  have hvar := infomask_varwidth rt.xmin rt.xmax (rt.nullBitmap ≠ []) rt.hasVarwidth
  have hlen := heapHeader_length rt.xmin rt.xmax (rt.ctid.getD (block, i + 1)).1 (rt.ctid.getD (block, i + 1)).2
    (infomask2 rt.natts rt.heapOnly rt.hotUpdated)
    (infomask rt.xmin rt.xmax (rt.nullBitmap ≠ []) rt.hasVarwidth)
    (maxalign (sizeofHeapTupleHeader + rt.nullBitmap.length))
  -- From here on only what was said about these words and about the padding matters.
  generalize maxalign (sizeofHeapTupleHeader + rt.nullBitmap.length) = hoff at *
  generalize infomask2 rt.natts rt.heapOnly rt.hotUpdated = mask2 at *
  generalize infomask rt.xmin rt.xmax (rt.nullBitmap ≠ []) rt.hasVarwidth = mask at *
  generalize hzeros : List.replicate (hoff - (sizeofHeapTupleHeader + rt.nullBitmap.length)) (0 : UInt8) = zeros at *
  have hzeros' : zeros.length = hoff - (sizeofHeapTupleHeader + rt.nullBitmap.length) := by
    rw [← hzeros, List.length_replicate]
  obtain ⟨h₁, h₂, h₃, h₄, h₅, h₆, h₇, h₈, h₉⟩ := heapHeader_fields rt.xmin rt.xmax
    (rt.ctid.getD (block, i + 1)).1 (rt.ctid.getD (block, i + 1)).2 mask2 mask hoff
    (rt.nullBitmap ++ zeros ++ rt.attrs)
  have htotal : (heapHeader rt.xmin rt.xmax (rt.ctid.getD (block, i + 1)).1 (rt.ctid.getD (block, i + 1)).2
      mask2 mask hoff ++ (rt.nullBitmap ++ zeros ++ rt.attrs)).length =
      sizeofHeapTupleHeader + (rt.nullBitmap.length + zeros.length + rt.attrs.length) := by
    rw [List.length_append, hlen, List.length_append, List.length_append]
  generalize heapHeader rt.xmin rt.xmax (rt.ctid.getD (block, i + 1)).1 (rt.ctid.getD (block, i + 1)).2
    mask2 mask hoff ++ (rt.nullBitmap ++ zeros ++ rt.attrs) = tup at *
  have hhoff : (tup.getD 22 0).toNat = hoff := by
    rw [h₈, UInt8.toNat_ofNat', Nat.mod_mod]
    exact Nat.mod_eq_of_lt hbyte
  have hmask' : fromLe ((tup.drop 20).take 2) = mask := by rw [h₇, fromLe_toLe hmask]
  have hmask2' : fromLe ((tup.drop 18).take 2) = mask2 := by rw [h₆, fromLe_toLe hmask2]
  -- the attributes start where the header says
  have hattrs : tup.drop hoff = rt.attrs := by
    have hleft : (rt.nullBitmap ++ zeros).length = hoff - sizeofHeapTupleHeader := by
      rw [List.length_append, hzeros']
      omega
    rw [show hoff = sizeofHeapTupleHeader + (hoff - sizeofHeapTupleHeader) by omega, ← List.drop_drop, h₉,
      List.drop_left' hleft]
  have hslice : slice tup sizeofHeapTupleHeader
      (if fromLe ((tup.drop 20).take 2) &&& heapHasNull ≠ 0 then
        ((fromLe ((tup.drop 18).take 2) &&& heapNattsMask) + 7) / 8 else 0) = some rt.nullBitmap := by
    -- The bit for nulls says whether there is a bitmap.
    have hnulls : (mask &&& heapHasNull ≠ 0) ↔ rt.nullBitmap ≠ [] := by
      simpa only [decide_eq_decide] using hhas
    rw [hmask', hmask2', hnatts', if_congr hnulls rfl rfl, ← hbitmap, slice, if_pos (by omega), h₉,
      List.append_assoc, List.take_left' rfl]
  rw [RawTuple.fromPage_of_tuple hat (by omega) hslice (by omega), hhoff, hattrs, hmask', hmask2', hnatts',
    hvar, honly, hhot, h₁, h₂, h₃, h₄, h₅, fromLe_toLe hsized.xmin, fromLe_toLe hsized.xmax,
    block_halves hctid.1, fromLe_toLe hctid.2]

/-- A raw tuple in any slot of a page that is built is read back at its offset number. -/
theorem fromPage_buildPage (desc : TableDesc) (block : Nat) (lsn : Lsn) (slots : List Slot) (page : Bytes)
    (hblock : block < 2 ^ 32) (hbuild : buildPage desc block lsn slots = .ok page) (k : Nat) (rt : RawTuple)
    (hk : slots[k]? = some (.raw rt)) (hsized : rt.Sized) :
    RawTuple.fromPage page (k + 1) = .ok { rt with ctid := some (rt.ctid.getD (block, k + 1)) } := by
  obtain ⟨-, hfits, -, hholds⟩ := buildPage_ok hbuild
  obtain ⟨tup, hencode, hat⟩ := hholds k _ hk
  have hlt := (List.getElem?_eq_some_iff.mp hk).1
  simp only [pageHeaderSize, itemIdSize, pageSize] at hfits
  exact RawTuple.fromPage_encoded hencode hat hsized hblock (by omega)

theorem fromPage_buildPage_sample :
    ∃ page, buildPage .oneInt 7 0 redirectedSlots = .ok page ∧
      RawTuple.fromPage page 3 = .ok
        { attrs := [42, 0, 0, 0], nullBitmap := [], natts := 1, hasVarwidth := false, xmin := 100, xmax := 0,
          ctid := some (7, 3), heapOnly := true, hotUpdated := false } := by
  obtain ⟨page, hbuild⟩ := redirectedSlots_built
  refine ⟨page, hbuild, ?_⟩
  exact fromPage_buildPage .oneInt 7 0 redirectedSlots page (by decide) hbuild 2 _ rfl
    ⟨by decide, by decide, by decide, nofun⟩

end Ltap
