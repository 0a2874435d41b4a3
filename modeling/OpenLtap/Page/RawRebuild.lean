-- SUMMARY: Raw tuples placed on a new page at the offset numbers of their rows, and when the page shows the same rows.
import OpenLtap.Page.RoundTrip

/-!
# From raw fragments to a page

A raw fragment row is the visible version of a chain. On the rebuilt page it stands at the
start of the chain, with its own flags but for the locks. It is shown there if it has an
address of its own and if nobody who committed is its `xmax`.
-/

namespace Ltap

/-! ## The page and its raw tuples -/

def PageTuple.bitmapLen (t : PageTuple) : Nat :=
  if t.infomask &&& heapHasNull ≠ 0 then ((t.infomask2 &&& heapNattsMask) + 7) / 8 else 0

/-- What the server keeps on its heap pages. -/
structure WellFormedPage (page : Bytes) (block : Nat) : Prop where
  /-- The attributes start behind the null bitmap. -/
  hoff : ∀ offnum ∈ offnums page, ∀ t, tupleOnPage page offnum = .ok t →
    t.hoff = maxalign (sizeofHeapTupleHeader + t.bitmapLen)
  /-- A version that is only locked has no link to a next one. -/
  locked : ∀ offnum ∈ offnums page, ∀ hdr, HeaderAt page offnum hdr → hdr.infomask &&& heapXmaxLockOnly ≠ 0 →
    hdr.infomask2 &&& heapHotUpdated = 0
  /-- Redirects and links stay among the line pointers. -/
  redirect : ∀ offnum ∈ offnums page, ∀ lp, linePointer page offnum = .ok lp → lp.flags = lpRedirect →
    lp.off ∈ offnums page
  link : ∀ offnum ∈ offnums page, ∀ hdr, HeaderAt page offnum hdr → hdr.infomask2 &&& heapHotUpdated ≠ 0 →
    hdr.ctidBlock = block → hdr.ctidOff ∈ offnums page

/-- Chains start and stay among the line pointers. -/
theorem WellFormedPage.visible_mem {page : Bytes} {block : Nat} (hwf : WellFormedPage page block) {clog : ClogSource}
    {off start vis : Nat} (hoff : off ∈ offnums page) (hroot : chainRoot page off = .ok (some start))
    (hvis : visibleVersion page block clog start = .ok (some vis)) :
    vis ∈ offnums page ∧ ∃ hdr, HeaderAt page vis hdr ∧ clog.tupleVisible hdr.xmin hdr.xmax hdr.infomask = .ok true := by
  have hstart : start ∈ offnums page := by
    obtain ⟨lp, hlp, h⟩ := bind_eq_ok.mp hroot
    split at h
    · rename_i hredirect
      obtain rfl := Option.some.inj (Except.ok.inj h)
      exact hwf.redirect off hoff lp hlp hredirect
    split at h
    · obtain ⟨hdr, -, h⟩ := bind_eq_ok.mp h
      split at h
      · cases h
      · obtain rfl := Option.some.inj (Except.ok.inj h)
        exact hoff
    · cases h
  exact visibleFrom_some (fun cur hdr hcur => hwf.link cur hcur hdr) hstart hvis

/-- A raw tuple, and the tuple on a page from which it was taken. -/
structure RawTuple.Of (raw : RawTuple) (t : PageTuple) (hdr : TupleHdr) : Prop where
  attrs : raw.attrs = t.payload.drop (t.hoff - sizeofHeapTupleHeader)
  bitmap : raw.nullBitmap = t.payload.take t.bitmapLen
  bitmap_length : raw.nullBitmap.length = t.bitmapLen
  natts : raw.natts = t.infomask2 &&& heapNattsMask
  xmin : raw.xmin = hdr.xmin
  xmax : raw.xmax = hdr.xmax
  heapOnly : raw.heapOnly = decide (hdr.infomask2 &&& heapOnlyTuple ≠ 0)
  hotUpdated : raw.hotUpdated = decide (hdr.infomask2 &&& heapHotUpdated ≠ 0)
  xmin_lt : hdr.xmin < 2 ^ 32
  xmax_lt : hdr.xmax < 2 ^ 32

theorem window_take {tup : Bytes} {a b n : Nat} (h : a + b ≤ n) :
    ((tup.take n).drop a).take b = (tup.drop a).take b := by
  rw [List.drop_take, List.take_take, Nat.min_eq_left (by omega)]

theorem fromLe_window_lt (bs : Bytes) (n : Nat) : fromLe (bs.take n) < 256 ^ n :=
  (fromLe_lt _).trans_le (Nat.pow_le_pow_right (by decide) (List.length_take_le n bs))

theorem linePointer_tupleOnPage {page : Bytes} {offnum : Nat} {lp : LinePointer} {t : PageTuple}
    (hlp : linePointer page offnum = .ok lp) (ht : tupleOnPage page offnum = .ok t) :
    ∃ tup, slice page lp.off lp.len = some tup ∧ sizeofHeapTupleHeader ≤ tup.length ∧
      t = { payload := tup.drop sizeofHeapTupleHeader, infomask2 := fromLe ((tup.drop 18).take 2)
            infomask := fromLe ((tup.drop 20).take 2), hoff := (tup.getD 22 0).toNat } := by
  unfold linePointer at hlp
  unfold tupleOnPage at ht
  split at ht
  · cases ht
  rename_i hne
  rw [if_neg hne] at hlp
  simp only [pageHeaderSize, itemIdSize] at hlp
  split at ht
  · cases ht
  rename_i item hitem
  rw [hitem] at hlp
  obtain rfl := Except.ok.inj hlp
  dsimp only at ht ⊢
  split at ht
  · cases ht
  split at ht
  · cases ht
  rename_i tup htup
  split at ht
  · cases ht
  rename_i hlen
  exact ⟨tup, htup, Nat.le_of_not_lt hlen, (Except.ok.inj ht).symm⟩

/-- A raw tuple as it is taken from a page. -/
theorem fromPage_ok {page : Bytes} {offnum : Nat} {raw : RawTuple} {lp : LinePointer} {hdr : TupleHdr}
    {t : PageTuple} (h : RawTuple.fromPage page offnum = .ok raw) (hlp : linePointer page offnum = .ok lp)
    (hhdr : readHeader page lp.off = .ok hdr) (ht : tupleOnPage page offnum = .ok t)
    (hhoff : sizeofHeapTupleHeader ≤ t.hoff) : raw.Of t hdr := by
  obtain ⟨tup, htup, hlen, rfl⟩ := linePointer_tupleOnPage hlp ht
  have hfit : sizeofHeapTupleHeader ≤ lp.len := by
    rw [← slice_length htup]
    exact hlen
  rw [readHeader, slice_prefix htup hfit] at hhdr
  obtain rfl := Except.ok.inj hhdr
  unfold RawTuple.fromPage at h
  rw [hlp] at h
  simp only [bind, Except.bind] at h
  split at h
  · cases h
  rw [htup] at h
  dsimp only at h
  rw [if_neg (Nat.not_lt.mpr hlen)] at h
  split at h
  · cases h
  rename_i bitmap hbitmap
  split at h
  · cases h
  obtain rfl := Except.ok.inj h
  exact {
    attrs := by
      rw [List.drop_drop, Nat.add_sub_cancel' hhoff]
    bitmap := (window_of_slice hbitmap).symm
    bitmap_length := slice_length hbitmap
    natts := rfl
    xmin := congrArg fromLe (by rw [List.take_take]; rfl)
    xmax := congrArg fromLe (window_take (by decide)).symm
    heapOnly := congrArg (fun b => decide (fromLe b &&& heapOnlyTuple ≠ 0)) (window_take (by decide)).symm
    hotUpdated := congrArg (fun b => decide (fromLe b &&& heapHotUpdated ≠ 0)) (window_take (by decide)).symm
    xmin_lt := fromLe_window_lt _ 4
    xmax_lt := fromLe_window_lt _ 4 }

/-! ## The rebuilt tuple -/

section Rebuilt

variable {page page' : Bytes} {block i : Nat} {clog : ClogSource} {z : Codecs} {toast : ToastCache} {desc : TableDesc}

/-- Behind the null bitmap of a raw tuple the stored attributes have the bits of its source. -/
theorem RawTuple.Of.isNull_eq {raw : RawTuple} {hdr : TupleHdr} {t : PageTuple} (hof : raw.Of t hdr)
    {body body' : TupleBody} {n k : Nat} {zeros : Bytes} (hn : t.bitmapLen ≤ n)
    (hbits : body.bitmap = t.payload.take n) (hnulls : body.hasNulls = decide (t.infomask &&& heapHasNull ≠ 0))
    (hbits' : body'.bitmap = raw.nullBitmap ++ zeros) (hnulls' : body'.hasNulls = !raw.nullBitmap.isEmpty)
    (hk : k < t.infomask2 &&& heapNattsMask) : body'.isNull k = body.isNull k := by
  have hbitmap := hof.bitmap
  have hlength := hof.bitmap_length
  rw [TupleBody.isNull, TupleBody.isNull, hbits, hnulls, hbits', hnulls']
  by_cases hflag : t.infomask &&& heapHasNull ≠ 0
  · rw [PageTuple.bitmapLen, if_pos hflag] at hn hlength hbitmap
    have hin : k / 8 < raw.nullBitmap.length := by omega
    have hne : raw.nullBitmap.isEmpty = false := by
      rw [List.isEmpty_eq_false_iff]
      exact List.ne_nil_of_length_pos (by omega)
    have hbyte : (raw.nullBitmap ++ zeros)[k / 8]? = (t.payload.take n)[k / 8]? := by
      rw [List.getElem?_append_left hin, hbitmap, List.getElem?_take_of_lt (by omega),
        List.getElem?_take_of_lt (by omega)]
    rw [decide_eq_true hflag, hne, Bool.not_false, hbyte]
  · rw [PageTuple.bitmapLen, if_neg hflag] at hlength
    rw [decide_eq_false hflag, List.length_eq_zero_iff.mp hlength]
    rfl

/-- A raw tuple that is placed decodes to the row of its source. -/
theorem encodeRawTuple_ok {offnum : Nat} {raw : RawTuple} {hdr : TupleHdr} {t : PageTuple} {row : Row}
    {attrs tup : Bytes} (hof : raw.Of t hdr) (hoff : t.hoff = maxalign (sizeofHeapTupleHeader + t.bitmapLen))
    (hbyte : t.hoff < 2 ^ 8)
    (hrow : decodeTuplePayload z toast t.payload t.infomask2 t.infomask t.hoff desc none = .ok (row, attrs))
    (h : encodeRawTuple block offnum raw = .ok tup) :
    ∃ (t' : HeapTuple) (cblk coff : Nat) (hasNulls : Bool),
      tup = t'.pageData (tupleHead hdr.xmin hdr.xmax cblk coff) ∧
        t'.infomask2 = infomask2 raw.natts raw.heapOnly raw.hotUpdated ∧
        t'.infomask = infomask hdr.xmin hdr.xmax hasNulls raw.hasVarwidth ∧
        t'.decode z desc toast = .ok (row, attrs) := by
  obtain ⟨hnatts, hhoff, hlen, rfl, hattrs⟩ := (HeapTuple.decodeTuplePayload_ok_iff z desc toast).mp hrow
  unfold encodeRawTuple at h
  dsimp only at h
  generalize (if (!raw.nullBitmap.isEmpty) = true then (raw.natts + 7) / 8 else 0) = expected at h
  split at h
  · cases h
  obtain rfl := Except.ok.inj h
  have htHoff : maxalign (sizeofHeapTupleHeader + raw.nullBitmap.length) = t.hoff := by
    rw [hof.bitmap_length, hoff]
  have hle := le_maxalign (sizeofHeapTupleHeader + raw.nullBitmap.length)
  rw [htHoff] at hle ⊢
  generalize hzeros : List.replicate (t.hoff - (sizeofHeapTupleHeader + raw.nullBitmap.length)) (0 : UInt8) = zeros
  have hzeroslen : raw.nullBitmap.length + zeros.length = t.hoff - sizeofHeapTupleHeader := by
    rw [← hzeros, List.length_replicate]
    omega
  obtain ⟨hmask, hhas, -, -⟩ := infomask_bits hdr.xmin hdr.xmax (!raw.nullBitmap.isEmpty) raw.hasVarwidth
  obtain ⟨hmask2, hnatts', -, -⟩ := infomask2_bits raw.natts raw.heapOnly raw.hotUpdated
  let t' : HeapTuple := {
    infomask2 := infomask2 raw.natts raw.heapOnly raw.hotUpdated
    infomask := infomask hdr.xmin hdr.xmax (!raw.nullBitmap.isEmpty) raw.hasVarwidth
    hoff := t.hoff, payload := raw.nullBitmap ++ zeros ++ raw.attrs
    infomask2_lt := hmask2, infomask_lt := hmask, hoff_lt := hbyte }
  refine ⟨t', (raw.ctid.getD (block, offnum)).1, (raw.ctid.getD (block, offnum)).2, !raw.nullBitmap.isEmpty, ?_, rfl,
    rfl, ?_⟩
  · rw [hof.xmin, hof.xmax]
    exact heapHeader_append t' _ _ _ _
  have hfront : (raw.nullBitmap ++ zeros).length = t.hoff - sizeofHeapTupleHeader := by
    rw [List.length_append, hzeroslen]
  have hdrop : t'.payload.drop (t.hoff - sizeofHeapTupleHeader) = t.payload.drop (t.hoff - sizeofHeapTupleHeader) := by
    rw [← hof.attrs]
    exact List.drop_left' hfront
  have htake : t'.payload.take (t.hoff - sizeofHeapTupleHeader) = raw.nullBitmap ++ zeros := List.take_left' hfront
  have hnatts'' : t'.infomask2 &&& 0x07FF = t.infomask2 &&& 0x07FF := by
    refine hnatts'.trans ?_
    rw [hof.natts, Nat.and_assoc, Nat.and_self]
    rfl
  refine (HeapTuple.decodeTuplePayload_ok_iff z desc toast).mpr
    ⟨hnatts''.trans_le hnatts, hhoff, ?_, hdrop.symm, ?_⟩
  · simp only [t', List.length_append]
    omega
  · refine decodeAttrs_congr ?_ ?_ ?_ ?_ hattrs
    · exact hdrop
    · exact hnatts''
    · rfl
    intro k hk null hnull
    have hbits : t.bitmapLen ≤ t.hoff - sizeofHeapTupleHeader := by
      rw [← hof.bitmap_length]
      omega
    rw [← hnull]
    exact hof.isNull_eq hbits rfl rfl htake hhas hk

/-- A visible version of a page, its tuple, its row, and its raw tuple. -/
structure Version (page : Bytes) (clog : ClogSource) (z : Codecs) (toast : ToastCache) (desc : TableDesc) (vis : Nat)
    (hdr : TupleHdr) (row : Row) (raw : RawTuple) : Prop where
  mem : vis ∈ offnums page
  header : HeaderAt page vis hdr
  visible : clog.tupleVisible hdr.xmin hdr.xmax hdr.infomask = .ok true
  row_eq : ∃ attrs, decodeTupleFromPage z page vis desc toast = .ok (row, attrs)
  raw_eq : RawTuple.fromPage page vis = .ok raw

/-- What the rebuilt page shows of a version without its locks. -/
def Kept (clog : ClogSource) (hdr : TupleHdr) : Prop :=
  hdr.infomask2 &&& heapOnlyTuple = 0 ∧ clog.Undeleted hdr.xmax

section Version

variable {vis : Nat} {hdr : TupleHdr} {row : Row} {raw : RawTuple}
  (hversion : Version page clog z toast desc vis hdr row raw) (hwf : WellFormedPage page block)
  (hholds : (Slot.raw raw).Holds desc block page' i)
include hversion hwf hholds

/-- A version that is placed again: its ids and its chain flags stay, its locks go. -/
theorem Version.placed :
    ∃ lp' hdr' attrs, linePointer page' (i + 1) = .ok lp' ∧ lp'.flags = lpNormal ∧
      readHeader page' lp'.off = .ok hdr' ∧ hdr'.xmin = hdr.xmin ∧ hdr'.xmax = hdr.xmax ∧
      hdr'.infomask &&& heapXmaxIsMulti = 0 ∧ hdr'.infomask &&& heapXmaxLockOnly = 0 ∧
      (hdr'.infomask2 &&& heapOnlyTuple = 0 ↔ hdr.infomask2 &&& heapOnlyTuple = 0) ∧
      (hdr'.infomask2 &&& heapHotUpdated = 0 ↔ hdr.infomask2 &&& heapHotUpdated = 0) ∧
      decodeTupleFromPage z page' (i + 1) desc toast = .ok (row, attrs) := by
  obtain ⟨lp, hlp, -, hhdr⟩ := hversion.header
  obtain ⟨attrs, hrow⟩ := hversion.row_eq
  obtain ⟨t, ht, hpayload⟩ := bind_eq_ok.mp hrow
  obtain ⟨-, hhoff, -, -, -⟩ := (HeapTuple.decodeTuplePayload_ok_iff z desc toast).mp hpayload
  have hof := fromPage_ok hversion.raw_eq hlp hhdr ht hhoff
  have hbyte : t.hoff < 2 ^ 8 := by
    obtain ⟨tup, -, -, rfl⟩ := linePointer_tupleOnPage hlp ht
    exact UInt8.toNat_lt _
  obtain ⟨tup, hencode, htup⟩ := hholds
  obtain ⟨t', cblk, coff, hasNulls, rfl, hmask2, hmask, hdecode⟩ :=
    encodeRawTuple_ok hof (hwf.hoff vis hversion.mem t ht) hbyte hpayload hencode
  obtain ⟨lp', hdr', hlp', hnormal, hhdr', hxmin, hxmax, hinfo, hinfo2, ⟨honpage⟩⟩ :=
    htup.read hof.xmin_lt hof.xmax_lt
  obtain ⟨-, -, hmulti, hlock⟩ := infomask_bits hdr.xmin hdr.xmax hasNulls raw.hasVarwidth
  obtain ⟨-, -, honly, hhot⟩ := infomask2_bits raw.natts raw.heapOnly raw.hotUpdated
  refine ⟨lp', hdr', attrs, hlp', hnormal, hhdr', hxmin, hxmax, ?_, ?_, ?_, ?_, ?_⟩
  · rw [hinfo, hmask, hmulti]
  · rw [hinfo, hmask, hlock]
  · rw [hof.heapOnly] at honly
    rw [hinfo2, hmask2, hof.heapOnly]
    exact not_iff_not.mp (decide_eq_decide.mp honly)
  · rw [hof.hotUpdated] at hhot
    rw [hinfo2, hmask2, hof.hotUpdated]
    exact not_iff_not.mp (decide_eq_decide.mp hhot)
  · rw [HeapTuple.decodeTupleFromPage_onPage z desc toast honpage, hdecode]

/-- A version that is kept is shown. -/
theorem Version.emitAt_of_kept (hkept : Kept clog hdr) :
    emitAt page' block clog (takeRow page' block z desc toast) (i + 1) =
      .ok (some { block, offnum := i + 1, row }) := by
  obtain ⟨lp', hdr', attrs, hlp', hnormal, hhdr', hxmin, hxmax, hmulti, hlock, honly, -, hdecode⟩ :=
    hversion.placed hwf hholds
  have hvisible : clog.tupleVisible hdr'.xmin hdr'.xmax hdr'.infomask = .ok true := by
    rw [ClogSource.tupleVisible_unlocked (hxmin ▸ (ClogSource.tupleVisible_true hversion.visible).1) hmulti hlock, hxmax]
    exact hkept.2
  have hroot := chainRoot_normal hlp' hnormal hhdr'
  rw [if_neg (not_not.mpr (honly.mpr hkept.1))] at hroot
  have hvis : visibleVersion page' block clog (i + 1) = _ := visibleVersion_step hlp' hnormal hhdr'
  rw [hvisible] at hvis
  rw [emitAt_eq hroot hvis, takeRow, hdecode]
  rfl

/-- A version that is shown is kept. -/
theorem Version.kept_of_emitAt {f : FragmentRow}
    (h : emitAt page' block clog (takeRow page' block z desc toast) (i + 1) = .ok (some f)) : Kept clog hdr := by
  obtain ⟨lp', hdr', attrs, hlp', hnormal, hhdr', hxmin, hxmax, hmulti, hlock, honly, hhot, -⟩ :=
    hversion.placed hwf hholds
  obtain ⟨hin, hdeleter⟩ := ClogSource.tupleVisible_true hversion.visible
  obtain ⟨start, vis', hroot, hvis, -⟩ := emitAt_some h
  rw [chainRoot_normal hlp' hnormal hhdr'] at hroot
  split at hroot
  · cases hroot
  rename_i hnotonly
  obtain rfl := Option.some.inj (Except.ok.inj hroot)
  refine ⟨honly.mp (not_not.mp hnotonly), ?_⟩
  -- Only a lock could have hidden a committed deleter, and a locked version has no link on.
  rcases hdeleter with hlocked | hundeleted
  · have hnolink : hdr'.infomask2 &&& heapHotUpdated = 0 :=
      hhot.mpr (hwf.locked vis hversion.mem hdr hversion.header hlocked)
    rw [visibleVersion_step hlp' hnormal hhdr'] at hvis
    obtain ⟨visible, hvisible, hvis⟩ := bind_eq_ok.mp hvis
    cases visible with
    | true =>
      rw [ClogSource.tupleVisible_unlocked (hxmin ▸ hin) hmulti hlock, hxmax] at hvisible
      exact hvisible
    | false =>
      simp only [Bool.false_eq_true, if_false, hnolink, ne_eq, not_true_eq_false, false_and] at hvis
      cases hvis
  · exact hundeleted

end Version

end Rebuilt

/-! ## The page -/

def RawFragmentRow.plain (r : RawFragmentRow) : FragmentRow := { block := r.block, offnum := r.offnum, row := r.row }

/-- A raw slot at the offset number of every row, and unused slots elsewhere. -/
structure RawSlots (raws : List RawFragmentRow) (slots : List Slot) : Prop where
  raw : ∀ r ∈ raws, ∃ k, r.offnum = k + 1 ∧ slots[k]? = some (.raw r.raw)
  unused : ∀ (k : Nat) (slot : Slot), slots[k]? = some slot → (∀ r ∈ raws, r.offnum ≠ k + 1) → slot = .unused

/-- The visible version of every chain is kept. -/
def ChainsKept (page : Bytes) (block : Nat) (clog : ClogSource) : Prop :=
  ∀ roots, chainRoots page = .ok roots → ∀ root ∈ roots, ∀ vis hdr,
    visibleVersion page block clog root.2 = .ok (some vis) → HeaderAt page vis hdr → Kept clog hdr

theorem filterMap_range_eq {α : Type} {f g : Nat → Option α} {n m : Nat} (hboth : ∀ k, k < n → k < m → f k = g k)
    (hf : ∀ k, k < n → m ≤ k → f k = none) (hg : ∀ k, n ≤ k → k < m → g k = none) :
    (List.range n).filterMap f = (List.range m).filterMap g := by
  have hextend : ∀ {h : Nat → Option α} {a b : Nat}, a ≤ b → (∀ k, a ≤ k → k < b → h k = none) →
      (List.range b).filterMap h = (List.range a).filterMap h := by
    intro h a b hab hnone
    obtain ⟨d, rfl⟩ := Nat.exists_eq_add_of_le hab
    have htail : ((List.range d).map (a + ·)).filterMap h = [] := by
      rw [List.filterMap_map, List.filterMap_eq_nil_iff]
      intro k hk
      exact hnone _ (Nat.le_add_right a k) (Nat.add_lt_add_left (List.mem_range.mp hk) a)
    rw [List.range_add, List.filterMap_append, htail, List.append_nil]
  rcases Nat.le_total n m with hle | hle
  · rw [hextend hle hg]
    exact List.filterMap_congr fun k hk => hboth k (List.mem_range.mp hk) ((List.mem_range.mp hk).trans_le hle)
  · rw [hextend hle fun k hm hn => hf k hn hm]
    exact List.filterMap_congr fun k hk => hboth k ((List.mem_range.mp hk).trans_le hle) (List.mem_range.mp hk)

section Page

variable {page page' : Bytes} {block : Nat} {clog : ClogSource} {z : Codecs} {toast : ToastCache} {desc : TableDesc}
  {raws : List RawFragmentRow} {slots : List Slot}

theorem rawOffnum_of_emitAt {off : Nat} {r : RawFragmentRow}
    (h : emitAt page block clog (takeRaw page block z desc toast) off = .ok (some r)) : r.offnum = off := by
  obtain ⟨start, vis, -, -, htake⟩ := emitAt_some h
  obtain ⟨⟨row, attrs⟩, -, htake⟩ := bind_eq_ok.mp htake
  obtain ⟨raw, -, htake⟩ := bind_eq_ok.mp htake
  obtain rfl := Except.ok.inj htake
  rfl

/-- The version behind an emitted row. -/
theorem version_of_emitAt {off : Nat} {r : RawFragmentRow} (hwf : WellFormedPage page block)
    (hoff : off ∈ offnums page)
    (h : emitAt page block clog (takeRaw page block z desc toast) off = .ok (some r)) :
    r.block = block ∧ r.offnum = off ∧
      ∃ start vis hdr, chainRoot page off = .ok (some start) ∧
        visibleVersion page block clog start = .ok (some vis) ∧
        Version page clog z toast desc vis hdr r.row r.raw := by
  obtain ⟨start, vis, hroot, hvis, htake⟩ := emitAt_some h
  obtain ⟨⟨row, attrs⟩, hrow, htake⟩ := bind_eq_ok.mp htake
  obtain ⟨raw, hraw, htake⟩ := bind_eq_ok.mp htake
  obtain rfl := Except.ok.inj htake
  obtain ⟨hmem, hdr, hheader, hvisible⟩ := hwf.visible_mem hoff hroot hvis
  exact ⟨rfl, rfl, start, vis, hdr, hroot, hvis, hmem, hheader, hvisible, ⟨attrs, hrow⟩, hraw⟩

theorem offnum_of_emitAt {off : Nat} {f : FragmentRow}
    (h : emitAt page block clog (takeRow page block z desc toast) off = .ok (some f)) : f.offnum = off := by
  obtain ⟨start, vis, -, -, htake⟩ := emitAt_some h
  obtain ⟨⟨row, attrs⟩, -, htake⟩ := bind_eq_ok.mp htake
  obtain rfl := Except.ok.inj htake
  rfl

theorem mem_offnums {k : Nat} : k + 1 ∈ offnums page ↔ k < (fromLe ((page.drop 12).take 2) - 24) / 4 := by
  simp [offnums]

section Pages

variable {lsn : Lsn} (hwf : WellFormedPage page block) (hraw : emitPageRaw page block clog z desc toast = .ok raws)
  (hslots : RawSlots raws slots) (hbuild : buildPage desc block lsn slots = .ok page')

include hraw in
/-- The raw rows are those emitted at their offset numbers. -/
theorem mem_raws_iff {r : RawFragmentRow} :
    r ∈ raws ↔ r.offnum ∈ offnums page ∧
      emitAt page block clog (takeRaw page block z desc toast) r.offnum = .ok (some r) := by
  obtain ⟨-, -, hraws⟩ := emitPageWith_ok_iff.mp hraw
  rw [hraws, List.mem_filterMap]
  constructor
  · rintro ⟨off, hoff, hjoin⟩
    have hat := toOption_join_eq_some.mp hjoin
    obtain rfl := rawOffnum_of_emitAt hat
    exact ⟨hoff, hat⟩
  · rintro ⟨hoff, hat⟩
    exact ⟨r.offnum, hoff, toOption_join_eq_some.mpr hat⟩

include hslots hbuild in
/-- Nothing is shown where no row was emitted. -/
theorem emitAt_unused {k : Nat} (hk : k < slots.length) (hnone : ∀ r ∈ raws, r.offnum ≠ k + 1) :
    emitAt page' block clog (takeRow page' block z desc toast) (k + 1) = .ok none := by
  obtain ⟨-, -, -, hholds⟩ := buildPage_ok hbuild
  have hslot := List.getElem?_eq_getElem hk
  rw [hslots.unused k _ hslot hnone] at hslot
  exact emitAt_empty (by decide) (by decide) (by decide) (hholds k _ hslot)

include hwf hraw hslots hbuild

theorem chainsKept_of_emitPage
    (hemit : emitPage page' block clog z desc toast = .ok (raws.map RawFragmentRow.plain)) :
    ChainsKept page block clog := by
  obtain ⟨-, hall, -⟩ := emitPageWith_ok_iff.mp hraw
  obtain ⟨-, -, hrows⟩ := emitPageWith_ok_iff.mp hemit
  obtain ⟨-, -, -, hholds⟩ := buildPage_ok hbuild
  rintro roots hroots ⟨off, start⟩ hroot vis hdr hvis hheader
  obtain ⟨hoff, hchain⟩ := (mem_chainRootsOf hroots).mp hroot
  obtain ⟨r, hat⟩ : ∃ r, emitAt page block clog (takeRaw page block z desc toast) off = .ok (some r) := by
    obtain ⟨a, ha⟩ := hall off hoff
    have htake := ha
    rw [emitAt_eq hchain hvis] at htake
    cases hr : takeRaw page block z desc toast off vis with
    | error e =>
      rw [hr] at htake
      cases htake
    | ok r =>
      rw [hr] at htake
      cases htake
      exact ⟨r, ha⟩
  obtain ⟨-, hoffnum, start', vis', hdr', hchain', hvis', hversion⟩ := version_of_emitAt hwf hoff hat
  subst hoffnum
  have hr : r ∈ raws := (mem_raws_iff hraw).mpr ⟨hoff, hat⟩
  -- The version is the one asked about.
  rw [hchain] at hchain'
  obtain rfl := Option.some.inj (Except.ok.inj hchain')
  rw [show visibleVersion page block clog start = .ok (some vis) from hvis] at hvis'
  obtain rfl := Option.some.inj (Except.ok.inj hvis')
  obtain rfl := hversion.header.unique hheader
  obtain ⟨k, hk, hslot⟩ := hslots.raw r hr
  have hmem : r.plain ∈ raws.map RawFragmentRow.plain := List.mem_map_of_mem hr
  rw [hrows] at hmem
  obtain ⟨off', -, hjoin⟩ := List.mem_filterMap.mp hmem
  have hat' := toOption_join_eq_some.mp hjoin
  have hoff' : off' = k + 1 := by rw [← offnum_of_emitAt hat', ← hk]; rfl
  subst hoff'
  exact hversion.kept_of_emitAt hwf (hholds k _ hslot) hat'

/-- Where every chain is kept, an emitted row is shown in its raw slot. -/
theorem emitAt_shown (hkept : ChainsKept page block clog) {r : RawFragmentRow} (hr : r ∈ raws) :
    emitAt page' block clog (takeRow page' block z desc toast) r.offnum = .ok (some r.plain) := by
  obtain ⟨-, -, -, hholds⟩ := buildPage_ok hbuild
  obtain ⟨roots, hroots⟩ : ∃ roots, chainRoots page = .ok roots := by
    obtain ⟨_, -, h⟩ := bind_eq_ok.mp hraw
    obtain ⟨roots, hroots, -⟩ := bind_eq_ok.mp h
    exact ⟨roots, hroots⟩
  obtain ⟨hoff, hat⟩ := (mem_raws_iff hraw).mp hr
  obtain ⟨hblock, -, start, vis, hdr, hchain, hvis, hversion⟩ := version_of_emitAt hwf hoff hat
  have hkept' := hkept roots hroots _ ((mem_chainRootsOf hroots).mpr ⟨hoff, hchain⟩) vis hdr hvis hversion.header
  obtain ⟨k, hk, hslot⟩ := hslots.raw r hr
  rw [hk, hversion.emitAt_of_kept hwf (hholds k _ hslot) hkept', RawFragmentRow.plain, hblock, hk]

theorem emitPage_of_chainsKept (hkept : ChainsKept page block clog) :
    emitPage page' block clog z desc toast = .ok (raws.map RawFragmentRow.plain) := by
  obtain ⟨-, hall, hraws⟩ := emitPageWith_ok_iff.mp hraw
  obtain ⟨hlen', hfits, hlower, -⟩ := buildPage_ok hbuild
  have hshown : ∀ {k : Nat} {r : RawFragmentRow}, r ∈ raws → r.offnum = k + 1 →
      emitAt page' block clog (takeRow page' block z desc toast) (k + 1) = .ok (some r.plain) :=
    fun hr hk => hk ▸ emitAt_shown hwf hraw hslots hbuild hkept hr
  refine emitPageWith_ok_iff.mpr ⟨hlen', ?_, ?_⟩
  · intro off hoff
    rw [offnums_of_slice hlower hfits, List.mem_map] at hoff
    obtain ⟨k, hk, rfl⟩ := hoff
    by_cases hrow : ∃ r ∈ raws, r.offnum = k + 1
    · obtain ⟨r, hr, hoffnum⟩ := hrow
      exact ⟨_, hshown hr hoffnum⟩
    · exact ⟨_, emitAt_unused hslots hbuild (List.mem_range.mp hk) fun r hr heq => hrow ⟨r, hr, heq⟩⟩
  · have hleft : raws.map RawFragmentRow.plain =
        (List.range ((fromLe ((page.drop 12).take 2) - 24) / 4)).filterMap fun k =>
          (emitAt page block clog (takeRaw page block z desc toast) (k + 1)).toOption.join.map RawFragmentRow.plain := by
      rw [hraws, offnums, List.map_filterMap, List.filterMap_map]
      rfl
    rw [offnums_of_slice hlower hfits, List.filterMap_map, hleft]
    -- A line pointer of both pages, of the source alone, and of the rebuilt page alone.
    refine filterMap_range_eq (fun k hn hm => ?_) (fun k hn hm => ?_) (fun k hn hm => ?_)
    · rw [Function.comp_apply]
      cases hat : (emitAt page block clog (takeRaw page block z desc toast) (k + 1)).toOption.join with
      | some r =>
        have hat' := toOption_join_eq_some.mp hat
        have hoffnum := rawOffnum_of_emitAt hat'
        have hr : r ∈ raws := (mem_raws_iff hraw).mpr ⟨hoffnum ▸ mem_offnums.mpr hn, hoffnum ▸ hat'⟩
        rw [hshown hr hoffnum]
        rfl
      | none =>
        rw [emitAt_unused hslots hbuild hm fun r hr hoffnum => ?_]
        · rfl
        have hrow := ((mem_raws_iff hraw).mp hr).2
        rw [hoffnum, ← toOption_join_eq_some, hat] at hrow
        cases hrow
    · cases hat : (emitAt page block clog (takeRaw page block z desc toast) (k + 1)).toOption.join with
      | none => rfl
      | some r =>
        have hat' := toOption_join_eq_some.mp hat
        have hoffnum := rawOffnum_of_emitAt hat'
        have hr : r ∈ raws := (mem_raws_iff hraw).mpr ⟨hoffnum ▸ mem_offnums.mpr hn, hoffnum ▸ hat'⟩
        obtain ⟨k', hk', hslot⟩ := hslots.raw r hr
        have hlt := (List.getElem?_eq_some_iff.mp hslot).1
        omega
    · rw [Function.comp_apply, emitAt_unused hslots hbuild hm fun r hr hoffnum => ?_]
      · rfl
      have hoff := ((mem_raws_iff hraw).mp hr).1
      rw [hoffnum, mem_offnums] at hoff
      omega

/-- The rebuilt page shows the emitted rows exactly if the visible version of every chain is
no heap-only tuple and has no `xmax` that committed. -/
theorem emitPage_rebuilt :
    emitPage page' block clog z desc toast = .ok (raws.map RawFragmentRow.plain) ↔ ChainsKept page block clog :=
  ⟨chainsKept_of_emitPage hwf hraw hslots hbuild, emitPage_of_chainsKept hwf hraw hslots hbuild⟩

end Pages

end Page

/-! ## Two pages -/

/-- A page of two line pointers. The second leads to the row (42) with these ids and flags. -/
def twoPointers (item xmin xmax : Nat) (heapOnly : Bool) : Bytes :=
  List.replicate 12 0 ++ (toLe 2 32 ++ (List.replicate 10 0 ++ (toLe 4 item ++
    (toLe 4 (32 + 2 ^ 15 + 28 * 2 ^ 17) ++
      (heapHeader xmin xmax 7 2 (infomask2 1 heapOnly false) (infomask xmin xmax false false) 24 ++
        ([0, 42, 0, 0, 0] ++ List.replicate 8132 0))))))

/-- Transaction 100 committed and 101 aborted. -/
def oneCommitted : ClogSource := fun _ => .ok (List.replicate 25 0 ++ [0x09])

/-- The raw tuple of the row (42). -/
def RawTuple.fortyTwo (xmin xmax : Nat) (heapOnly : Bool) : RawTuple :=
  { attrs := [42, 0, 0, 0], nullBitmap := [], natts := 1, hasVarwidth := false, xmin, xmax, ctid := some (7, 2)
    heapOnly, hotUpdated := false }

/-- A page whose first line pointer has no tuple, and whose second has one without a link. -/
theorem wellFormed_two {page : Bytes} {block : Nat} {lp : LinePointer} {hdr : TupleHdr} {t : PageTuple}
    (hoffs : offnums page = [1, 2]) (hlp : linePointer page 1 = .ok lp) (hnormal : lp.flags ≠ lpNormal)
    (hredirect : lp.flags = lpRedirect → lp.off ∈ [1, 2]) (hnone : (tupleOnPage page 1).toOption = none)
    (ht : tupleOnPage page 2 = .ok t) (hhoff : t.hoff = maxalign (sizeofHeapTupleHeader + t.bitmapLen))
    (hhdr : HeaderAt page 2 hdr) (hlink : hdr.infomask2 &&& heapHotUpdated = 0) : WellFormedPage page block := by
  have hfirst : ∀ hdr', ¬ HeaderAt page 1 hdr' := by
    rintro hdr' ⟨lp', hlp', hflags, -⟩
    rw [hlp] at hlp'
    obtain rfl := Except.ok.inj hlp'
    exact hnormal hflags
  have hheader : ∀ offnum ∈ offnums page, ∀ hdr', HeaderAt page offnum hdr' → hdr' = hdr := by
    intro offnum hoff hdr' h
    rw [hoffs] at hoff
    simp only [List.mem_cons, List.not_mem_nil, or_false] at hoff
    rcases hoff with rfl | rfl
    · exact absurd h (hfirst hdr')
    · exact h.unique hhdr
  constructor
  · intro offnum hoff t' ht'
    rw [hoffs] at hoff
    simp only [List.mem_cons, List.not_mem_nil, or_false] at hoff
    rcases hoff with rfl | rfl
    · rw [ht'] at hnone
      cases hnone
    · rw [ht] at ht'
      obtain rfl := Except.ok.inj ht'
      exact hhoff
  · intro offnum hoff hdr' h _
    rw [hheader offnum hoff hdr' h]
    exact hlink
  · intro offnum hoff lp' hlp' hflags
    rw [hoffs] at hoff
    simp only [List.mem_cons, List.not_mem_nil, or_false] at hoff
    rcases hoff with rfl | rfl
    · rw [hlp] at hlp'
      obtain rfl := Except.ok.inj hlp'
      rw [hoffs]
      exact hredirect hflags
    · obtain ⟨lp'', hlp'', hnormal'', -⟩ := hhdr
      rw [hlp'] at hlp''
      obtain rfl := Except.ok.inj hlp''
      rw [hnormal''] at hflags
      cases hflags
  · intro offnum hoff hdr' h hhot
    rw [hheader offnum hoff hdr' h] at hhot
    exact absurd hlink hhot

/-- A dead line pointer, and a version whose deleter aborted. -/
def undeletedPage : Bytes := twoPointers (lpDead <<< 15) 100 101 false

def undeletedHdr : TupleHdr :=
  { xmin := 100, xmax := 101, infomask := 0, infomask2 := 1, ctidBlock := 7, ctidOff := 2 }

/-- A redirect to a version of its own chain. -/
def redirectPage : Bytes := twoPointers (2 ||| lpRedirect <<< 15) 2 0 true

def redirectHdr : TupleHdr :=
  { xmin := 2, xmax := 0, infomask := 0x0B00, infomask2 := 0x8001, ctidBlock := 7, ctidOff := 2 }

/-- All that is read off the page, in one evaluation of its bytes. -/
theorem undeletedPage_reads :
    (offnums undeletedPage = [1, 2] ∧ linePointer undeletedPage 1 = .ok ⟨3, 0, 0⟩ ∧
      linePointer undeletedPage 2 = .ok ⟨1, 32, 28⟩ ∧ readHeader undeletedPage 32 = .ok undeletedHdr) ∧
    ((tupleOnPage undeletedPage 1).toOption = none ∧
      tupleOnPage undeletedPage 2 = .ok ⟨[0, 42, 0, 0, 0], 1, 0, 24⟩) ∧
    emitPageRaw undeletedPage 7 oneCommitted .pglzOnly .oneInt .empty =
      .ok [{ block := 7, offnum := 2, row := [some (.i32 42)], raw := .fortyTwo 100 101 false }] ∧
    (chainRoots undeletedPage = .ok [(2, 2)] ∧ visibleVersion undeletedPage 7 oneCommitted 2 = .ok (some 2)) := by
  decide +kernel

theorem redirectPage_reads :
    (offnums redirectPage = [1, 2] ∧ linePointer redirectPage 1 = .ok ⟨2, 2, 0⟩ ∧
      linePointer redirectPage 2 = .ok ⟨1, 32, 28⟩ ∧ readHeader redirectPage 32 = .ok redirectHdr) ∧
    ((tupleOnPage redirectPage 1).toOption = none ∧
      tupleOnPage redirectPage 2 = .ok ⟨[0, 42, 0, 0, 0], 0x8001, 0x0B00, 24⟩) ∧
    emitPageRaw redirectPage 7 oneCommitted .pglzOnly .oneInt .empty =
      .ok [{ block := 7, offnum := 1, row := [some (.i32 42)], raw := .fortyTwo 2 0 true }] := by
  decide +kernel

theorem undeletedHdr_at : HeaderAt undeletedPage 2 undeletedHdr :=
  have ⟨⟨_, _, hlp, hhdr⟩, _⟩ := undeletedPage_reads
  ⟨_, hlp, rfl, hhdr⟩

theorem redirectHdr_at : HeaderAt redirectPage 2 redirectHdr :=
  have ⟨⟨_, _, hlp, hhdr⟩, _⟩ := redirectPage_reads
  ⟨_, hlp, rfl, hhdr⟩

theorem emitPage_rebuilt_undeleted :
    ∃ page, buildPage .oneInt 7 0 [.unused, .raw (.fortyTwo 100 101 false)] = .ok page ∧
      emitPage page 7 oneCommitted .pglzOnly .oneInt .empty =
        .ok [{ block := 7, offnum := 2, row := [some (.i32 42)] }] := by
  obtain ⟨⟨hoffs, hlp, -, -⟩, ⟨hnone, ht⟩, hraw, hchain, hversion⟩ := undeletedPage_reads
  have hwf : WellFormedPage undeletedPage 7 :=
    wellFormed_two hoffs hlp (by decide) (by decide) hnone ht (by decide) undeletedHdr_at (by decide)
  have hslots : RawSlots [{ block := 7, offnum := 2, row := [some (.i32 42)], raw := .fortyTwo 100 101 false }]
      [.unused, .raw (.fortyTwo 100 101 false)] := by
    constructor
    · intro r hr
      obtain rfl := List.mem_singleton.mp hr
      exact ⟨1, rfl, rfl⟩
    · intro k slot hk hnone
      rcases k with _ | _ | k
      · exact (Option.some.inj hk).symm
      · exact absurd rfl (hnone _ (List.mem_singleton.mpr rfl))
      · cases hk
  have hkept : ChainsKept undeletedPage 7 oneCommitted := by
    intro roots hroots root hroot vis hdr hvis hhdr
    rw [hchain] at hroots
    obtain rfl := Except.ok.inj hroots
    obtain rfl := List.mem_singleton.mp hroot
    rw [hversion] at hvis
    obtain rfl := Option.some.inj (Except.ok.inj hvis)
    rw [hhdr.unique undeletedHdr_at]
    exact ⟨by decide, .inr ⟨.aborted, by decide +kernel, by decide⟩⟩
  have hbuilt : (buildPage .oneInt 7 0 [.unused, .raw (.fortyTwo 100 101 false)]).toOption.isSome = true := by
    decide +kernel
  cases hpage : buildPage .oneInt 7 0 [.unused, .raw (.fortyTwo 100 101 false)] with
  | error e =>
    rw [hpage] at hbuilt
    cases hbuilt
  | ok page => exact ⟨page, rfl, (emitPage_rebuilt hwf hraw hslots hpage).mpr hkept⟩

/-- The visible version behind a redirect is gone from the rebuilt page. -/
theorem emitPage_rebuilt_redirect :
    WellFormedPage redirectPage 7 ∧
      emitPageRaw redirectPage 7 oneCommitted .pglzOnly .oneInt .empty =
        .ok [{ block := 7, offnum := 1, row := [some (.i32 42)], raw := .fortyTwo 2 0 true }] ∧
      RawSlots [{ block := 7, offnum := 1, row := [some (.i32 42)], raw := .fortyTwo 2 0 true }]
        [.raw (.fortyTwo 2 0 true)] ∧
      ∃ page, buildPage .oneInt 7 0 [.raw (.fortyTwo 2 0 true)] = .ok page ∧
        emitPage page 7 oneCommitted .pglzOnly .oneInt .empty = .ok [] := by
  obtain ⟨⟨hoffs, hlp, -, -⟩, ⟨hnone, ht⟩, hraw⟩ := redirectPage_reads
  refine ⟨?_, hraw, ?_, bind_eq_ok.mp (by decide +kernel)⟩
  · exact wellFormed_two hoffs hlp (by decide) (by decide) hnone ht (by decide) redirectHdr_at (by decide)
  · constructor
    · intro r hr
      obtain rfl := List.mem_singleton.mp hr
      exact ⟨0, rfl, rfl⟩
    · intro k slot hk hnone
      rcases k with _ | k
      · exact absurd rfl (hnone _ (List.mem_singleton.mpr rfl))
      · cases hk

end Ltap
