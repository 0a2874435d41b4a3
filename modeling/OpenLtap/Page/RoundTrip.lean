-- SUMMARY: Rows placed on a page are emitted from it at their own offset numbers.
import OpenLtap.Page.Fragment
import OpenLtap.Wal.Reencode

/-!
# From rows to a page and back

A page built of frozen rows, unused and dead line pointers is emitted as these rows, in
order, each at its own offset number. No commit log is asked.
-/

namespace Ltap

/-! ## Infomasks -/

theorem infomask_bits (xmin xmax : Xid) (hasNulls hasVarwidth : Bool) :
    infomask xmin xmax hasNulls hasVarwidth < 2 ^ 16 ∧
      decide (infomask xmin xmax hasNulls hasVarwidth &&& heapHasNull ≠ 0) = hasNulls ∧
      infomask xmin xmax hasNulls hasVarwidth &&& heapXmaxIsMulti = 0 ∧
      infomask xmin xmax hasNulls hasVarwidth &&& heapXmaxLockOnly = 0 := by
  unfold infomask
  by_cases hmax : xmax = 0 <;> by_cases hmin : xmin = frozenXid <;> cases hasNulls <;> cases hasVarwidth <;>
    simp only [hmax, hmin, if_true, if_false, Bool.false_eq_true] <;> decide

theorem infomask2_bits (natts : Nat) (heapOnly hotUpdated : Bool) :
    infomask2 natts heapOnly hotUpdated < 2 ^ 16 ∧
      infomask2 natts heapOnly hotUpdated &&& heapNattsMask = natts &&& heapNattsMask ∧
      decide (infomask2 natts heapOnly hotUpdated &&& heapOnlyTuple ≠ 0) = heapOnly ∧
      decide (infomask2 natts heapOnly hotUpdated &&& heapHotUpdated ≠ 0) = hotUpdated := by
  have hlt : natts &&& heapNattsMask < 2 ^ 16 :=
    Nat.lt_of_le_of_lt Nat.and_le_right (by decide)
  have hmask : ∀ m, heapNattsMask &&& m = 0 → natts &&& heapNattsMask &&& m = 0 := by
    intro m hm
    rw [Nat.and_assoc, hm, Nat.and_zero]
  refine ⟨?_, ?_, ?_, ?_⟩
  · refine Nat.or_lt_two_pow (Nat.or_lt_two_pow hlt ?_) ?_
    · cases heapOnly <;> decide
    · cases hotUpdated <;> decide
  · rw [infomask2, Nat.and_or_distrib_right, Nat.and_or_distrib_right, Nat.and_assoc, Nat.and_self]
    cases heapOnly <;> cases hotUpdated <;> simp [heapOnlyTuple, heapHotUpdated, heapNattsMask]
  · rw [infomask2, Nat.and_or_distrib_right, Nat.and_or_distrib_right, hmask _ (by decide)]
    cases heapOnly <;> cases hotUpdated <;> decide
  · rw [infomask2, Nat.and_or_distrib_right, Nat.and_or_distrib_right, hmask _ (by decide)]
    cases heapOnly <;> cases hotUpdated <;> decide

/-! ## The null bitmap -/

/-- A bit of a bitmap. -/
def bitAt (bits : Bytes) (i : Nat) : Option Bool := (bits[i / 8]?).map fun b => b.toNat.testBit (i % 8)

theorem setBit_ok {bits bits' : Bytes} {i : Nat} (h : setBit bits i = .ok bits') :
    bits'.length = bits.length ∧ ∀ j, bitAt bits' j = if j = i then some true else bitAt bits j := by
  unfold setBit at h
  split at h
  · cases h
  rename_i b hb
  obtain rfl := Except.ok.inj h
  refine ⟨List.length_set, fun j => ?_⟩
  have hlt : i / 8 < bits.length := (List.getElem?_eq_some_iff.mp hb).1
  have hbit : (UInt8.ofNat (1 <<< (i % 8))).toNat = 2 ^ (i % 8) := by
    rw [UInt8.toNat_ofNat', Nat.one_shiftLeft, Nat.mod_eq_of_lt]
    exact Nat.pow_lt_pow_right (by decide) (Nat.mod_lt _ (by decide))
  unfold bitAt
  by_cases hbyte : j / 8 = i / 8
  · rw [hbyte, List.getElem?_set_self hlt, hb]
    simp only [Option.map_some, UInt8.toNat_or, hbit, Nat.testBit_or, Nat.testBit_two_pow]
    by_cases hj : j = i
    · rw [if_pos hj, hj, decide_eq_true rfl, Bool.or_true]
    · rw [if_neg hj, decide_eq_false (by omega), Bool.or_false]
  · rw [List.getElem?_set_ne (Ne.symm hbyte), if_neg (by rintro rfl; exact hbyte rfl)]

/-- The bits of the attributes from `i` on, and that no others change. -/
theorem nullBits_ok {row : Row} {phys : List PhysCol} {i liveI : Nat} {bits bits' : Bytes}
    (h : nullBits row i liveI phys bits = .ok bits') :
    bits'.length = bits.length ∧ (∀ j < i, bitAt bits' j = bitAt bits j) ∧
      ∀ (k : Nat) (null : Bool), (nullFlags row liveI phys)[k]? = some null →
        bitAt bits' (i + k) = if null then bitAt bits (i + k) else some true := by
  induction phys generalizing i liveI bits with
  | nil =>
    obtain rfl := Except.ok.inj h
    exact ⟨rfl, fun _ _ => rfl, fun k null hk => by cases hk⟩
  | cons pc rest ih =>
    -- The bit of one attribute is settled, and the others are left alone.
    have hstep : ∀ {bits₁ : Bytes} {liveI' : Nat} (flag : Bool),
        nullBits row (i + 1) liveI' rest bits₁ = .ok bits' → bits₁.length = bits.length →
        (∀ j, j ≠ i → bitAt bits₁ j = bitAt bits j) → bitAt bits₁ i = (if flag then bitAt bits i else some true) →
        nullFlags row liveI (pc :: rest) = flag :: nullFlags row liveI' rest →
        bits'.length = bits.length ∧ (∀ j < i, bitAt bits' j = bitAt bits j) ∧
          ∀ (k : Nat) (null : Bool), (nullFlags row liveI (pc :: rest))[k]? = some null →
            bitAt bits' (i + k) = if null then bitAt bits (i + k) else some true := by
      intro bits₁ liveI' flag hrest hlen hother hbit hflags
      obtain ⟨hlen', hbefore, hafter⟩ := ih hrest
      refine ⟨hlen'.trans hlen, fun j hj => ?_, fun k null hk => ?_⟩
      · rw [hbefore j (by omega), hother j (by omega)]
      · rw [hflags] at hk
        cases k with
        | zero =>
          obtain rfl := Option.some.inj hk
          rw [Nat.add_zero, hbefore i (by omega), hbit]
        | succ k =>
          have hk' := hafter k null hk
          rw [hother _ (by omega)] at hk'
          rwa [Nat.add_right_comm] at hk'
    cases pc with
    | dropped attlen align =>
      exact hstep true h rfl (fun _ _ => rfl) rfl rfl
    | live col =>
      rw [nullBits] at h
      split at h
      · cases h
      · rename_i hnone
        exact hstep true h rfl (fun _ _ => rfl) rfl (by simp [nullFlags, hnone])
      · rename_i v hsome
        obtain ⟨bits₁, hset, h⟩ := bind_eq_ok.mp h
        obtain ⟨hlen, hbits⟩ := setBit_ok hset
        refine hstep false h hlen (fun j hj => ?_) ?_ (by simp [nullFlags, hsome])
        · rw [hbits, if_neg hj]
        · rw [hbits, if_pos rfl]
          rfl

/-- The attribute loop reads a null by its bit. -/
theorem isNull_of_bitAt {t : TupleBody} {i : Nat} {set : Bool} (hnulls : t.hasNulls = true)
    (h : bitAt t.bitmap i = some set) : t.isNull i = .ok (!set) := by
  obtain ⟨b, hb, rfl⟩ := Option.map_eq_some_iff.mp h
  rw [TupleBody.isNull, if_pos hnulls, hb]
  simp only [Nat.one_shiftLeft, Nat.and_two_pow]
  cases b.toNat.testBit (i % 8) <;> simp

@[simp] theorem nullFlags_length (row : Row) (liveI : Nat) (phys : List PhysCol) :
    (nullFlags row liveI phys).length = phys.length := by
  induction phys generalizing liveI with
  | nil => rfl
  | cons pc rest ih => cases pc <;> rw [nullFlags, List.length_cons, List.length_cons, ih]

/-- Without dropped columns and null values, nothing is null. -/
theorem nullFlags_eq_false {row : Row} {phys : List PhysCol} {liveI : Nat}
    (hdropped : phys.any PhysCol.isDropped = false) (hrow : row.any Option.isNone = false)
    (hlen : row.length = liveI + (phys.filterMap PhysCol.live?).length) {k : Nat} {null : Bool}
    (hk : (nullFlags row liveI phys)[k]? = some null) : null = false := by
  induction phys generalizing liveI k with
  | nil => cases hk
  | cons pc rest ih =>
    rw [List.any_cons, Bool.or_eq_false_iff] at hdropped
    cases pc with
    | dropped attlen align => cases hdropped.1
    | live col =>
      rw [List.filterMap_cons_some (by rfl), List.length_cons] at hlen
      cases k with
      | zero =>
        have hlt : liveI < row.length := by omega
        have hsome : row[liveI].isNone = false :=
          Bool.eq_false_of_not_eq_true (List.any_eq_false.mp hrow row[liveI] (List.getElem_mem hlt))
        obtain rfl := Option.some.inj hk
        rw [List.getElem?_eq_getElem hlt]
        exact hsome
      | succ k => exact ih hdropped.2 (by omega) hk

theorem bitAt_zeros {n i : Nat} (h : i / 8 < n) : bitAt (List.replicate n 0) i = some false := by
  rw [bitAt, List.getElem?_replicate_of_lt h]
  simp

/-- The attribute loop reads the nulls of the row from its bitmap. -/
theorem nullBitmap_isNull {row : Row} {phys : List PhysCol} {bits : Bytes} {n : Nat} {t : TupleBody}
    (hlen : row.length = (phys.filterMap PhysCol.live?).length)
    (hnulls : t.hasNulls = (phys.any PhysCol.isDropped || row.any Option.isNone))
    (hroom : t.hasNulls = true → (phys.length + 7) / 8 ≤ n)
    (h : nullBitmap row phys t.hasNulls (List.replicate n 0) = .ok bits) (hbits : t.bitmap = bits) :
    bits.length = n ∧ ∀ (k : Nat) (null : Bool), (nullFlags row 0 phys)[k]? = some null → t.isNull k = .ok null := by
  cases hhas : t.hasNulls with
  | false =>
    rw [hhas] at h hnulls
    obtain rfl := Except.ok.inj h
    obtain ⟨hdropped, hrow⟩ := Bool.or_eq_false_iff.mp hnulls.symm
    refine ⟨List.length_replicate, fun k null hk => ?_⟩
    rw [nullFlags_eq_false hdropped hrow (by omega) hk, TupleBody.isNull, hhas]
    rfl
  | true =>
    rw [hhas] at h
    obtain ⟨hlength, -, hbit⟩ := nullBits_ok h
    refine ⟨hlength.trans List.length_replicate, fun k null hk => ?_⟩
    have hk' : k < phys.length := by
      have hlt := (List.getElem?_eq_some_iff.mp hk).1
      rwa [nullFlags_length] at hlt
    have hset := hbit k null hk
    rw [Nat.zero_add, bitAt_zeros (by have := hroom hhas; omega)] at hset
    have hset' : bitAt bits k = some (!null) := by
      rw [hset]
      cases null <;> rfl
    rw [← hbits] at hset'
    rw [isNull_of_bitAt hhas hset', Bool.not_not]

/-! ## Tuples -/

theorem heapHeader_append (t : HeapTuple) (xmin xmax cblk coff : Nat) :
    heapHeader xmin xmax cblk coff t.infomask2 t.infomask t.hoff ++ t.payload =
      t.pageData (tupleHead xmin xmax cblk coff) := by
  simp only [heapHeader, HeapTuple.pageData, List.append_assoc]

theorem maxalign_header {n : Nat} (h : n ≤ 200) :
    sizeofHeapTupleHeader + n ≤ maxalign (sizeofHeapTupleHeader + n) ∧
      maxalign (sizeofHeapTupleHeader + n) < 2 ^ 8 := by
  unfold sizeofHeapTupleHeader maxalign
  omega

/-- A tuple that is encoded decodes to its row. -/
theorem encodeTuple_ok {desc : TableDesc} {block offnum : Nat} {spec : TupleSpec} {tup : Bytes}
    (hcols : desc.cols = desc.phys.filterMap PhysCol.live?) (hphys : desc.phys.length ≤ 1600)
    (hdecoded : DecodedFrom spec.row 0 desc.cols) (h : encodeTuple desc block offnum spec = .ok tup) :
    ∃ (t : HeapTuple) (cblk coff : Nat), tup = t.pageData (tupleHead spec.xmin spec.xmax cblk coff) ∧
      t.infomask2 = infomask2 desc.phys.length spec.heapOnly spec.hotUpdated ∧
      ∀ z toast, ∃ attrs, t.decode z desc toast = .ok (spec.row, attrs) := by
  unfold encodeTuple at h
  dsimp only at h
  split at h
  · cases h
  rename_i hrow
  rw [ne_eq, not_not] at hrow
  obtain ⟨attrs, hattrs, h⟩ := bind_eq_ok.mp h
  cases attrs with
  | none => cases h
  | some attrs =>
    obtain ⟨bits, hbits, h⟩ := bind_eq_ok.mp h
    obtain rfl := Except.ok.inj h
    generalize hnulls : (desc.phys.any PhysCol.isDropped || spec.row.any Option.isNone) = hasNulls at *
    generalize hbitmap : (if hasNulls = true then (desc.phys.length + 7) / 8 else 0) = bitmapLen at *
    generalize hvar : ((desc.cols.zip spec.row).any _) = hasVarwidth at *
    have hlen : bitmapLen ≤ 200 ∧ (hasNulls = true → bitmapLen = (desc.phys.length + 7) / 8) := by
      cases hasNulls with
      | false => simp [← hbitmap]
      | true =>
        rw [if_pos rfl] at hbitmap
        exact ⟨by omega, fun _ => hbitmap.symm⟩
    obtain ⟨hroom, hbyte⟩ := maxalign_header hlen.1
    generalize maxalign (sizeofHeapTupleHeader + bitmapLen) = tHoff at *
    obtain ⟨hmask, hhas, -, -⟩ := infomask_bits spec.xmin spec.xmax hasNulls hasVarwidth
    obtain ⟨hmask2, hnatts, -, -⟩ := infomask2_bits desc.phys.length spec.heapOnly spec.hotUpdated
    have hnatts' : infomask2 desc.phys.length spec.heapOnly spec.hotUpdated &&& 0x07FF = desc.phys.length := by
      rw [heapNattsMask] at hnatts
      rw [hnatts]
      exact Nat.and_two_pow_sub_one_of_lt_two_pow (n := 11) (by omega)
    let t : HeapTuple := {
      infomask2 := infomask2 desc.phys.length spec.heapOnly spec.hotUpdated
      infomask := infomask spec.xmin spec.xmax hasNulls hasVarwidth
      hoff := tHoff, payload := bits ++ attrs
      infomask2_lt := hmask2, infomask_lt := hmask, hoff_lt := hbyte }
    refine ⟨t, _, _, heapHeader_append t _ _ _ _, rfl, fun z toast => ?_⟩
    let body : TupleBody := {
      data := attrs, bitmap := bits, hasNulls, natts := desc.phys.length, oldRow := none }
    have hrowlen : spec.row.length = (desc.phys.filterMap PhysCol.live?).length := by rw [hrow, hcols]
    obtain ⟨hbitslen, hisNull⟩ := nullBitmap_isNull (t := body) (n := tHoff - sizeofHeapTupleHeader) hrowlen
      hnulls.symm (fun hset => by rw [← hlen.2 hset]; omega) hbits rfl
    have hdecode : decodeAttrs z toast body 0 0 0 desc.phys = .ok spec.row := by
      rw [hcols] at hdecoded
      rw [encodeAttrs, hcols] at hattrs
      exact decodeAttrs_encodeCols hdecoded hattrs (by omega) (Nat.le_of_eq (Nat.zero_add _)) fun k b hk => by
        rw [Nat.zero_add]
        exact hisNull k b hk
    have hdrop : (bits ++ attrs).drop (tHoff - sizeofHeapTupleHeader) = attrs := List.drop_left' hbitslen
    have htake : (bits ++ attrs).take (tHoff - sizeofHeapTupleHeader) = bits := List.take_left' hbitslen
    refine ⟨_, (HeapTuple.decodeTuplePayload_ok_iff z desc toast).mpr
      ⟨Nat.le_of_eq hnatts', by simp only [t]; omega, ?_, rfl, ?_⟩⟩
    · simp only [t, List.length_append]
      omega
    · simp only [t, hdrop, htake, hhas, hnatts']
      exact hdecode

/-! ## Pages -/

/-- A slot without a tuple, or with a frozen one whose row is in decoded form. -/
inductive Slot.Settled (desc : TableDesc) : Slot → Prop where
  | unused : Settled desc .unused
  | dead : Settled desc .dead
  | live {row : Row} : DecodedFrom row 0 desc.cols → Settled desc (.live row)

def Slot.row? : Slot → Option Row
  | .tuple spec => some spec.row
  | _ => none

/-- The rows of the slots from index `i` on, each at the offset number of its slot. -/
def liveRows (block : Nat) : Nat → List Slot → List FragmentRow
  | _, [] => []
  | i, slot :: rest =>
    match slot.row? with
    | none => liveRows block (i + 1) rest
    | some row => { block, offnum := i + 1, row } :: liveRows block (i + 1) rest

theorem liveRows_eq_filterMap {block i : Nat} {slots : List Slot} {f : Nat → Option FragmentRow}
    (h : ∀ (k : Nat) (slot : Slot), slots[k]? = some slot →
      f (i + k) = slot.row?.map fun row => { block, offnum := i + k + 1, row }) :
    (List.range' i slots.length).filterMap f = liveRows block i slots := by
  induction slots generalizing i with
  | nil => rfl
  | cons slot rest ih =>
    have hrest := ih (i := i + 1) fun k s hk => by
      rw [Nat.add_right_comm]
      exact h (k + 1) s hk
    have hfirst := h 0 slot rfl
    rw [Nat.add_zero] at hfirst
    rw [List.length_cons, List.range'_succ, liveRows]
    cases hrow : slot.row? with
    | none =>
      rw [hrow] at hfirst
      rw [List.filterMap_cons_none hfirst, hrest]
    | some row =>
      rw [hrow] at hfirst
      rw [List.filterMap_cons_some hfirst, hrest]

section Emitted

variable {desc : TableDesc} {block i : Nat} {page : Bytes} {clog : ClogSource}

theorem emitAt_empty {α : Type} {take : Nat → Nat → Except Fault α} {flags : Nat} (hflags : flags < 4)
    (hredirect : flags ≠ lpRedirect) (hnormal : flags ≠ lpNormal) (h : itemAt page i = some (toLe 4 (flags <<< 15))) :
    emitAt page block clog take (i + 1) = .ok none := by
  rw [Nat.shiftLeft_eq] at h
  have hlp : linePointer page (i + 1) = .ok { flags, off := 0, len := 0 } :=
    linePointer_item (by decide) hflags (by decide) (h.trans (by simp))
  rw [emitAt, chainRoot_empty hlp hredirect hnormal]
  rfl

/-- A settled slot contributes its row. -/
theorem emitAt_settled (z : Codecs) (toast : ToastCache) (hcols : desc.cols = desc.phys.filterMap PhysCol.live?)
    (hphys : desc.phys.length ≤ 1600) {slot : Slot} (hsettled : slot.Settled desc)
    (h : slot.Holds desc block page i) :
    emitAt page block clog (takeRow page block z desc toast) (i + 1) =
      .ok (slot.row?.map fun row => { block, offnum := i + 1, row }) := by
  cases hsettled with
  | unused => exact emitAt_empty (by decide) (by decide) (by decide) h
  | dead => exact emitAt_empty (by decide) (by decide) (by decide) h
  | @live row hdecoded =>
    obtain ⟨tup, hencode, htup⟩ := h
    obtain ⟨t, cblk, coff, rfl, hmask2, hdecode⟩ := encodeTuple_ok hcols hphys hdecoded hencode
    obtain ⟨attrs, hrow⟩ := hdecode z toast
    obtain ⟨lp, hdr, hlp, hnormal, hhdr, hxmin, hxmax, -, hinfo2, ⟨honpage⟩⟩ :=
      htup.read (show frozenXid < 2 ^ 32 by decide) (show 0 < 2 ^ 32 by decide)
    have hnotonly : ¬ hdr.infomask2 &&& heapOnlyTuple ≠ 0 := by
      rw [hinfo2, hmask2]
      exact of_decide_eq_false (infomask2_bits desc.phys.length false false).2.2.1
    have hvisible : clog.tupleVisible hdr.xmin hdr.xmax hdr.infomask = .ok true := by
      rw [hxmin, hxmax]
      exact ClogSource.tupleVisible_frozen hdr.infomask
    have hroot := chainRoot_normal hlp hnormal hhdr
    rw [if_neg hnotonly] at hroot
    have hversion : visibleVersion page block clog (i + 1) = _ := visibleVersion_step hlp hnormal hhdr
    rw [hvisible] at hversion
    simp only [emitAt, hroot, hversion, takeRow, bind, Except.bind, if_true, pure, Except.pure,
      HeapTuple.decodeTupleFromPage_onPage z desc toast honpage, hrow, Slot.row?, Slot.live, Option.map_some]

end Emitted

theorem emitPage_buildPage {desc : TableDesc} {block : Nat} {lsn : Lsn} {slots : List Slot} {page : Bytes}
    (hcols : desc.cols = desc.phys.filterMap PhysCol.live?) (hphys : desc.phys.length ≤ 1600)
    (hslots : ∀ slot ∈ slots, slot.Settled desc) (h : buildPage desc block lsn slots = .ok page)
    (z : Codecs) (toast : ToastCache) (clog : ClogSource) :
    emitPage page block clog z desc toast = .ok (liveRows block 0 slots) := by
  obtain ⟨hlen, hfits, hlower, hholds⟩ := buildPage_ok h
  have hat : ∀ (k : Nat) (slot : Slot), slots[k]? = some slot →
      emitAt page block clog (takeRow page block z desc toast) (k + 1) =
        .ok (slot.row?.map fun row => { block, offnum := k + 1, row }) :=
    fun k slot hk => emitAt_settled z toast hcols hphys (hslots slot (List.mem_of_getElem? hk)) (hholds k slot hk)
  rw [emitPage, emitPageWith_ok_iff, offnums_of_slice hlower hfits]
  refine ⟨hlen, fun off hoff => ?_, ?_⟩
  · obtain ⟨k, hk, rfl⟩ := List.mem_map.mp hoff
    have hk := List.getElem?_eq_getElem (List.mem_range.mp hk)
    exact ⟨_, hat k _ hk⟩
  · rw [List.filterMap_map, List.range_eq_range']
    refine (liveRows_eq_filterMap fun k slot hk => ?_).symm
    rw [Nat.zero_add, Function.comp_apply, hat k slot hk]
    rfl

/-- A table of an integer, a dropped column, and a numeric. -/
def TableDesc.withDropped : TableDesc :=
  { name := "t", oid := 1, dbOid := 1, relNode := 1, toastRelNode := none
    cols := [⟨"id", .int4⟩, ⟨"amount", .numeric⟩]
    phys := [.live ⟨"id", .int4⟩, .dropped 4 4, .live ⟨"amount", .numeric⟩]
    hasFastDefaults := false, pk := ["id"] }

theorem emitPage_buildPage_sample :
    ∃ page, buildPage .withDropped 7 0
        [.live [some (.i32 5), some (.text "1.50")], .unused, .dead, .live [some (.i32 (-6)), none]] = .ok page ∧
      emitPage page 7 (fun _ => bail "no commit log") .pglzOnly .withDropped .empty = .ok [
        { block := 7, offnum := 1, row := [some (.i32 5), some (.text "1.50")] },
        { block := 7, offnum := 4, row := [some (.i32 (-6)), none] }] := by
  have hprinted : numericToString (toLe 2 2 ++ (toLe 2 0 ++ (toLe 2 1 ++ toLe 2 5000))) = .ok "1.50" := by
    decide +kernel
  have hpositive : ¬ IsNegZero "1.50" := by
    rintro ⟨scale, h⟩
    have hfirst := congrArg (fun s => s.toList.head?) h
    simp [Decimal.decimalText_toList] at hfirst
  have hfirst : DecodedFrom [some (.i32 5), some (.text "1.50")] 0 TableDesc.withDropped.cols := by
    intro k col v hcol hv
    rcases k with _ | _ | k
    · obtain rfl := Option.some.inj hcol
      obtain rfl := Option.some.inj (Option.some.inj hv)
      exact ⟨by decide, by decide⟩
    · obtain rfl := Option.some.inj hcol
      obtain rfl := Option.some.inj (Option.some.inj hv)
      exact ⟨⟨_, hprinted⟩, hpositive⟩
    · cases hcol
  have hlast : DecodedFrom [some (.i32 (-6)), none] 0 TableDesc.withDropped.cols := by
    intro k col v hcol hv
    rcases k with _ | _ | k
    · obtain rfl := Option.some.inj hcol
      obtain rfl := Option.some.inj (Option.some.inj hv)
      exact ⟨by decide, by decide⟩
    · cases Option.some.inj hv
    · cases hcol
  have hslots : ∀ slot ∈ [Slot.live [some (.i32 5), some (.text "1.50")], .unused, .dead,
      .live [some (.i32 (-6)), none]], slot.Settled .withDropped := by
    simp only [List.forall_mem_cons, List.not_mem_nil, false_imp_iff, implies_true, and_true]
    exact ⟨.live hfirst, .unused, .dead, .live hlast⟩
  have hbuilt : (buildPage .withDropped 7 0 [.live [some (.i32 5), some (.text "1.50")], .unused, .dead,
      .live [some (.i32 (-6)), none]]).toOption.isSome = true := by
    decide +kernel
  cases hpage : buildPage .withDropped 7 0 [.live [some (.i32 5), some (.text "1.50")], .unused, .dead,
      .live [some (.i32 (-6)), none]] with
  | error e =>
    rw [hpage] at hbuilt
    cases hbuilt
  | ok page =>
    exact ⟨page, rfl, emitPage_buildPage rfl (by decide) hslots hpage .pglzOnly .empty _⟩

end Ltap
