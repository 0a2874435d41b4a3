-- SUMMARY: Rebuilding a heap page from rows or raw tuples (`reconstruct.rs`), and what the page then holds.
import OpenLtap.Base.Splice
import OpenLtap.Page.Clog
import OpenLtap.Wal.Datum
import OpenLtap.Wal.Encode

/-!
# Page rebuild

`build_page` lays out line pointers behind the page header and packs tuples downwards from
the end of the page. A slot holds a row that is encoded again, a raw tuple whose bytes are
placed as they are, or no tuple.
-/

namespace Ltap

open Splice

def pageSize : Nat := 8192
def pageHeaderSize : Nat := 24
def itemIdSize : Nat := 4
def pdLayoutVersion : Nat := 4

def heapHasVarwidth : Nat := 0x0002
def heapXmaxInvalid : Nat := 0x0800
def heapXminFrozen : Nat := 0x0300
def heapNattsMask : Nat := 0x07FF
def heapHotUpdated : Nat := 0x4000
def heapOnlyTuple : Nat := 0x8000

def lpUnused : Nat := 0
def lpNormal : Nat := 1
def lpRedirect : Nat := 2
def lpDead : Nat := 3

/-! ## Line pointers -/

structure LinePointer where
  flags : Nat
  off : Nat
  len : Nat
  deriving DecidableEq, Repr

def linePointer (page : Bytes) (offnum : Nat) : Except Fault LinePointer :=
  if offnum = 0 then bail "invalid offnum 0"
  else
    match slice page (pageHeaderSize + (offnum - 1) * itemIdSize) 4 with
    | none => bail s!"offnum {offnum} beyond pd_lower"
    | some raw =>
      let itemid := fromLe raw
      .ok { off := itemid &&& 0x7FFF, flags := (itemid >>> 15) &&& 0x3, len := itemid >>> 17 }

/-! ## Slots -/

/-- A tuple to place. Without a ctid it points at itself. -/
structure TupleSpec where
  row : Row
  xmin : Xid
  xmax : Xid
  ctid : Option Ctid
  heapOnly : Bool
  hotUpdated : Bool

def TupleSpec.frozen (row : Row) : TupleSpec :=
  { row, xmin := frozenXid, xmax := 0, ctid := none, heapOnly := false, hotUpdated := false }

/-- A tuple whose attribute bytes and null bitmap are placed as they are. -/
structure RawTuple where
  attrs : Bytes
  /-- Empty without nulls. -/
  nullBitmap : Bytes
  natts : Nat
  hasVarwidth : Bool
  xmin : Xid
  xmax : Xid
  ctid : Option Ctid
  heapOnly : Bool
  hotUpdated : Bool
  deriving DecidableEq, Repr

def RawTuple.fromPage (page : Bytes) (offnum : Nat) : Except Fault RawTuple := do
  let lp ← linePointer page offnum
  if lp.flags ≠ 1 then bail s!"offnum {offnum} is not LP_NORMAL"
  else
    match slice page lp.off lp.len with
    | none => bail s!"tuple {offnum} beyond page"
    | some tup =>
      if tup.length < sizeofHeapTupleHeader then bail s!"tuple {offnum} shorter than its header"
      else
        let biHi := fromLe ((tup.drop 12).take 2)
        let biLo := fromLe ((tup.drop 14).take 2)
        let ctidOff := fromLe ((tup.drop 16).take 2)
        let tInfomask2 := fromLe ((tup.drop 18).take 2)
        let tInfomask := fromLe ((tup.drop 20).take 2)
        let tHoff := (tup.getD 22 0).toNat
        let natts := tInfomask2 &&& heapNattsMask
        let bitmapLen := if tInfomask &&& heapHasNull ≠ 0 then (natts + 7) / 8 else 0
        match slice tup sizeofHeapTupleHeader bitmapLen with
        | none => bail s!"tuple {offnum} shorter than its null bitmap"
        | some nullBitmap =>
          if tup.length < tHoff then bail "t_hoff past tuple end"
          else return {
            attrs := tup.drop tHoff, nullBitmap, natts
            hasVarwidth := tInfomask &&& heapHasVarwidth ≠ 0
            xmin := fromLe (tup.take 4), xmax := fromLe ((tup.drop 4).take 4)
            ctid := some (biHi <<< 16 ||| biLo, ctidOff)
            heapOnly := tInfomask2 &&& heapOnlyTuple ≠ 0
            hotUpdated := tInfomask2 &&& heapHotUpdated ≠ 0 }

/-- A line pointer to be; the slot at index `i` is offset number `i + 1`. -/
inductive Slot where
  | tuple (spec : TupleSpec)
  | raw (rt : RawTuple)
  | unused
  | dead
  | redirect (target : Nat)

def Slot.live (row : Row) : Slot := .tuple (.frozen row)

/-! ## Tuples -/

/-- `t_infomask` of a rebuilt tuple. No other bits are set. -/
def infomask (xmin xmax : Xid) (hasNulls hasVarwidth : Bool) : Nat :=
  (if xmax = 0 then heapXmaxInvalid else 0) ||| (if xmin = frozenXid then heapXminFrozen else 0) |||
    (if hasNulls then heapHasNull else 0) ||| (if hasVarwidth then heapHasVarwidth else 0)

/-- `t_infomask2` of a rebuilt tuple. -/
def infomask2 (natts : Nat) (heapOnly hotUpdated : Bool) : Nat :=
  (natts &&& heapNattsMask) ||| (if heapOnly then heapOnlyTuple else 0) |||
    (if hotUpdated then heapHotUpdated else 0)

/-- The fixed header up to the infomasks. The command id stays zero. -/
def tupleHead (xmin xmax ctidBlock ctidOff : Nat) : Bytes :=
  toLe 4 xmin ++ (toLe 4 xmax ++ (List.replicate 4 (0 : UInt8) ++
    (toLe 2 (ctidBlock >>> 16) ++ (toLe 2 (ctidBlock &&& 0xFFFF) ++ toLe 2 ctidOff))))

/-- The fixed header. -/
def heapHeader (xmin xmax ctidBlock ctidOff tInfomask2 tInfomask tHoff : Nat) : Bytes :=
  tupleHead xmin xmax ctidBlock ctidOff ++ (toLe 2 tInfomask2 ++ (toLe 2 tInfomask ++ toLe 1 tHoff))

/-- Set a bit of the null bitmap. -/
def setBit (bits : Bytes) (i : Nat) : Except Fault Bytes :=
  match bits[i / 8]? with
  | none => .error .panic
  | some b => .ok (bits.set (i / 8) (b ||| UInt8.ofNat (1 <<< (i % 8))))

/-- The bits of the columns from index `i` on: set where a live column has a value. A row
without a value for a live column is an index out of range. -/
def nullBits (row : Row) : Nat → Nat → List PhysCol → Bytes → Except Fault Bytes
  | _, _, [], bits => .ok bits
  | i, liveI, .dropped _ _ :: rest, bits => nullBits row (i + 1) liveI rest bits
  | i, liveI, .live _ :: rest, bits =>
    match row[liveI]? with
    | none => .error .panic
    | some none => nullBits row (i + 1) (liveI + 1) rest bits
    | some (some _) => do
      let bits ← setBit bits i
      nullBits row (i + 1) (liveI + 1) rest bits

/-- The null bitmap and the padding behind it, from zeros of their length. -/
def nullBitmap (row : Row) (phys : List PhysCol) (hasNulls : Bool) (zeros : Bytes) : Except Fault Bytes :=
  if hasNulls then nullBits row 0 0 phys zeros else .ok zeros

def PhysCol.isDropped : PhysCol → Bool
  | .live _ => false
  | .dropped _ _ => true

def encodeTuple (desc : TableDesc) (block offnum : Nat) (spec : TupleSpec) : Except Fault Bytes :=
  let nLive := desc.cols.length
  if spec.row.length ≠ nLive then
    bail s!"reconstruct: row has {spec.row.length} values, table has {nLive} live columns"
  else do
    match ← encodeAttrs spec.row desc with
    | none => bail "reconstruct: row not encodable on-page (type mismatch, or a varlena that would need TOAST/compression — P6, not yet supported)"
    | some attrs =>
      let natts := desc.phys.length
      -- A dropped column is always null, so it forces a null bitmap.
      let hasNulls := desc.phys.any PhysCol.isDropped || spec.row.any Option.isNone
      let bitmapLen := if hasNulls then (natts + 7) / 8 else 0
      let tHoff := maxalign (sizeofHeapTupleHeader + bitmapLen)
      let hasVarwidth := (desc.cols.zip spec.row).any fun cv =>
        cv.2.isSome && (cv.1.ty = .text || cv.1.ty = .bytea)
      let (cblk, coff) := spec.ctid.getD (block, offnum)
      let bits ← nullBitmap spec.row desc.phys hasNulls (List.replicate (tHoff - sizeofHeapTupleHeader) 0)
      return heapHeader spec.xmin spec.xmax cblk coff (infomask2 natts spec.heapOnly spec.hotUpdated)
        (infomask spec.xmin spec.xmax hasNulls hasVarwidth) tHoff ++ (bits ++ attrs)

def encodeRawTuple (block offnum : Nat) (rt : RawTuple) : Except Fault Bytes :=
  let hasNulls := !rt.nullBitmap.isEmpty
  let expected := if hasNulls then (rt.natts + 7) / 8 else 0
  if rt.nullBitmap.length ≠ expected then
    bail s!"reconstruct: raw null bitmap is {rt.nullBitmap.length} bytes, natts {rt.natts} needs {expected}"
  else
    let tHoff := maxalign (sizeofHeapTupleHeader + rt.nullBitmap.length)
    let (cblk, coff) := rt.ctid.getD (block, offnum)
    let zeros : Bytes := List.replicate (tHoff - (sizeofHeapTupleHeader + rt.nullBitmap.length)) 0
    .ok (heapHeader rt.xmin rt.xmax cblk coff (infomask2 rt.natts rt.heapOnly rt.hotUpdated)
      (infomask rt.xmin rt.xmax hasNulls rt.hasVarwidth) tHoff ++ (rt.nullBitmap ++ zeros ++ rt.attrs))

/-! ## The page -/

/-- Place a tuple below `pdUpper`. Gives the page, the new `pdUpper` and the line pointer. -/
def placeTuple (page : Bytes) (pdUpper pdLower : Nat) (tup : Bytes) (offnum : Nat) :
    Except Fault (Bytes × Nat × Nat) :=
  let slotSize := maxalign tup.length
  if pdUpper < pdLower + slotSize then bail s!"reconstruct: page overflow placing tuple at offnum {offnum}"
  else
    let pdUpper := pdUpper - slotSize
    .ok (splice page pdUpper tup, pdUpper, pdUpper ||| lpNormal <<< 15 ||| tup.length <<< 17)

section Build

variable (desc : TableDesc) (block pdLower : Nat)

def placeSlot (offnum : Nat) (page : Bytes) (pdUpper : Nat) : Slot → Except Fault (Bytes × Nat × Nat)
  | .unused => .ok (page, pdUpper, lpUnused <<< 15)
  | .dead => .ok (page, pdUpper, lpDead <<< 15)
  | .redirect target =>
    if target = 0 then bail "reconstruct: LP_REDIRECT target offnum must be > 0"
    else .ok (page, pdUpper, target ||| lpRedirect <<< 15)
  | .tuple spec => do
    let tup ← encodeTuple desc block offnum spec
    placeTuple page pdUpper pdLower tup offnum
  | .raw rt => do
    let tup ← encodeRawTuple block offnum rt
    placeTuple page pdUpper pdLower tup offnum

/-- The slots from index `i` on. -/
def placeSlots : Nat → Bytes → Nat → List Slot → Except Fault (Bytes × Nat)
  | _, page, pdUpper, [] => .ok (page, pdUpper)
  | i, page, pdUpper, slot :: rest => do
    let (page, pdUpper, itemid) ← placeSlot desc block pdLower (i + 1) page pdUpper slot
    placeSlots (i + 1) (splice page (pageHeaderSize + i * itemIdSize) (toLe 4 itemid)) pdUpper rest

end Build

def writePageHeader (page : Bytes) (lsn : Lsn) (pdLower pdUpper : Nat) : Bytes :=
  let page := splice page 0 (toLe 4 (lsn >>> 32))
  let page := splice page 4 (toLe 4 lsn)
  let page := splice page 12 (toLe 2 pdLower)
  let page := splice page 14 (toLe 2 pdUpper)
  let page := splice page 16 (toLe 2 pageSize)
  splice page 18 (toLe 2 (pageSize ||| pdLayoutVersion))

def checksumBaseOffsets : List UInt32 :=
  [0x5B1F36E9, 0xB8525960, 0x02AB50AA, 0x1DE66D2A, 0x79FF467A, 0x9BB9F8A3, 0x217E7CD2,
   0x83E13D2C, 0xF8D4474F, 0xE39EB970, 0x42C6AE16, 0x993216FA, 0x7B093B5D, 0x98DAFF3C,
   0xF718902A, 0x0B1C9CDB, 0xE58F764B, 0x187636BC, 0x5D7B3BB1, 0xE73DE7DE, 0x92BEC979,
   0xCCA6C0B2, 0x304A0979, 0x85AA43D4, 0x783125BB, 0x6CA8EAA2, 0xE407EAC6, 0x4B5CFC3E,
   0x9FBF8C76, 0x15CA20BE, 0xF2CA9FD3, 0x959BD756]

def fnvPrime : UInt32 := 16777619

def checksumComp (sum value : UInt32) : UInt32 :=
  let tmp := sum ^^^ value
  tmp * fnvPrime ^^^ (tmp >>> 17)

def pgChecksumBlock (page : Bytes) : UInt32 :=
  let words := (chunksLe 4 (pageSize / 4) page).map UInt32.ofNat
  let sums := (List.range (pageSize / (4 * 32))).foldl
    (fun sums i => List.zipWith checksumComp sums ((words.drop (i * 32)).take 32)) checksumBaseOffsets
  let sums := (sums.map (checksumComp · 0)).map (checksumComp · 0)
  sums.foldl (· ^^^ ·) 0

/-- The checksum with its own field taken as zero; never zero itself. -/
def pgChecksumPage (page : Bytes) (blkno : Nat) : Nat :=
  let checksum := pgChecksumBlock ((page.set 8 0).set 9 0) ^^^ UInt32.ofNat blkno
  checksum.toNat % 65535 + 1

def buildPage (desc : TableDesc) (block : Nat) (lsn : Lsn) (slots : List Slot) : Except Fault Bytes :=
  let pdLower := pageHeaderSize + slots.length * itemIdSize
  if pdLower > pageSize then bail s!"reconstruct: {slots.length} line pointers overflow the page"
  else do
    let (page, pdUpper) ← placeSlots desc block pdLower 0 (List.replicate pageSize 0) pageSize slots
    let page := writePageHeader page lsn pdLower pdUpper
    return splice page 8 (toLe 2 (pgChecksumPage page block))

/-! ## What a page holds -/

theorem slice_splice_self {page b : Bytes} {off : Nat} (h : off + b.length ≤ page.length) :
    slice (splice page off b) off b.length = some b := by
  rw [slice, splice_length h, if_pos h, window_self (by omega)]

theorem slice_splice_apart {page b : Bytes} {off o n : Nat} (h : off + b.length ≤ page.length)
    (hapart : o + n ≤ off ∨ off + b.length ≤ o) : slice (splice page off b) o n = slice page o n := by
  rw [slice, slice, splice_length h]
  rcases hapart with hbefore | hafter
  · rw [window_before (by omega) hbefore]
  · rw [window_after (by omega) hafter]

/-- The bytes of the line pointer of slot `i`. -/
def itemAt (page : Bytes) (i : Nat) : Option Bytes := slice page (pageHeaderSize + i * itemIdSize) 4

/-- Slot `i` is a normal line pointer, and leads to `tup`. -/
def TupleAt (page : Bytes) (i : Nat) (tup : Bytes) : Prop :=
  ∃ off, pageHeaderSize ≤ off ∧ off + tup.length ≤ pageSize ∧ itemAt page i =
      some (toLe 4 (off + 1 * 2 ^ 15 + tup.length * 2 ^ 17)) ∧ slice page off tup.length = some tup

/-- What a page has for a slot. -/
def Slot.Holds (desc : TableDesc) (block : Nat) (page : Bytes) (i : Nat) : Slot → Prop
  | .unused => itemAt page i = some (toLe 4 (lpUnused <<< 15))
  | .dead => itemAt page i = some (toLe 4 (lpDead <<< 15))
  | .redirect target => target ≠ 0 ∧ itemAt page i = some (toLe 4 (target ||| lpRedirect <<< 15))
  | .tuple spec => ∃ tup, encodeTuple desc block (i + 1) spec = .ok tup ∧ TupleAt page i tup
  | .raw rt => ∃ tup, encodeRawTuple block (i + 1) rt = .ok tup ∧ TupleAt page i tup

theorem normal_itemid {off len : Nat} (hoff : off < 2 ^ 15) :
    off ||| lpNormal <<< 15 ||| len <<< 17 = off + 1 * 2 ^ 15 + len * 2 ^ 17 := by
  have hlow : off ||| lpNormal <<< 15 = off + 1 * 2 ^ 15 := by
    rw [Nat.or_comm, ← Nat.shiftLeft_add_eq_or_of_lt hoff, Nat.shiftLeft_eq, Nat.add_comm]
    rfl
  rw [hlow, Nat.or_comm, ← Nat.shiftLeft_add_eq_or_of_lt (by omega), Nat.shiftLeft_eq, Nat.add_comm]

/-- Nothing differs outside of the window from `lo` to `hi`. -/
def SameOutside (lo hi : Nat) (page page' : Bytes) : Prop :=
  ∀ o n, o + n ≤ lo ∨ hi ≤ o → slice page' o n = slice page o n

namespace SameOutside

variable {lo hi lo' hi' : Nat} {page page' page'' : Bytes}

theorem refl : SameOutside lo hi page page := fun _ _ _ => rfl

theorem trans (h : SameOutside lo hi page page') (h' : SameOutside lo hi page' page'') :
    SameOutside lo hi page page'' := fun o n hout => (h' o n hout).trans (h o n hout)

theorem mono (h : SameOutside lo hi page page') (hlo : lo' ≤ lo) (hhi : hi ≤ hi') :
    SameOutside lo' hi' page page' := fun o n hout => h o n (by omega)

theorem of_splice {b : Bytes} {off : Nat} (h : off + b.length ≤ page.length) :
    SameOutside off (off + b.length) page (splice page off b) :=
  fun _ _ hout => slice_splice_apart h hout

end SameOutside

section Placed

variable {desc : TableDesc} {block pdLower : Nat}

theorem le_maxalign (n : Nat) : n ≤ maxalign n := by
  unfold maxalign
  omega

theorem placeTuple_ok {page page' tup : Bytes} {up up' itemid offnum : Nat} (hup : up ≤ pageSize)
    (h : placeTuple page up pdLower tup offnum = .ok (page', up', itemid)) :
    page' = splice page up' tup ∧ pdLower ≤ up' ∧ up' + tup.length ≤ up ∧
      itemid = up' + 1 * 2 ^ 15 + tup.length * 2 ^ 17 := by
  unfold placeTuple at h
  dsimp only at h
  split at h
  · cases h
  · rename_i hroom
    have hle := le_maxalign tup.length
    have hsize : pageSize < 2 ^ 15 := by decide
    rw [normal_itemid (by omega)] at h
    obtain ⟨rfl, rfl, rfl⟩ : _ ∧ _ ∧ _ := by simpa using h
    exact ⟨rfl, by omega, by omega, rfl⟩

/-- One slot: the free space shrinks, nothing outside of it changes, and whatever page keeps
the storage and has the line pointer holds the slot. -/
theorem placeSlot_ok {page page' : Bytes} {up up' itemid i : Nat} {slot : Slot}
    (hlen : page.length = pageSize) (hheader : pageHeaderSize ≤ pdLower) (hlower : pdLower ≤ up)
    (hup : up ≤ pageSize)
    (h : placeSlot desc block pdLower (i + 1) page up slot = .ok (page', up', itemid)) :
    page'.length = pageSize ∧ pdLower ≤ up' ∧ up' ≤ up ∧ SameOutside pdLower up page page' ∧
      ∀ final, itemAt final i = some (toLe 4 itemid) →
        (∀ o n, up' ≤ o → slice final o n = slice page' o n) → slot.Holds desc block final i := by
  -- Both kinds of tuples are placed alike.
  have hplaced : ∀ {tup : Bytes}, placeTuple page up pdLower tup (i + 1) = .ok (page', up', itemid) →
      page'.length = pageSize ∧ pdLower ≤ up' ∧ up' ≤ up ∧ SameOutside pdLower up page page' ∧
        ∀ final, itemAt final i = some (toLe 4 itemid) →
          (∀ o n, up' ≤ o → slice final o n = slice page' o n) → TupleAt final i tup := by
    intro tup h
    obtain ⟨rfl, hup', hfits, rfl⟩ := placeTuple_ok hup h
    have hinside : up' + tup.length ≤ page.length := by omega
    refine ⟨(splice_length hinside).trans hlen, hup', by omega,
      (SameOutside.of_splice hinside).mono hup' hfits, fun final hitem hkept => ?_⟩
    refine ⟨up', by omega, by omega, hitem, ?_⟩
    rw [hkept up' _ (Nat.le_refl _), slice_splice_self hinside]
  cases slot with
  | unused =>
    cases h
    exact ⟨hlen, hlower, Nat.le_refl _, .refl, fun final hitem _ => hitem⟩
  | dead =>
    cases h
    exact ⟨hlen, hlower, Nat.le_refl _, .refl, fun final hitem _ => hitem⟩
  | redirect target =>
    rw [placeSlot] at h
    split at h
    · cases h
    · rename_i htarget
      cases h
      exact ⟨hlen, hlower, Nat.le_refl _, .refl, fun final hitem _ => ⟨htarget, hitem⟩⟩
  | tuple spec =>
    obtain ⟨tup, hencode, h⟩ := bind_eq_ok.mp h
    obtain ⟨hlen', hlower', hup', hsame, htuple⟩ := hplaced h
    exact ⟨hlen', hlower', hup', hsame, fun final hitem hkept => ⟨tup, hencode, htuple final hitem hkept⟩⟩
  | raw rt =>
    obtain ⟨tup, hencode, h⟩ := bind_eq_ok.mp h
    obtain ⟨hlen', hlower', hup', hsame, htuple⟩ := hplaced h
    exact ⟨hlen', hlower', hup', hsame, fun final hitem hkept => ⟨tup, hencode, htuple final hitem hkept⟩⟩

/-- All slots. Line pointers before `i` and storage above `up` are left alone. -/
theorem placeSlots_ok {slots : List Slot} {page page' : Bytes} {up up' i : Nat} (hlen : page.length = pageSize)
    (hlower : pdLower ≤ up) (hup : up ≤ pageSize)
    (hroom : pageHeaderSize + (i + slots.length) * itemIdSize ≤ pdLower)
    (h : placeSlots desc block pdLower i page up slots = .ok (page', up')) :
    page'.length = pageSize ∧ up' ≤ pageSize ∧
      SameOutside (pageHeaderSize + i * itemIdSize) up page page' ∧
      ∀ (k : Nat) (slot : Slot), slots[k]? = some slot → slot.Holds desc block page' (i + k) := by
  induction slots generalizing page up i with
  | nil =>
    cases h
    exact ⟨hlen, hup, .refl, fun k slot hk => by cases hk⟩
  | cons slot rest ih =>
    obtain ⟨⟨page₁, up₁, itemid⟩, hslot, h⟩ := bind_eq_ok.mp h
    obtain ⟨hlen₁, hlower₁, hup₁, hsame₁, hholds₁⟩ := placeSlot_ok hlen (by omega) hlower hup hslot
    simp only [List.length_cons, itemIdSize] at hroom
    have hinside : pageHeaderSize + i * itemIdSize + (toLe 4 itemid).length ≤ page₁.length := by
      rw [toLe_length, itemIdSize]
      omega
    obtain ⟨hlen', hup', hsame, hholds⟩ :=
      ih ((splice_length hinside).trans hlen₁) hlower₁ (by omega) (by rw [itemIdSize]; omega) h
    have hitem := SameOutside.of_splice hinside
    rw [toLe_length] at hitem
    refine ⟨hlen', hup', ?_, ?_⟩
    · refine ((hsame₁.mono ?_ (Nat.le_refl _)).trans (hitem.mono (Nat.le_refl _) ?_)).trans (hsame.mono ?_ hup₁) <;>
        · simp only [itemIdSize]
          omega
    · intro k s hk
      cases k with
      | zero =>
        obtain rfl := Option.some.inj hk
        refine hholds₁ page' ?_ fun o n ho => ?_
        · rw [itemAt, hsame _ _ (.inl (by simp only [itemIdSize]; omega))]
          have hself := slice_splice_self hinside
          rwa [toLe_length] at hself
        · rw [hsame o n (.inr ho), hitem o n (.inr (by simp only [itemIdSize] at *; omega))]
      | succ k =>
        have hrest := hholds k s hk
        rwa [Nat.add_right_comm] at hrest

theorem Slot.Holds.of_same {page page' : Bytes} (hsame : SameOutside 0 pageHeaderSize page page') {i : Nat}
    {slot : Slot} (h : slot.Holds desc block page i) : slot.Holds desc block page' i := by
  have hitem : itemAt page' i = itemAt page i := hsame _ _ (.inr (Nat.le_add_right _ _))
  have htuple : ∀ {tup : Bytes}, TupleAt page i tup → TupleAt page' i tup := by
    rintro tup ⟨off, hheader, hsize, hptr, hslice⟩
    exact ⟨off, hheader, hsize, hitem.trans hptr, (hsame _ _ (.inr hheader)).trans hslice⟩
  cases slot with
  | unused => exact hitem.trans h
  | dead => exact hitem.trans h
  | redirect target => exact ⟨h.1, hitem.trans h.2⟩
  | tuple spec =>
    obtain ⟨tup, hencode, htup⟩ := h
    exact ⟨tup, hencode, htuple htup⟩
  | raw rt =>
    obtain ⟨tup, hencode, htup⟩ := h
    exact ⟨tup, hencode, htuple htup⟩

theorem headerField_le {page : Bytes} (hlen : page.length = pageSize) (n v off : Nat) (h : off + n ≤ 20) :
    off + (toLe n v).length ≤ page.length := by
  rw [toLe_length, hlen]
  exact h.trans (by decide)

/-- A write to the page header. -/
theorem splice_header {page b : Bytes} {off : Nat} (hlen : page.length = pageSize)
    (hoff : off + b.length ≤ pageHeaderSize) :
    (splice page off b).length = pageSize ∧ SameOutside 0 pageHeaderSize page (splice page off b) := by
  have hinside : off + b.length ≤ page.length := by
    rw [hlen]
    exact hoff.trans (by decide)
  exact ⟨(splice_length hinside).trans hlen, (SameOutside.of_splice hinside).mono (Nat.zero_le _) hoff⟩

theorem splice_headerField {page : Bytes} (hlen : page.length = pageSize) (n v off : Nat) (h : off + n ≤ 20) :
    (splice page off (toLe n v)).length = pageSize ∧ SameOutside 0 pageHeaderSize page (splice page off (toLe n v)) := by
  refine splice_header hlen ?_
  rw [toLe_length]
  exact h.trans (by decide)

theorem writePageHeader_ok {page : Bytes} (hlen : page.length = pageSize) (lsn : Lsn) (pdLower pdUpper : Nat) :
    (writePageHeader page lsn pdLower pdUpper).length = pageSize ∧
      SameOutside 0 pageHeaderSize page (writePageHeader page lsn pdLower pdUpper) ∧
      slice (writePageHeader page lsn pdLower pdUpper) 12 2 = some (toLe 2 pdLower) := by
  obtain ⟨h₁, s₁⟩ := splice_headerField hlen 4 (lsn >>> 32) 0 (by decide)
  obtain ⟨h₂, s₂⟩ := splice_headerField h₁ 4 lsn 4 (by decide)
  obtain ⟨h₃, s₃⟩ := splice_headerField h₂ 2 pdLower 12 (by decide)
  obtain ⟨h₄, s₄⟩ := splice_headerField h₃ 2 pdUpper 14 (by decide)
  obtain ⟨h₅, s₅⟩ := splice_headerField h₄ 2 pageSize 16 (by decide)
  obtain ⟨h₆, s₆⟩ := splice_headerField h₅ 2 (pageSize ||| pdLayoutVersion) 18 (by decide)
  refine ⟨h₆, ((((s₁.trans s₂).trans s₃).trans s₄).trans s₅).trans s₆, ?_⟩
  -- `pd_lower` is written once, and the writes after it are behind it.
  unfold writePageHeader
  dsimp only
  rw [slice_splice_apart (headerField_le h₅ _ _ _ (by decide)) (.inl (by decide)),
    slice_splice_apart (headerField_le h₄ _ _ _ (by decide)) (.inl (by decide)),
    slice_splice_apart (headerField_le h₃ _ _ _ (by decide)) (.inl (by decide))]
  exact slice_splice_self (headerField_le h₂ 2 _ _ (by decide))

/-- A page that is built has its line pointers and holds every slot. -/
theorem buildPage_ok {slots : List Slot} {lsn : Lsn} {page : Bytes}
    (h : buildPage desc block lsn slots = .ok page) :
    page.length = pageSize ∧ pageHeaderSize + slots.length * itemIdSize ≤ pageSize ∧
      slice page 12 2 = some (toLe 2 (pageHeaderSize + slots.length * itemIdSize)) ∧
      ∀ (k : Nat) (slot : Slot), slots[k]? = some slot → slot.Holds desc block page k := by
  unfold buildPage at h
  dsimp only at h
  split at h
  · cases h
  rename_i hfits
  obtain ⟨⟨placed, up⟩, hplaced, h⟩ := bind_eq_ok.mp h
  cases h
  obtain ⟨hlen, -, -, hholds⟩ :=
    placeSlots_ok (i := 0) List.length_replicate (by omega) (Nat.le_refl _) (by rw [Nat.zero_add]) hplaced
  obtain ⟨hlen', hsame, hlower⟩ :=
    writePageHeader_ok hlen lsn (pageHeaderSize + slots.length * itemIdSize) up
  generalize writePageHeader placed lsn (pageHeaderSize + slots.length * itemIdSize) up = written at *
  obtain ⟨hlen'', hsame'⟩ := splice_header hlen'
    (show 8 + (toLe 2 (pgChecksumPage written block)).length ≤ pageHeaderSize by rw [toLe_length]; decide)
  refine ⟨hlen'', by omega, ?_, fun k slot hk => ?_⟩
  · rw [slice_splice_apart (by rw [toLe_length, hlen']; decide) (.inr (by rw [toLe_length]; decide))]
    exact hlower
  · have hslot := hholds k slot hk
    rw [Nat.zero_add] at hslot
    exact hslot.of_same (hsame.trans hsame')

end Placed

end Ltap
