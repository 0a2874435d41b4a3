-- SUMMARY: Where a rebuilt page puts its tuples and line pointers, what its header says, and when it cannot be built.
import OpenLtap.Page.Fragment

/-!
# The geometry of a rebuilt page

Tuples go downwards from the end of the page, each in as much storage as its length rounded
up to eight. So the place of a tuple is the end of the page less the storage of the slots up
to it, and a page can be built exactly if the storage of all slots fits behind the line
pointers.
-/

namespace Ltap

open Splice

/-! ## Storage -/

section Storage

variable (desc : TableDesc) (block : Nat)

/-- The tuple of a slot that has one. -/
def Slot.stored (offnum : Nat) : Slot → Option (Except Fault Bytes)
  | .tuple spec => some (encodeTuple desc block offnum spec)
  | .raw rt => some (encodeRawTuple block offnum rt)
  | .unused | .dead | .redirect _ => none

/-- The length of its tuple. -/
def Slot.len (offnum : Nat) (slot : Slot) : Nat :=
  match slot.stored desc block offnum with
  | some (.ok tup) => tup.length
  | _ => 0

/-- The storage of the slots from index `i` on. -/
def slotSpace : Nat → List Slot → Nat
  | _, [] => 0
  | i, slot :: rest => maxalign (slot.len desc block (i + 1)) + slotSpace (i + 1) rest

/-- The slot is no redirect to nowhere, and its tuple can be encoded. -/
def Slot.Placeable (offnum : Nat) (slot : Slot) : Prop :=
  (∀ target, slot = .redirect target → target ≠ 0) ∧
    ∀ r, slot.stored desc block offnum = some r → ∃ tup, r = .ok tup

/-- The line pointer of a slot, whose tuple is at `off`. -/
def Slot.pointer (offnum off : Nat) : Slot → LinePointer
  | .unused => { flags := lpUnused, off := 0, len := 0 }
  | .dead => { flags := lpDead, off := 0, len := 0 }
  | .redirect target => { flags := lpRedirect, off := target, len := 0 }
  | .tuple spec => { flags := lpNormal, off, len := Slot.len desc block offnum (.tuple spec) }
  | .raw rt => { flags := lpNormal, off, len := Slot.len desc block offnum (.raw rt) }

end Storage

/-- A line pointer packed into its 32 bits. -/
def LinePointer.packed (lp : LinePointer) : Nat := lp.off + lp.flags * 2 ^ 15 + lp.len * 2 ^ 17

theorem LinePointer.packed_empty (flags : Nat) : LinePointer.packed { flags, off := 0, len := 0 } = flags <<< 15 := by
  rw [packed, Nat.shiftLeft_eq, Nat.zero_add, Nat.zero_mul, Nat.add_zero]

theorem LinePointer.packed_redirect (target : Nat) :
    LinePointer.packed { flags := lpRedirect, off := target, len := 0 } = target + lpRedirect * 2 ^ 15 := by
  rw [packed, Nat.zero_mul, Nat.add_zero]

theorem LinePointer.packed_normal (off len : Nat) :
    LinePointer.packed { flags := lpNormal, off, len } = off + 1 * 2 ^ 15 + len * 2 ^ 17 := by
  rw [packed, lpNormal]

section Space

variable (desc : TableDesc) (block : Nat)

theorem slotSpace_take {slots : List Slot} (i : Nat) {k : Nat} {slot : Slot} (h : slots[k]? = some slot) :
    slotSpace desc block i (slots.take (k + 1)) =
      slotSpace desc block i (slots.take k) + maxalign (slot.len desc block (i + k + 1)) := by
  induction slots generalizing i k with
  | nil => cases h
  | cons s rest ih =>
    cases k with
    | zero =>
      obtain rfl := Option.some.inj h
      simp [slotSpace]
    | succ k =>
      have hrest := @ih (i + 1) k h
      rw [List.take_succ_cons, List.take_succ_cons, slotSpace, slotSpace, hrest,
        show i + 1 + k + 1 = i + (k + 1) + 1 by omega, ← Nat.add_assoc]

theorem slotSpace_mono (slots : List Slot) (i : Nat) {k j : Nat} (h : k ≤ j) :
    slotSpace desc block i (slots.take k) ≤ slotSpace desc block i (slots.take j) := by
  induction slots generalizing i k j with
  | nil => simp
  | cons s rest ih =>
    cases k with
    | zero => exact Nat.zero_le _
    | succ k =>
      obtain ⟨j, rfl⟩ : ∃ m, j = m + 1 := ⟨j - 1, by omega⟩
      rw [List.take_succ_cons, List.take_succ_cons, slotSpace, slotSpace]
      exact Nat.add_le_add_left (ih (i + 1) (by omega)) _

theorem slotSpace_take_le (slots : List Slot) (i k : Nat) :
    slotSpace desc block i (slots.take k) ≤ slotSpace desc block i slots := by
  have h := slotSpace_mono desc block slots i (Nat.le_max_left k slots.length)
  rwa [List.take_of_length_le (Nat.le_max_right k slots.length)] at h

variable {desc block}

/-- Storage is a multiple of eight. -/
theorem eight_dvd_slotSpace (slots : List Slot) (i : Nat) : 8 ∣ slotSpace desc block i slots := by
  induction slots generalizing i with
  | nil => exact Nat.dvd_zero 8
  | cons s rest ih => exact Nat.dvd_add (Nat.dvd_mul_left 8 _) (ih (i + 1))

/-! ## One slot -/

variable {pdLower : Nat}

theorem placeTuple_ok_iff {page tup : Bytes} {up offnum : Nat} (hup : up ≤ pageSize)
    {r : Bytes × Nat × Nat} :
    placeTuple page up pdLower tup offnum = .ok r ↔
      pdLower + maxalign tup.length ≤ up ∧
        r = (splice page (up - maxalign tup.length) tup, up - maxalign tup.length,
          (up - maxalign tup.length) + 1 * 2 ^ 15 + tup.length * 2 ^ 17) := by
  have hsize : pageSize < 2 ^ 15 := by decide
  unfold placeTuple
  dsimp only
  rw [normal_itemid (by omega)]
  by_cases hroom : up < pdLower + maxalign tup.length
  · rw [if_pos hroom]
    exact ⟨nofun, fun h => by omega⟩
  · rw [if_neg hroom, Except.ok.injEq, eq_comm]
    exact (and_iff_right (by omega)).symm

theorem Slot.maxalign_len_of_none {offnum : Nat} {slot : Slot} (h : slot.stored desc block offnum = none) :
    maxalign (slot.len desc block offnum) = 0 := by
  unfold len
  rw [h]
  rfl

theorem Slot.len_of_stored {offnum : Nat} {slot : Slot} {tup : Bytes}
    (h : slot.stored desc block offnum = some (.ok tup)) : slot.len desc block offnum = tup.length := by
  unfold len
  rw [h]

/-- A slot is placed exactly if it is placeable and its storage is there. -/
theorem placeSlot_fits {page : Bytes} {up offnum : Nat} {slot : Slot} (hup : up ≤ pageSize)
    (hlower : pdLower ≤ up) :
    (∃ r, placeSlot desc block pdLower offnum page up slot = .ok r) ↔
      slot.Placeable desc block offnum ∧ pdLower + maxalign (slot.len desc block offnum) ≤ up := by
  -- both kinds of tuples alike
  have htuple : ∀ {r : Except Fault Bytes}, slot.stored desc block offnum = some r →
      (∀ t, slot ≠ .redirect t) →
      ((∃ p, (r >>= fun tup => placeTuple page up pdLower tup offnum) = .ok p) ↔
        slot.Placeable desc block offnum ∧ pdLower + maxalign (slot.len desc block offnum) ≤ up) := by
    intro r hstored hno
    unfold Slot.Placeable Slot.len
    simp only [hstored, Option.some.injEq, forall_eq', hno, false_implies, implies_true, true_and]
    cases r with
    | error f =>
      constructor
      · rintro ⟨p, hp⟩
        cases hp
      · rintro ⟨⟨tup, h⟩, -⟩
        cases h
    | ok tup =>
      constructor
      · rintro ⟨p, hp⟩
        exact ⟨⟨tup, rfl⟩, ((placeTuple_ok_iff hup).mp hp).1⟩
      · rintro ⟨-, hroom⟩
        exact ⟨_, (placeTuple_ok_iff hup).mpr ⟨hroom, rfl⟩⟩
  have hnone : slot.stored desc block offnum = none → (∀ t, slot = .redirect t → t ≠ 0) →
      slot.Placeable desc block offnum ∧ pdLower + maxalign (slot.len desc block offnum) ≤ up := by
    intro hstored hredirect
    refine ⟨⟨hredirect, fun r hr => by rw [hstored] at hr; cases hr⟩, ?_⟩
    rw [Slot.maxalign_len_of_none hstored]
    exact hlower
  cases slot with
  | unused | dead =>
    refine ⟨fun _ => hnone rfl fun t h => ?_, fun _ => ⟨_, rfl⟩⟩
    cases h
  | redirect t =>
    rw [placeSlot]
    by_cases ht : t = 0
    · rw [if_pos ht]
      refine ⟨?_, fun h => absurd ht (h.1.1 t rfl)⟩
      rintro ⟨r, h⟩
      cases h
    · rw [if_neg ht]
      refine ⟨fun _ => hnone rfl fun t' h => ?_, fun _ => ⟨_, rfl⟩⟩
      obtain rfl := Slot.redirect.inj h
      exact ht
  | tuple | raw =>
    refine htuple rfl fun t h => ?_
    cases h

theorem redirect_itemid {target : Nat} (h : target < 2 ^ 15) :
    target ||| lpRedirect <<< 15 = target + lpRedirect * 2 ^ 15 := by
  rw [Nat.or_comm, ← Nat.shiftLeft_add_eq_or_of_lt h, Nat.shiftLeft_eq, Nat.add_comm]

/-- The free space shrinks by the storage of the slot, and its line pointer leads there. -/
theorem placeSlot_pointer {page page' : Bytes} {up up' itemid offnum : Nat} {slot : Slot} (hup : up ≤ pageSize)
    (h : placeSlot desc block pdLower offnum page up slot = .ok (page', up', itemid)) :
    up' = up - maxalign (slot.len desc block offnum) ∧
      ((∀ t, slot = .redirect t → t < 2 ^ 15) → itemid = (slot.pointer desc block offnum up').packed) := by
  have hnone : slot.stored desc block offnum = none → up = up - maxalign (slot.len desc block offnum) :=
    fun hstored => by rw [Slot.maxalign_len_of_none hstored, Nat.sub_zero]
  -- A tuple of either kind is placed with its length, and the pointer gets both.
  have htuple : ∀ {r : Except Fault Bytes}, slot.stored desc block offnum = some r →
      (r >>= fun tup => placeTuple page up pdLower tup offnum) = .ok (page', up', itemid) →
      up' = up - maxalign (slot.len desc block offnum) ∧
        itemid = LinePointer.packed { flags := lpNormal, off := up', len := slot.len desc block offnum } := by
    intro r hstored hplaced
    obtain ⟨tup, rfl, hplace⟩ := bind_eq_ok.mp hplaced
    rw [Slot.len_of_stored hstored, LinePointer.packed_normal]
    obtain ⟨rfl, rfl⟩ := Prod.ext_iff.mp (Prod.ext_iff.mp ((placeTuple_ok_iff hup).mp hplace).2).2
    exact ⟨rfl, rfl⟩
  cases slot with
  | unused =>
    cases h
    exact ⟨hnone rfl, fun _ => (LinePointer.packed_empty lpUnused).symm⟩
  | dead =>
    cases h
    exact ⟨hnone rfl, fun _ => (LinePointer.packed_empty lpDead).symm⟩
  | redirect t =>
    rw [placeSlot] at h
    split at h
    · cases h
    · cases h
      refine ⟨hnone rfl, fun hredirect => ?_⟩
      rw [redirect_itemid (hredirect t rfl), Slot.pointer, LinePointer.packed_redirect]
  | tuple | raw =>
    obtain ⟨hup', hitem⟩ := htuple rfl h
    exact ⟨hup', fun _ => hitem⟩

/-! ## All slots -/

/-- The slots are placed exactly if all are placeable and their storage is there. -/
theorem placeSlots_fits {slots : List Slot} {page : Bytes} {up i : Nat} (hup : up ≤ pageSize)
    (hlower : pdLower ≤ up) :
    (∃ r, placeSlots desc block pdLower i page up slots = .ok r) ↔
      (∀ (k : Nat) (slot : Slot), slots[k]? = some slot → slot.Placeable desc block (i + k + 1)) ∧
        pdLower + slotSpace desc block i slots ≤ up := by
  induction slots generalizing page up i with
  | nil =>
    refine ⟨fun _ => ⟨fun k slot hk => ?_, hlower⟩, fun _ => ⟨_, rfl⟩⟩
    cases hk
  | cons slot rest ih =>
    have hfits : (∃ r, placeSlot desc block pdLower (i + 1) page up slot = .ok r) ↔ _ := placeSlot_fits hup hlower
    constructor
    · rintro ⟨r, hr⟩
      obtain ⟨⟨page₁, up₁, itemid⟩, hslot, hrest⟩ := bind_eq_ok.mp hr
      obtain ⟨hplaceable, hroom⟩ := hfits.mp ⟨_, hslot⟩
      obtain ⟨rfl, -⟩ := placeSlot_pointer hup hslot
      obtain ⟨hall, hspace⟩ := (ih (by omega) (by omega)).mp ⟨r, hrest⟩
      refine ⟨fun k s hk => ?_, by rw [slotSpace]; omega⟩
      cases k with
      | zero =>
        obtain rfl := Option.some.inj hk
        exact hplaceable
      | succ k =>
        have := hall k s hk
        rwa [show i + 1 + k + 1 = i + (k + 1) + 1 by omega] at this
    -- The slot takes its own storage; what is left is as much as the others take.
    · rintro ⟨hall, hspace⟩
      rw [slotSpace] at hspace
      obtain ⟨⟨page₁, up₁, itemid⟩, hslot⟩ := hfits.mpr ⟨hall 0 slot rfl, by omega⟩
      obtain ⟨rfl, -⟩ := placeSlot_pointer hup hslot
      have hbehind : ∃ r, placeSlots desc block pdLower (i + 1)
          (splice page₁ (pageHeaderSize + i * itemIdSize) (toLe 4 itemid))
          (up - maxalign (slot.len desc block (i + 1))) rest = .ok r := by
        refine (ih (by omega) (by omega)).mpr ⟨fun k s hk => ?_, by omega⟩
        have := hall (k + 1) s hk
        rwa [show i + (k + 1) + 1 = i + 1 + k + 1 by omega] at this
      obtain ⟨r, hrest⟩ := hbehind
      exact ⟨r, bind_eq_ok.mpr ⟨_, hslot, hrest⟩⟩

/-- Where the tuple of the slot at index `k` is. -/
def tupleStart (desc : TableDesc) (block : Nat) (slots : List Slot) (k : Nat) : Nat :=
  pageSize - slotSpace desc block 0 (slots.take (k + 1))

/-- The end of the free space, and the line pointers. -/
theorem placeSlots_pointers {slots : List Slot} {page page' : Bytes} {up up' i : Nat}
    (hlen : page.length = pageSize) (hlower : pdLower ≤ up) (hup : up ≤ pageSize)
    (hroom : pageHeaderSize + (i + slots.length) * itemIdSize ≤ pdLower)
    (hredirect : ∀ t, Slot.redirect t ∈ slots → t < 2 ^ 15)
    (h : placeSlots desc block pdLower i page up slots = .ok (page', up')) :
    up' = up - slotSpace desc block i slots ∧
      ∀ (k : Nat) (slot : Slot), slots[k]? = some slot → itemAt page' (i + k) =
        some (toLe 4 (slot.pointer desc block (i + k + 1)
          (up - slotSpace desc block i (slots.take (k + 1)))).packed) := by
  induction slots generalizing page up i with
  | nil =>
    cases h
    exact ⟨rfl, fun k slot hk => by cases hk⟩
  | cons slot rest ih =>
    obtain ⟨⟨page₁, up₁, itemid⟩, hslot, h⟩ := bind_eq_ok.mp h
    obtain ⟨hlen₁, hlower₁, hup₁, -, -⟩ := placeSlot_ok hlen (by omega) hlower hup hslot
    obtain ⟨hup', hitem⟩ := placeSlot_pointer hup hslot
    simp only [List.length_cons, itemIdSize] at hroom
    have hinside : pageHeaderSize + i * itemIdSize + (toLe 4 itemid).length ≤ page₁.length := by
      rw [toLe_length, itemIdSize]
      omega
    have hlen₂ := (splice_length hinside).trans hlen₁
    have hroom' : pageHeaderSize + (i + 1 + rest.length) * itemIdSize ≤ pdLower := by
      rw [itemIdSize]
      omega
    -- Later slots leave the line pointers below them alone.
    obtain ⟨-, -, hsame, -⟩ := placeSlots_ok hlen₂ hlower₁ (by omega) hroom' h
    obtain ⟨hfinal, hpointers⟩ := ih hlen₂ hlower₁ (by omega) hroom'
      (fun t ht => hredirect t (List.mem_cons_of_mem _ ht)) h
    refine ⟨by rw [hfinal, hup', slotSpace]; omega, fun k s hk => ?_⟩
    cases k with
    | zero =>
      obtain rfl := Option.some.inj hk
      have hself := slice_splice_self hinside
      rw [toLe_length] at hself
      rw [Nat.add_zero, itemAt, hsame _ _ (.inl (by simp only [itemIdSize]; omega)), hself,
        hitem (fun t ht => hredirect t (ht ▸ List.mem_cons_self)), hup']
      simp [slotSpace]
    | succ k =>
      have := hpointers k s hk
      rw [hup', Nat.sub_sub, show i + 1 + k = i + (k + 1) by omega] at this
      rwa [List.take_succ_cons, slotSpace]

end Space

/-! ## The page header -/

theorem writePageHeader_bounds {page : Bytes} (hlen : page.length = pageSize) (lsn : Lsn) (pdLower pdUpper : Nat) :
    slice (writePageHeader page lsn pdLower pdUpper) 14 2 = some (toLe 2 pdUpper) ∧
      slice (writePageHeader page lsn pdLower pdUpper) 16 2 = some (toLe 2 pageSize) := by
  -- Five fields of the header are written one after the other.
  obtain ⟨h₁, -⟩ := splice_headerField hlen 4 (lsn >>> 32) 0 (by decide)
  obtain ⟨h₂, -⟩ := splice_headerField h₁ 4 lsn 4 (by decide)
  obtain ⟨h₃, -⟩ := splice_headerField h₂ 2 pdLower 12 (by decide)
  obtain ⟨h₄, -⟩ := splice_headerField h₃ 2 pdUpper 14 (by decide)
  obtain ⟨h₅, -⟩ := splice_headerField h₄ 2 pageSize 16 (by decide)
  unfold writePageHeader
  dsimp only
  constructor
  · rw [slice_splice_apart (headerField_le h₅ _ _ _ (by decide)) (.inl (by decide)),
      slice_splice_apart (headerField_le h₄ _ _ _ (by decide)) (.inl (by decide))]
    exact slice_splice_self (headerField_le h₃ 2 _ _ (by decide))
  · rw [slice_splice_apart (headerField_le h₅ _ _ _ (by decide)) (.inl (by decide))]
    exact slice_splice_self (headerField_le h₄ 2 _ _ (by decide))

/-- The checksum does not see its own field. -/
theorem pgChecksumPage_splice {page b : Bytes} (hlen : 10 ≤ page.length) (hb : b.length = 2) (blkno : Nat) :
    pgChecksumPage (splice page 8 b) blkno = pgChecksumPage page blkno := by
  obtain ⟨x, y, rfl⟩ := List.length_eq_two.mp hb
  have hmasked : ((splice page 8 [x, y]).set 8 0).set 9 0 = (page.set 8 0).set 9 0 := by
    have htake : (page.take 8).length = 8 := by
      rw [List.length_take]
      omega
    have hpage : page = page.take 8 ++ (page[8] :: page[9] :: page.drop 10) := by
      rw [← List.drop_eq_getElem_cons, ← List.drop_eq_getElem_cons, List.take_append_drop]
    have hset : ∀ (pre rest : Bytes) (u v : UInt8), pre.length = 8 →
        ((pre ++ u :: v :: rest).set 8 0).set 9 0 = pre ++ 0 :: 0 :: rest := by
      intro pre rest u v hpre
      rw [List.set_append_right _ _ (by omega), List.set_append_right _ _ (by omega), hpre]
      rfl
    have hwritten : splice page 8 [x, y] = page.take 8 ++ x :: y :: page.drop 10 := rfl
    rw [hwritten, hset _ _ _ _ htake]
    conv_rhs => rw [hpage]
    rw [hset _ _ _ _ htake]
  rw [pgChecksumPage, pgChecksumPage, hmasked]

theorem pgChecksumPage_bounds (page : Bytes) (blkno : Nat) :
    0 < pgChecksumPage page blkno ∧ pgChecksumPage page blkno < 2 ^ 16 := by
  unfold pgChecksumPage
  dsimp only
  omega

/-! ## The page -/

/-- The line pointer of a slot is read back, and the tuple of one that has a tuple lies
8-aligned between the end of the free space and the end of the page. -/
def Slot.LaidOut (desc : TableDesc) (block : Nat) (page : Bytes) (up offnum : Nat) (slot : Slot) (lp : LinePointer) :
    Prop :=
  match slot with
  | .unused => lp = { flags := lpUnused, off := 0, len := 0 }
  | .dead => lp = { flags := lpDead, off := 0, len := 0 }
  | .redirect target => lp = { flags := lpRedirect, off := target, len := 0 }
  | .tuple _ | .raw _ =>
    lp.flags = lpNormal ∧ 8 ∣ lp.off ∧ up ≤ lp.off ∧ lp.off + lp.len ≤ pageSize ∧
      ∃ tup, slot.stored desc block offnum = some (.ok tup) ∧ lp.len = tup.length ∧
        slice page lp.off lp.len = some tup

structure SoundGeometry (desc : TableDesc) (block : Nat) (slots : List Slot) (page : Bytes) (up : Nat) : Prop where
  length : page.length = pageSize
  lower : slice page 12 2 = some (toLe 2 (pageHeaderSize + slots.length * itemIdSize))
  upper : slice page 14 2 = some (toLe 2 up)
  special : slice page 16 2 = some (toLe 2 pageSize)
  lower_le : pageHeaderSize + slots.length * itemIdSize ≤ up
  upper_le : up ≤ pageSize
  pointers : ∀ (k : Nat) (slot : Slot), slots[k]? = some slot →
    ∃ lp, linePointer page (k + 1) = .ok lp ∧ slot.LaidOut desc block page up (k + 1) lp
  /-- A later tuple ends where an earlier one starts, or before. -/
  apart : ∀ (j k : Nat) (lpj lpk : LinePointer), j < k → k < slots.length →
    linePointer page (j + 1) = .ok lpj → linePointer page (k + 1) = .ok lpk →
    lpj.flags = lpNormal → lpk.flags = lpNormal → lpk.off + lpk.len ≤ lpj.off
  checksum : slice page 8 2 = some (toLe 2 (pgChecksumPage page block))
  checksum_pos : 0 < pgChecksumPage page block ∧ pgChecksumPage page block < 2 ^ 16

section Built

variable {desc : TableDesc} {block : Nat} {lsn : Lsn} {slots : List Slot}

/-- The steps of a page that is built. -/
theorem buildPage_steps {page : Bytes} (h : buildPage desc block lsn slots = .ok page) :
    pageHeaderSize + slots.length * itemIdSize ≤ pageSize ∧ ∃ placed up,
      placeSlots desc block (pageHeaderSize + slots.length * itemIdSize) 0 (List.replicate pageSize 0) pageSize slots =
          .ok (placed, up) ∧
        page = splice (writePageHeader placed lsn (pageHeaderSize + slots.length * itemIdSize) up) 8
          (toLe 2 (pgChecksumPage (writePageHeader placed lsn (pageHeaderSize + slots.length * itemIdSize) up)
            block)) := by
  unfold buildPage at h
  dsimp only at h
  split at h
  · cases h
  rename_i hfits
  obtain ⟨⟨placed, up⟩, hplaced, h⟩ := bind_eq_ok.mp h
  cases h
  exact ⟨not_lt.mp hfits, placed, up, hplaced, rfl⟩

/-- When a page cannot be built. -/
theorem buildPage_error_iff :
    (∃ f, buildPage desc block lsn slots = .error f) ↔
      pageSize < pageHeaderSize + slots.length * itemIdSize + slotSpace desc block 0 slots ∨
        ∃ (k : Nat) (slot : Slot), slots[k]? = some slot ∧ ¬ slot.Placeable desc block (k + 1) := by
  have hok : (∃ page, buildPage desc block lsn slots = .ok page) ↔
      (∀ (k : Nat) (slot : Slot), slots[k]? = some slot → slot.Placeable desc block (k + 1)) ∧
        pageHeaderSize + slots.length * itemIdSize + slotSpace desc block 0 slots ≤ pageSize := by
    constructor
    · rintro ⟨page, h⟩
      obtain ⟨hfits, placed, up, hplaced, -⟩ := buildPage_steps h
      have hall := (placeSlots_fits (Nat.le_refl _) hfits).mp ⟨_, hplaced⟩
      simpa only [Nat.zero_add] using hall
    · rintro ⟨hall, hspace⟩
      have hroom : pageHeaderSize + slots.length * itemIdSize ≤ pageSize := by omega
      have hplace : ∃ r, placeSlots desc block (pageHeaderSize + slots.length * itemIdSize) 0
          (List.replicate pageSize 0) pageSize slots = .ok r := by
        refine (placeSlots_fits (Nat.le_refl pageSize) hroom).mpr ⟨fun k slot hk => ?_, hspace⟩
        rw [Nat.zero_add]
        exact hall k slot hk
      obtain ⟨⟨placed, up⟩, hplaced⟩ := hplace
      unfold buildPage
      dsimp only
      rw [if_neg (by omega), hplaced]
      exact ⟨_, rfl⟩
  have hcases : (∃ f, buildPage desc block lsn slots = .error f) ↔
      ¬ ∃ page, buildPage desc block lsn slots = .ok page := by
    cases buildPage desc block lsn slots <;> simp
  rw [hcases, hok, not_and_or, or_comm, not_le]
  simp only [not_forall, exists_prop]

/-- The slots of a page that is built are placeable, and their storage fits. -/
theorem buildPage_fits {page : Bytes} (h : buildPage desc block lsn slots = .ok page) :
    pageHeaderSize + slots.length * itemIdSize + slotSpace desc block 0 slots ≤ pageSize := by
  obtain ⟨hfits, placed, up, hplaced, -⟩ := buildPage_steps h
  exact ((placeSlots_fits (Nat.le_refl _) hfits).mp ⟨_, hplaced⟩).2

variable (desc block) in
theorem tupleStart_le {k : Nat} {slot : Slot} (hspace : slotSpace desc block 0 slots ≤ pageSize)
    (hk : slots[k]? = some slot) :
    tupleStart desc block slots k + maxalign (slot.len desc block (k + 1)) +
      slotSpace desc block 0 (slots.take k) = pageSize := by
  have htake := slotSpace_take desc block 0 hk
  have hle := slotSpace_take_le desc block slots 0 (k + 1)
  rw [Nat.zero_add] at htake
  rw [tupleStart]
  omega

/-- The header of a page that is built, its checksum and its line pointers. -/
theorem buildPage_header {page : Bytes} (hredirect : ∀ t, Slot.redirect t ∈ slots → t ≤ slots.length)
    (h : buildPage desc block lsn slots = .ok page) :
    slice page 14 2 = some (toLe 2 (pageSize - slotSpace desc block 0 slots)) ∧
      slice page 16 2 = some (toLe 2 pageSize) ∧
      slice page 8 2 = some (toLe 2 (pgChecksumPage page block)) ∧
      ∀ (k : Nat) (slot : Slot), slots[k]? = some slot →
        itemAt page k = some (toLe 4 (slot.pointer desc block (k + 1) (tupleStart desc block slots k)).packed) := by
  obtain ⟨hfits, placed, up, hplaced, rfl⟩ := buildPage_steps h
  have hroom : pageHeaderSize + (0 + slots.length) * itemIdSize ≤ pageHeaderSize + slots.length * itemIdSize := by
    rw [Nat.zero_add]
  obtain ⟨hlen, -, -, -⟩ := placeSlots_ok List.length_replicate hfits (Nat.le_refl _) hroom hplaced
  -- A redirect leads to a slot of the page, and these are few.
  have hnarrow : ∀ t, Slot.redirect t ∈ slots → t < 2 ^ 15 := by
    intro t ht
    have := hredirect t ht
    simp only [pageHeaderSize, itemIdSize, pageSize] at hfits
    omega
  obtain ⟨rfl, hpointers⟩ :=
    placeSlots_pointers List.length_replicate hfits (Nat.le_refl _) hroom hnarrow hplaced
  obtain ⟨hlen', hsame, -⟩ := writePageHeader_ok hlen lsn (pageHeaderSize + slots.length * itemIdSize)
    (pageSize - slotSpace desc block 0 slots)
  obtain ⟨hupper, hspecial⟩ := writePageHeader_bounds hlen lsn (pageHeaderSize + slots.length * itemIdSize)
    (pageSize - slotSpace desc block 0 slots)
  generalize writePageHeader placed lsn _ _ = written at *
  -- The checksum is computed first and written last, into its own field.
  have hstamp : 8 + (toLe 2 (pgChecksumPage written block)).length ≤ written.length := by
    rw [toLe_length, hlen']
    decide
  obtain ⟨-, hsame'⟩ := splice_header hlen'
    (show 8 + (toLe 2 (pgChecksumPage written block)).length ≤ pageHeaderSize by rw [toLe_length]; decide)
  refine ⟨?_, ?_, ?_, fun k slot hk => ?_⟩
  · rw [slice_splice_apart hstamp (.inr (by rw [toLe_length]; decide))]
    exact hupper
  · rw [slice_splice_apart hstamp (.inr (by rw [toLe_length]; decide))]
    exact hspecial
  · rw [pgChecksumPage_splice (by rw [hlen']; decide) (toLe_length 2 _)]
    have hself := slice_splice_self hstamp
    rwa [toLe_length] at hself
  · have hitem := hpointers k slot hk
    rw [Nat.zero_add] at hitem
    rw [itemAt, hsame' _ _ (.inr (Nat.le_add_right _ _)), hsame _ _ (.inr (Nat.le_add_right _ _))]
    exact hitem

/-- Every line pointer is read back. -/
theorem linePointer_buildPage {page : Bytes} (hredirect : ∀ t, Slot.redirect t ∈ slots → t ≤ slots.length)
    (h : buildPage desc block lsn slots = .ok page) {k : Nat} {slot : Slot} (hk : slots[k]? = some slot) :
    linePointer page (k + 1) = .ok (slot.pointer desc block (k + 1) (tupleStart desc block slots k)) := by
  have hspace := buildPage_fits h
  have hstart := tupleStart_le desc block (by omega) hk
  have hlen := le_maxalign (slot.len desc block (k + 1))
  have hsize : pageSize < 2 ^ 15 := by decide
  obtain ⟨-, -, -, hpointers⟩ := buildPage_header hredirect h
  have hitem := hpointers k slot hk
  have hmem := List.mem_of_getElem? hk
  cases slot with
  | unused | dead => exact linePointer_item (by decide) (by decide) (by decide) hitem
  | redirect t =>
    have hle := hredirect t hmem
    simp only [pageHeaderSize, itemIdSize] at hspace
    exact linePointer_item (by omega) (by decide) (by decide) hitem
  | tuple | raw => exact linePointer_item (by omega) (by decide) (by omega) hitem

/-- The tuple behind the line pointer of a slot. -/
theorem slice_tupleStart {page : Bytes} (hredirect : ∀ t, Slot.redirect t ∈ slots → t ≤ slots.length)
    (h : buildPage desc block lsn slots = .ok page) {k : Nat} {slot : Slot} (hk : slots[k]? = some slot)
    {r : Except Fault Bytes} (hstored : slot.stored desc block (k + 1) = some r) :
    ∃ tup, r = .ok tup ∧ slice page (tupleStart desc block slots k) tup.length = some tup := by
  have hlp := linePointer_buildPage hredirect h hk
  have hsize : pageSize < 2 ^ 15 := by decide
  obtain ⟨-, -, -, hholds⟩ := buildPage_ok h
  -- The pointer of the slot is known, so it is where the tuple is.
  have hat : ∀ {tup : Bytes}, TupleAt page k tup →
      (slot.pointer desc block (k + 1) (tupleStart desc block slots k)).off = tupleStart desc block slots k →
      slice page (tupleStart desc block slots k) tup.length = some tup := by
    rintro tup ⟨off, -, hend, hitem, hslice⟩ hoff
    have hread := linePointer_item (by omega) (show 1 < 4 by decide) (by omega) hitem
    rw [hread] at hlp
    rwa [← hoff, ← Except.ok.inj hlp]
  have hslot := hholds k slot hk
  cases slot with
  | unused | dead | redirect => cases hstored
  | tuple | raw =>
    obtain ⟨tup, hencode, htuple⟩ := hslot
    obtain rfl := Option.some.inj hstored
    exact ⟨tup, hencode, hat htuple rfl⟩

theorem laidOut_buildPage {page : Bytes} (hredirect : ∀ t, Slot.redirect t ∈ slots → t ≤ slots.length)
    (h : buildPage desc block lsn slots = .ok page) {k : Nat} {slot : Slot} (hk : slots[k]? = some slot) :
    slot.LaidOut desc block page (pageSize - slotSpace desc block 0 slots) (k + 1)
      (slot.pointer desc block (k + 1) (tupleStart desc block slots k)) := by
  have hspace := buildPage_fits h
  have hstart := tupleStart_le desc block (by omega) hk
  have hlen := le_maxalign (slot.len desc block (k + 1))
  have hall := slotSpace_take_le desc block slots 0 (k + 1)
  have haligned : 8 ∣ tupleStart desc block slots k :=
    Nat.dvd_sub (by decide) (eight_dvd_slotSpace _ 0)
  have hup : pageSize - slotSpace desc block 0 slots ≤ tupleStart desc block slots k := by
    rw [tupleStart]
    omega
  have htuple : ∀ {r : Except Fault Bytes}, slot.stored desc block (k + 1) = some r →
      ∃ tup, slot.stored desc block (k + 1) = some (.ok tup) ∧ slot.len desc block (k + 1) = tup.length ∧
        slice page (tupleStart desc block slots k) (slot.len desc block (k + 1)) = some tup := by
    intro r hr
    obtain ⟨tup, rfl, hslice⟩ := slice_tupleStart hredirect h hk hr
    have hlen := Slot.len_of_stored hr
    exact ⟨tup, hr, hlen, by rw [hlen]; exact hslice⟩
  have hend : tupleStart desc block slots k + slot.len desc block (k + 1) ≤ pageSize := by omega
  cases slot with
  | unused | dead | redirect => rfl
  | tuple | raw => exact ⟨rfl, haligned, hup, hend, htuple rfl⟩

/-- Only the pointers of tuples are normal, and these hold the place and the length. -/
theorem Slot.pointer_normal {offnum off : Nat} {slot : Slot}
    (h : (slot.pointer desc block offnum off).flags = lpNormal) :
    slot.pointer desc block offnum off = { flags := lpNormal, off, len := slot.len desc block offnum } := by
  cases slot with
  | unused | dead | redirect => cases h
  | tuple | raw => rfl

/-- Storage of a later slot is below that of an earlier one. -/
theorem tupleStart_apart (hspace : slotSpace desc block 0 slots ≤ pageSize) {j k : Nat} {slot : Slot} (hjk : j < k)
    (hk : slots[k]? = some slot) :
    tupleStart desc block slots k + slot.len desc block (k + 1) ≤ tupleStart desc block slots j := by
  have hstart := tupleStart_le desc block hspace hk
  have hlen := le_maxalign (slot.len desc block (k + 1))
  have hmono := slotSpace_mono desc block slots 0 (show j + 1 ≤ k by omega)
  rw [tupleStart.eq_def desc block slots j]
  omega

/-- A page that is built has a sound geometry, and a page is not built only if line pointers
and tuples do not fit, a tuple cannot be encoded, or a redirect leads nowhere. -/
theorem buildPage_geometry (desc : TableDesc) (block : Nat) (lsn : Lsn) (slots : List Slot)
    (hredirect : ∀ t, Slot.redirect t ∈ slots → t ≤ slots.length) :
    (∀ page, buildPage desc block lsn slots = .ok page → ∃ up, SoundGeometry desc block slots page up) ∧
      ((∃ f, buildPage desc block lsn slots = .error f) ↔
        pageSize < pageHeaderSize + slots.length * itemIdSize + slotSpace desc block 0 slots ∨
          ∃ (k : Nat) (slot : Slot), slots[k]? = some slot ∧ ¬ slot.Placeable desc block (k + 1)) := by
  refine ⟨fun page h => ⟨pageSize - slotSpace desc block 0 slots, ?_⟩, buildPage_error_iff⟩
  have hspace := buildPage_fits h
  obtain ⟨hlength, -, hlower, -⟩ := buildPage_ok h
  obtain ⟨hupper, hspecial, hchecksum, -⟩ := buildPage_header hredirect h
  have hpointer : ∀ {k : Nat} {slot : Slot}, slots[k]? = some slot →
      linePointer page (k + 1) = .ok (slot.pointer desc block (k + 1) (tupleStart desc block slots k)) :=
    fun hk => linePointer_buildPage hredirect h hk
  exact {
    length := hlength
    lower := hlower
    upper := hupper
    special := hspecial
    lower_le := by omega
    upper_le := Nat.sub_le _ _
    pointers := fun k slot hk => ⟨_, hpointer hk, laidOut_buildPage hredirect h hk⟩
    checksum := hchecksum
    checksum_pos := pgChecksumPage_bounds page block
    apart := by
      intro j k lpj lpk hjk hk hlpj hlpk hnj hnk
      -- Line pointers are read back, so normal ones are those of tuples.
      have hj := List.getElem?_eq_getElem (show j < slots.length by omega)
      have hk' := List.getElem?_eq_getElem hk
      have heqj := Except.ok.inj ((hpointer hj).symm.trans hlpj)
      have heqk := Except.ok.inj ((hpointer hk').symm.trans hlpk)
      rw [← heqj] at hnj
      rw [← heqk] at hnk
      rw [← heqj, ← heqk, Slot.pointer_normal hnj, Slot.pointer_normal hnk]
      exact tupleStart_apart (by omega) hjk hk' }

end Built

/-- A redirect to a raw tuple, a dead line pointer and the raw tuple. -/
def redirectedSlots : List Slot :=
  [.redirect 3, .dead, .raw { attrs := [42, 0, 0, 0], nullBitmap := [], natts := 1, hasVarwidth := false, xmin := 100,
                              xmax := 0, ctid := none, heapOnly := true, hotUpdated := false }]

theorem redirectedSlots_built : ∃ page, buildPage .oneInt 7 0 redirectedSlots = .ok page := by
  cases hbuild : buildPage .oneInt 7 0 redirectedSlots with
  | ok page => exact ⟨page, rfl⟩
  | error f =>
    rcases buildPage_error_iff.mp ⟨f, hbuild⟩ with hspace | ⟨k, slot, hk, hno⟩
    · exact absurd hspace (by decide)
    · refine absurd ?_ hno
      match k, hk with
      | 0, hk => cases hk; exact ⟨fun t ht => (by cases ht; decide), nofun⟩
      | 1, hk => cases hk; exact ⟨nofun, nofun⟩
      | 2, hk => cases hk; exact ⟨nofun, fun r hr => by cases hr; exact ⟨_, rfl⟩⟩
      | k + 3, hk => cases hk

theorem buildPage_geometry_sample :
    ∃ page up, buildPage .oneInt 7 0 redirectedSlots = .ok page ∧ SoundGeometry .oneInt 7 redirectedSlots page up := by
  obtain ⟨page, hbuild⟩ := redirectedSlots_built
  have hredirect : ∀ t, Slot.redirect t ∈ redirectedSlots → t ≤ redirectedSlots.length := by
    intro t ht
    simp only [redirectedSlots, List.mem_cons, Slot.redirect.injEq, reduceCtorEq, List.not_mem_nil, or_false] at ht
    exact ht ▸ by decide
  obtain ⟨up, hup⟩ := (buildPage_geometry .oneInt 7 0 redirectedSlots hredirect).1 page hbuild
  exact ⟨page, up, hbuild, hup⟩

end Ltap
