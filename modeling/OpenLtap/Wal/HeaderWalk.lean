-- SUMMARY: The walk of the record parser over header items, and the bytes at which it or the restoring of an image panics.
import OpenLtap.Wal.PglzReads

/-!
# Header items

The layout of a header item, read off its bytes: what it is, how long it is, how much data
it announces. The parser takes the items one by one while there are more bytes left than
announced. Only two kinds of lengths that pass the checksum are not checked: the length of a
raw image with a hole, and the hole of a compressed one.
-/

namespace Ltap

/-- The little-endian integer of `n` bytes at an offset. -/
def field (c : Bytes) (off n : Nat) : Nat := fromLe ((c.drop off).take n)

theorem field_drop (c : Bytes) (k off n : Nat) : field (c.drop k) off n = field c (k + off) n := by
  rw [field, field, List.drop_drop]

theorem Cursor.uint_eq (n : Nat) (c : Bytes) :
    Cursor.uint n c = if c.length < n then .error (.truncated n) else .ok (field c 0 n, c.drop n) := by
  rw [Cursor.uint, Cursor.take]
  split <;> rfl

theorem Cursor.uint_of_le {n : Nat} {c : Bytes} (h : n ≤ c.length) :
    Cursor.uint n c = .ok (field c 0 n, c.drop n) := by
  rw [uint_eq, if_neg (by omega)]

theorem Cursor.uint_of_lt {n : Nat} {c : Bytes} (h : c.length < n) :
    Cursor.uint n c = .error (.truncated n) := by
  rw [uint_eq, if_pos h]

/-! ## Image headers -/

/-! The bytes are those from the image header on. -/

namespace ImageHeader

def HasHole (c : Bytes) : Prop := field c 4 1 &&& 0x01 ≠ 0

def Compressed (c : Bytes) : Prop := field c 4 1 &&& bkpimageCompressMask ≠ 0

instance (c : Bytes) : Decidable (HasHole c) := inferInstanceAs (Decidable (_ ≠ _))

instance (c : Bytes) : Decidable (Compressed c) := inferInstanceAs (Decidable (_ ≠ _))

def size (c : Bytes) : Nat := if HasHole c ∧ Compressed c then 7 else 5

/-- Written for a compressed image, what is left of a page for a raw one. -/
def holeLen (c : Bytes) : Nat :=
  if HasHole c then if Compressed c then field c 5 2 else xlogBlcksz - field c 0 2 else 0

/-- A raw image with a hole and longer than a page. -/
def OverlongRaw (c : Bytes) : Prop :=
  5 ≤ c.length ∧ HasHole c ∧ ¬ Compressed c ∧ xlogBlcksz < field c 0 2

instance (c : Bytes) : Decidable (OverlongRaw c) := inferInstanceAs (Decidable (_ ∧ _))

theorem five_le_size (c : Bytes) : 5 ≤ size c := by
  unfold size
  split <;> omega

/-- Behind the three fields that are always there. -/
theorem parseImageHeader_read {c : Bytes} (h : 5 ≤ c.length) :
    parseImageHeader c =
      if HasHole c then
        if Compressed c then
          if c.length < 7 then .error (.truncated 2)
          else .ok ((field c 0 2, field c 2 2, field c 5 2, field c 4 1), c.drop 7)
        else if xlogBlcksz < field c 0 2 then .error .panic
        else .ok ((field c 0 2, field c 2 2, xlogBlcksz - field c 0 2, field c 4 1), c.drop 5)
      else .ok ((field c 0 2, field c 2 2, 0, field c 4 1), c.drop 5) := by
  have h₇ : c.length - 5 < 2 ↔ c.length < 7 := by omega
  simp only [parseImageHeader, Cursor.uint_eq, List.length_drop, List.drop_drop, field_drop, bind,
    Except.bind, if_neg (show ¬ c.length < 2 by omega), if_neg (show ¬ c.length - 2 < 2 by omega),
    if_neg (show ¬ c.length - (2 + 2) < 1 by omega), Nat.reduceAdd, Nat.add_zero, h₇]
  by_cases hhole : HasHole c
  · have hbit : ¬ field c 4 1 &&& 0x01 = 0 := hhole
    rw [if_neg hbit, if_pos hhole]
    by_cases hcomp : Compressed c
    · have hmask : field c 4 1 &&& bkpimageCompressMask ≠ 0 := hcomp
      rw [if_pos hmask, if_pos hcomp]
      by_cases hlen : c.length < 7
      · rw [if_pos hlen, if_pos hlen]
      · rw [if_neg hlen, if_neg hlen]
        rfl
    · have hmask : ¬ field c 4 1 &&& bkpimageCompressMask ≠ 0 := hcomp
      rw [if_neg hmask, if_neg hcomp]
      split <;> rfl
  · have hbit : field c 4 1 &&& 0x01 = 0 := not_not.mp hhole
    rw [if_pos hbit, if_neg hhole]
    rfl

theorem parseImageHeader_short {c : Bytes} (h : c.length < 5) :
    ∃ n, parseImageHeader c = .error (.truncated n) := by
  simp only [parseImageHeader, Cursor.uint_eq, bind, Except.bind]
  by_cases h₂ : c.length < 2
  · exact ⟨2, by rw [if_pos h₂]⟩
  · rw [if_neg h₂]
    by_cases h₄ : (c.drop 2).length < 2
    · exact ⟨2, by simp only [if_pos h₄]⟩
    · have h₁ : ((c.drop 2).drop 2).length < 1 := by
        rw [List.length_drop, List.length_drop]
        omega
      exact ⟨1, by simp only [if_neg h₄, if_pos h₁]⟩

/-- An image header is overlong, or is read, or is cut off. -/
theorem parseImageHeader_cases (c : Bytes) :
    (OverlongRaw c ∧ parseImageHeader c = .error .panic) ∨
      (¬ OverlongRaw c ∧ size c ≤ c.length ∧
        parseImageHeader c = .ok ((field c 0 2, field c 2 2, holeLen c, field c 4 1), c.drop (size c))) ∨
      (¬ OverlongRaw c ∧ c.length < size c ∧ ∃ n, parseImageHeader c = .error (.truncated n)) := by
  by_cases h₅ : c.length < 5
  · have hsize := five_le_size c
    exact .inr (.inr ⟨fun h => by have := h.1; omega, by omega, parseImageHeader_short h₅⟩)
  · rw [parseImageHeader_read (by omega)]
    unfold size holeLen OverlongRaw
    by_cases hhole : HasHole c
    · by_cases hcomp : Compressed c
      · simp only [hhole, hcomp, not_true_eq_false, and_true, if_true, false_and, and_false, not_false_eq_true,
          true_and, false_or]
        by_cases h₇ : c.length < 7
        · exact .inr ⟨h₇, 2, if_pos h₇⟩
        · exact .inl ⟨by omega, if_neg h₇⟩
      · simp only [hhole, hcomp, not_false_eq_true, and_false, if_true, if_false, true_and]
        by_cases hlong : xlogBlcksz < field c 0 2
        · exact .inl ⟨⟨by omega, hlong⟩, if_pos hlong⟩
        · exact .inr (.inl ⟨fun h => hlong h.2, by omega, if_neg hlong⟩)
    · simp only [hhole, false_and, and_false, if_false, not_false_eq_true, true_and, false_or]
      exact .inl ⟨by omega, trivial⟩

end ImageHeader

/-! ## Items -/

/-! The bytes are those from the item on. -/

namespace HeaderItem

def id (c : Bytes) : Nat := field c 0 1

def forkFlags (c : Bytes) : Nat := field c 1 1

def IsBlock (c : Bytes) : Prop := id c ≤ xlrMaxBlockId

def HasImage (c : Bytes) : Prop := IsBlock c ∧ forkFlags c &&& 0x10 ≠ 0

def SameRel (c : Bytes) : Prop := IsBlock c ∧ forkFlags c &&& 0x80 ≠ 0

instance (c : Bytes) : Decidable (IsBlock c) := inferInstanceAs (Decidable (_ ≤ _))

instance (c : Bytes) : Decidable (HasImage c) := inferInstanceAs (Decidable (_ ∧ _))

instance (c : Bytes) : Decidable (SameRel c) := inferInstanceAs (Decidable (_ ∧ _))

/-- The image header of a block. -/
def image (c : Bytes) : Bytes := c.drop 4

def imageSize (c : Bytes) : Nat := if HasImage c then ImageHeader.size (image c) else 0

def relSize (forkFlags : Nat) : Nat := if forkFlags &&& 0x80 ≠ 0 then 0 else 12

/-- How many bytes the item takes. -/
def size (c : Bytes) : Nat :=
  if IsBlock c then 4 + imageSize c + relSize (forkFlags c) + 4
  else if id c = 255 then 2
  else if id c = 253 then 3
  else 5

def IsMain (c : Bytes) : Prop := id c = 255 ∨ id c = 254

instance (c : Bytes) : Decidable (IsMain c) := inferInstanceAs (Decidable (_ ∨ _))

def imageLen (c : Bytes) : Nat := if HasImage c then field (image c) 0 2 else 0

def dataLen (c : Bytes) : Nat := if forkFlags c &&& 0x20 ≠ 0 then field c 2 2 else 0

/-- How many bytes of data it announces. -/
def payload (c : Bytes) : Nat :=
  if IsBlock c then imageLen c + dataLen c
  else if id c = 255 then field c 1 1
  else if id c = 254 then field c 1 4
  else 0

/-- The item is there in full and makes sense where it stands, `first` if there is no block
before it. -/
def Readable (first : Bool) (c : Bytes) : Prop :=
  (IsBlock c ∨ 252 ≤ id c) ∧ size c ≤ c.length ∧ c ≠ [] ∧ (SameRel c → first = false)

/-- A block with an overlong raw image. -/
def OverlongRaw (c : Bytes) : Prop := HasImage c ∧ ImageHeader.OverlongRaw (image c)

/-- A compressed image whose hole is longer than a page. -/
def OverlongHole (c : Bytes) : Prop := HasImage c ∧ xlogBlcksz < ImageHeader.holeLen (image c)

instance (c : Bytes) : Decidable (OverlongRaw c) := inferInstanceAs (Decidable (_ ∧ _))

instance (c : Bytes) : Decidable (OverlongHole c) := inferInstanceAs (Decidable (_ ∧ _))

end HeaderItem

/-- A parsed block header as the bytes of its item say. -/
structure HdrBlock.Describes (hb : HdrBlock) (c : Bytes) : Prop where
  isBlock : HeaderItem.IsBlock c
  hasImage : hb.hasImage = decide (HeaderItem.HasImage c)
  imageLen : HeaderItem.HasImage c → hb.imageLen = HeaderItem.imageLen c
  holeLen : HeaderItem.HasImage c → hb.holeLen = ImageHeader.holeLen (HeaderItem.image c)
  dataLen : (if hb.hasData then hb.dataLen else 0) = HeaderItem.dataLen c

open HeaderItem in
/-- What an item adds to the state. -/
structure HdrState.Notes (s : HdrState) (c : Bytes) (s' : HdrState) : Prop where
  datatotal : s'.datatotal = s.datatotal + payload c
  mainLen : s'.mainLen = if IsMain c then payload c else s.mainLen
  prevRel : s'.prevRel.isSome = (s.prevRel.isSome || decide (IsBlock c))
  blocks : (¬ IsBlock c ∧ s'.blocks = s.blocks) ∨
    ∃ hb : HdrBlock, hb.Describes c ∧ s'.blocks = s.blocks ++ [hb]

namespace HeaderItem

theorem parseRel_cases (forkFlags : Nat) (prevRel : Option RelTag) (c : Bytes) :
    (relSize forkFlags ≤ c.length ∧ (forkFlags &&& 0x80 ≠ 0 → prevRel.isSome = true) ∧
        ∃ rel, parseRel forkFlags prevRel c = .ok (rel, c.drop (relSize forkFlags))) ∨
      (¬ (relSize forkFlags ≤ c.length ∧ (forkFlags &&& 0x80 ≠ 0 → prevRel.isSome = true)) ∧
        ∃ e, e ≠ .panic ∧ parseRel forkFlags prevRel c = .error e) := by
  unfold parseRel relSize
  by_cases hsame : forkFlags &&& 0x80 ≠ 0
  · rw [if_pos hsame, if_pos hsame]
    cases prevRel with
    | none => exact .inr ⟨fun h => absurd (h.2 hsame) (by decide), .sameRelFirst, nofun, rfl⟩
    | some rel => exact .inl ⟨Nat.zero_le _, fun _ => rfl, rel, rfl⟩
  · rw [if_neg hsame, if_neg hsame]
    by_cases hshort : c.length < 12
    · refine .inr ⟨fun h => by have := h.1; omega, .truncated 4, nofun, ?_⟩
      by_cases h₁ : c.length < 4
      · simp only [Cursor.uint_of_lt h₁, bind, Except.bind]
      · have hlen₁ : (c.drop 4).length = c.length - 4 := List.length_drop
        by_cases h₂ : (c.drop 4).length < 4
        · simp only [Cursor.uint_of_le (not_lt.mp h₁), Cursor.uint_of_lt h₂, bind, Except.bind]
        · have h₃ : ((c.drop 4).drop 4).length < 4 := by
            rw [List.length_drop]
            omega
          simp only [Cursor.uint_of_le (not_lt.mp h₁), Cursor.uint_of_le (not_lt.mp h₂),
            Cursor.uint_of_lt h₃, bind, Except.bind]
    · have h₂ : 4 ≤ (c.drop 4).length := by
        rw [List.length_drop]
        omega
      have h₃ : 4 ≤ ((c.drop 4).drop 4).length := by
        rw [List.length_drop, List.length_drop]
        omega
      have hdrop : ((c.drop 4).drop 4).drop 4 = c.drop 12 := by rw [List.drop_drop, List.drop_drop]
      refine .inl ⟨by omega, fun h => absurd h hsame,
        ⟨field c 0 4, field (c.drop 4) 0 4, field ((c.drop 4).drop 4) 0 4⟩, ?_⟩
      simp only [Cursor.uint_of_le (show 4 ≤ c.length by omega), Cursor.uint_of_le h₂,
        Cursor.uint_of_le h₃, hdrop, bind, Except.bind]
      rfl

/-- The parsed header of a block, from what its image header and the rest tell. -/
def hdr (c : Bytes) (rel : RelTag) (blkno : Nat) (img : Nat × Nat × Nat × Nat) : HdrBlock :=
  { id := id c, rel, blkno, hasImage := HasImage c, imageLen := img.1, holeOffset := img.2.1,
    holeLen := img.2.2.1, bimgInfo := img.2.2.2, hasData := forkFlags c &&& 0x20 ≠ 0,
    dataLen := field c 2 2 }

/-- The state with it. -/
def noted (s : HdrState) (c : Bytes) (rel : RelTag) (blkno : Nat) (img : Nat × Nat × Nat × Nat) : HdrState :=
  { s with
    blocks := s.blocks ++ [hdr c rel blkno img]
    datatotal := s.datatotal + img.1 + dataLen c
    prevRel := some rel }

/-- The image header of a block that has an image. -/
def readImage (c : Bytes) : Except ParseError ((Nat × Nat × Nat × Nat) × Bytes) :=
  if HasImage c then parseImageHeader (image c) else pure ((0, 0, 0, 0), image c)

/-- A block header from its fixed part on. -/
theorem parseBlockHeader_image (s : HdrState) {c : Bytes} (hlen : 4 ≤ c.length) (hblock : IsBlock c) :
    parseBlockHeader (id c) s (c.drop 1) = (do
      let (img, c') ← readImage c
      let (rel, c') ← parseRel (forkFlags c) s.prevRel c'
      let (blkno, c') ← Cursor.uint 4 c'
      return (noted s c rel blkno img, c')) := by
  have h₁ : 1 ≤ (c.drop 1).length := by
    rw [List.length_drop]
    omega
  have h₂ : 2 ≤ ((c.drop 1).drop 1).length := by
    rw [List.length_drop, List.length_drop]
    omega
  have himage : HasImage c ↔ forkFlags c &&& 0x10 ≠ 0 := and_iff_right hblock
  have hdrop : ((c.drop 1).drop 1).drop 2 = image c := by
    rw [List.drop_drop, List.drop_drop, image]
  have hflags : field (c.drop 1) 0 1 = forkFlags c := field_drop c 1 0 1
  have hdata : field ((c.drop 1).drop 1) 0 2 = field c 2 2 := by
    rw [List.drop_drop, field_drop]
  simp only [parseBlockHeader, Cursor.uint_of_le h₁, Cursor.uint_of_le h₂, bind, Except.bind, hdrop,
    hflags, hdata, readImage, himage, noted, hdr, dataLen]
  split <;> rfl

theorem readImage_cases (c : Bytes) :
    (OverlongRaw c ∧ readImage c = .error .panic) ∨
      (¬ OverlongRaw c ∧ imageSize c ≤ (image c).length ∧ ∃ img : Nat × Nat × Nat × Nat,
        readImage c = .ok (img, (image c).drop (imageSize c)) ∧ img.1 = imageLen c ∧
          (HasImage c → img.2.2.1 = ImageHeader.holeLen (image c))) ∨
      (¬ OverlongRaw c ∧ (image c).length < imageSize c ∧ ∃ n, readImage c = .error (.truncated n)) := by
  unfold readImage OverlongRaw imageSize imageLen
  -- Without an image there is nothing to read and no hole.
  by_cases himage : HasImage c
  · simp only [himage, true_and, if_true, forall_const]
    rcases ImageHeader.parseImageHeader_cases (image c) with h | ⟨hnot, hsize, hread⟩ | h
    · exact .inl h
    · exact .inr (.inl ⟨hnot, hsize, _, hread, rfl, rfl⟩)
    · exact .inr (.inr h)
  · simp only [himage, false_and, if_false, not_false_eq_true, true_and, false_or]
    exact .inl ⟨Nat.zero_le _, (0, 0, 0, 0), rfl, rfl, nofun⟩

/-- A block noted with what its image header says. -/
theorem notes_noted (s : HdrState) {c : Bytes} (hblock : IsBlock c) (rel : RelTag) (blkno : Nat)
    {img : Nat × Nat × Nat × Nat} (hlen : img.1 = imageLen c)
    (hhole : HasImage c → img.2.2.1 = ImageHeader.holeLen (image c)) :
    s.Notes c (noted s c rel blkno img) := by
  have hmain : ¬ IsMain c := by
    unfold IsBlock xlrMaxBlockId at hblock
    unfold IsMain
    omega
  constructor
  · show s.datatotal + img.1 + dataLen c = s.datatotal + payload c
    rw [payload, if_pos hblock, hlen, Nat.add_assoc]
  · rw [if_neg hmain]
    rfl
  · rw [decide_eq_true hblock, Bool.or_true]
    rfl
  · refine .inr ⟨hdr c rel blkno img, ⟨hblock, rfl, fun _ => hlen, hhole, ?_⟩, rfl⟩
    simp only [hdr, decide_eq_true_eq, dataLen]

/-- What the parser does with a block: the image is overlong, the state notes the block, or
there is an error. -/
theorem parseBlockHeader_cases (s : HdrState) {c : Bytes} (hlen : 4 ≤ c.length) (hblock : IsBlock c) :
    (OverlongRaw c ∧ parseBlockHeader (id c) s (c.drop 1) = .error .panic) ∨
      (¬ OverlongRaw c ∧ Readable s.prevRel.isNone c ∧
        ∃ s', s.Notes c s' ∧ parseBlockHeader (id c) s (c.drop 1) = .ok (s', c.drop (size c))) ∨
      (¬ OverlongRaw c ∧ ¬ Readable s.prevRel.isNone c ∧
        ∃ e, e ≠ .panic ∧ parseBlockHeader (id c) s (c.drop 1) = .error e) := by
  rw [parseBlockHeader_image s hlen hblock]
  have hsize : size c = 4 + imageSize c + relSize (forkFlags c) + 4 := if_pos hblock
  have himage : (image c).length = c.length - 4 := List.length_drop
  have hsame : SameRel c ↔ forkFlags c &&& 0x80 ≠ 0 := and_iff_right hblock
  -- The parts are read in order; the first that fails decides.
  rcases readImage_cases c with ⟨hlong, hread⟩ | ⟨hnot, hfits, img, hread, himg, hhole⟩ | ⟨hnot, hcut, n, hread⟩
  · exact .inl ⟨hlong, by rw [hread]; rfl⟩
  · rw [hread]
    simp only [bind, Except.bind]
    have hrest : ((image c).drop (imageSize c)).length = c.length - 4 - imageSize c := by
      rw [List.length_drop, himage]
    -- The relation needs its bytes, or an earlier block to repeat.
    rcases parseRel_cases (forkFlags c) s.prevRel ((image c).drop (imageSize c)) with
      ⟨hrel, hprev, rel, hparse⟩ | ⟨hbad, e, hne, hparse⟩
    · rw [hparse]
      have hdrop : (((image c).drop (imageSize c)).drop (relSize (forkFlags c))).length =
          c.length - 4 - imageSize c - relSize (forkFlags c) := by rw [List.length_drop, hrest]
      by_cases hblkno : 4 ≤ (((image c).drop (imageSize c)).drop (relSize (forkFlags c))).length
      · have hend : (((image c).drop (imageSize c)).drop (relSize (forkFlags c))).drop 4 = c.drop (size c) := by
          rw [image, List.drop_drop, List.drop_drop, List.drop_drop, hsize]
          congr 1
          omega
        refine .inr (.inl ⟨hnot, ⟨.inl hblock, by omega, ?_, ?_⟩, _,
          notes_noted s hblock rel (field (((image c).drop (imageSize c)).drop (relSize (forkFlags c))) 0 4) himg
            hhole, ?_⟩)
        · rintro rfl
          exact absurd hlen (by decide)
        · intro h
          rw [Option.isNone_eq_false_iff]
          exact hprev (hsame.mp h)
        · simp only [Cursor.uint_of_le hblkno, hend]
          rfl
      · refine .inr (.inr ⟨hnot, fun h => ?_, .truncated 4, nofun, ?_⟩)
        · have := h.2.1
          omega
        · simp only [Cursor.uint_of_lt (not_le.mp hblkno)]
    · rw [hparse]
      refine .inr (.inr ⟨hnot, fun h => hbad ⟨?_, fun hflag => ?_⟩, e, hne, rfl⟩)
      · have := h.2.1
        omega
      · exact Option.isSome_iff_ne_none.mpr fun hnone => by
          have := h.2.2.2 (hsame.mpr hflag)
          rw [hnone] at this
          cases this
  · refine .inr (.inr ⟨hnot, fun h => ?_, .truncated n, nofun, by rw [hread]; rfl⟩)
    have := h.2.1
    omega

theorem not_overlongRaw {c : Bytes} (h : ¬ IsBlock c) : ¬ OverlongRaw c := fun hlong => h hlong.1.1

/-- An item that is no block, and how far it is read. -/
theorem readable_iff {c : Bytes} {n : Nat} {first : Bool} (hblock : ¬ IsBlock c) (hid : 252 ≤ id c)
    (hne : c ≠ []) (hsize : size c = n) : Readable first c ↔ n ≤ c.length := by
  have hsame : ¬ SameRel c := fun h => hblock h.1
  simp only [Readable, hsize, hid, or_true, hne, ne_eq, not_false_eq_true, true_and, hsame,
    false_implies, and_true]

/-- What an item does that is no block. -/
theorem notes_other {s s' : HdrState} {c : Bytes} (hblock : ¬ IsBlock c)
    (htotal : s'.datatotal = s.datatotal + payload c)
    (hmain : s'.mainLen = if IsMain c then payload c else s.mainLen)
    (hprev : s'.prevRel = s.prevRel) (hblocks : s'.blocks = s.blocks) : s.Notes c s' where
  datatotal := htotal
  mainLen := hmain
  prevRel := by rw [hprev, decide_eq_false hblock, Bool.or_false]
  blocks := .inl ⟨hblock, hblocks⟩

/-- The header of the main data, with a length of `n` bytes. -/
theorem mainHeader_cases (s : HdrState) {c : Bytes} {n : Nat} (hne : c ≠ []) (hblock : ¬ IsBlock c)
    (hmain : IsMain c) (hsize : size c = 1 + n) (hpayload : payload c = field c 1 n)
    (hid : 252 ≤ id c)
    (hparse : parseHeaderItem s c = (do
      let (mainLen, c') ← Cursor.uint n (c.drop 1)
      return ({ s with mainLen, datatotal := s.datatotal + mainLen }, c'))) :
    (Readable s.prevRel.isNone c ∧
        ∃ s', s.Notes c s' ∧ parseHeaderItem s c = .ok (s', c.drop (size c))) ∨
      (¬ Readable s.prevRel.isNone c ∧ ∃ e, e ≠ .panic ∧ parseHeaderItem s c = .error e) := by
  rw [hparse, readable_iff hblock hid hne hsize, hsize]
  have hdrop : (c.drop 1).length = c.length - 1 := List.length_drop
  have hpos := List.length_pos_iff.mpr hne
  by_cases hlen : n ≤ (c.drop 1).length
  · refine .inl ⟨by omega, { s with mainLen := payload c, datatotal := s.datatotal + payload c }, ?_, ?_⟩
    · exact notes_other hblock rfl (if_pos hmain).symm rfl rfl
    · rw [Cursor.uint_of_le hlen, field_drop, List.drop_drop, hpayload]
      rfl
  · refine .inr ⟨by omega, .truncated n, nofun, ?_⟩
    rw [Cursor.uint_of_lt (not_le.mp hlen)]
    rfl

/-- An item that is skipped, of `n` bytes behind its id. -/
theorem skipped_cases (s : HdrState) {c : Bytes} {n : Nat} (hne : c ≠ []) (hblock : ¬ IsBlock c)
    (hmain : ¬ IsMain c) (hsize : size c = 1 + n) (hpayload : payload c = 0) (hid : 252 ≤ id c)
    (hparse : parseHeaderItem s c = (do
      let (_, c') ← Cursor.take n (c.drop 1)
      return (s, c'))) :
    (Readable s.prevRel.isNone c ∧
        ∃ s', s.Notes c s' ∧ parseHeaderItem s c = .ok (s', c.drop (size c))) ∨
      (¬ Readable s.prevRel.isNone c ∧ ∃ e, e ≠ .panic ∧ parseHeaderItem s c = .error e) := by
  rw [hparse, readable_iff hblock hid hne hsize, hsize, Cursor.take]
  have hdrop : (c.drop 1).length = c.length - 1 := List.length_drop
  have hpos := List.length_pos_iff.mpr hne
  by_cases hlen : (c.drop 1).length < n
  · rw [if_pos hlen]
    exact .inr ⟨by omega, .truncated n, nofun, rfl⟩
  · rw [if_neg hlen, List.drop_drop]
    exact .inl ⟨by omega, s, notes_other hblock (by rw [hpayload, Nat.add_zero]) (if_neg hmain).symm rfl rfl, rfl⟩

theorem parseBlockHeader_short (s : HdrState) {c : Bytes} (h : c.length < 4) :
    ∃ n, parseBlockHeader (id c) s (c.drop 1) = .error (.truncated n) := by
  simp only [parseBlockHeader, bind, Except.bind]
  by_cases h₁ : (c.drop 1).length < 1
  · exact ⟨1, by rw [Cursor.uint_of_lt h₁]⟩
  · have h₂ : ((c.drop 1).drop 1).length < 2 := by
      rw [List.length_drop, List.length_drop]
      omega
    exact ⟨2, by simp only [Cursor.uint_of_le (not_lt.mp h₁), Cursor.uint_of_lt h₂]⟩

theorem id_lt (c : Bytes) : id c < 256 := by
  refine (fromLe_lt _).trans_le (Nat.pow_le_pow_right (by decide) (List.length_take_le 1 _))

theorem parseHeaderItem_other (s : HdrState) {c : Bytes} (hne : c ≠ []) (hblock : ¬ IsBlock c) :
    (Readable s.prevRel.isNone c ∧
        ∃ s', s.Notes c s' ∧ parseHeaderItem s c = .ok (s', c.drop (size c))) ∨
      (¬ Readable s.prevRel.isNone c ∧ ∃ e, e ≠ .panic ∧ parseHeaderItem s c = .error e) := by
  have hfirst : Cursor.uint 1 c = .ok (id c, c.drop 1) := Cursor.uint_of_le (List.length_pos_iff.mpr hne)
  have hlt := id_lt c
  have hge : ¬ id c ≤ xlrMaxBlockId := hblock
  have hsize : size c = if id c = 255 then 2 else if id c = 253 then 3 else 5 := if_neg hblock
  have hpayload : payload c = if id c = 255 then field c 1 1 else if id c = 254 then field c 1 4 else 0 :=
    if_neg hblock
  -- The four ids behind the blocks, in the order in which the source tests them.
  by_cases h₁ : id c = 255
  · refine mainHeader_cases s hne hblock (.inl h₁) (n := 1) ?_ ?_ (by omega) ?_
    · rw [hsize, if_pos h₁]
    · rw [hpayload, if_pos h₁]
    · simp only [parseHeaderItem, hfirst, bind, Except.bind, if_pos h₁]
  by_cases h₂ : id c = 254
  · refine mainHeader_cases s hne hblock (.inr h₂) (n := 4) ?_ ?_ (by omega) ?_
    · rw [hsize, if_neg h₁, if_neg (by omega)]
    · rw [hpayload, if_neg h₁, if_pos h₂]
    · simp only [parseHeaderItem, hfirst, bind, Except.bind, if_neg h₁, if_pos h₂]
  have hmain : ¬ IsMain c := fun h => h.elim h₁ h₂
  have hzero : payload c = 0 := by rw [hpayload, if_neg h₁, if_neg h₂]
  by_cases h₃ : id c = 253
  · refine skipped_cases s hne hblock hmain (n := 2) ?_ hzero (by omega) ?_
    · rw [hsize, if_neg h₁, if_pos h₃]
    · simp only [parseHeaderItem, hfirst, bind, Except.bind, if_neg h₁, if_neg h₂, if_pos h₃]
  by_cases h₄ : id c = 252
  · refine skipped_cases s hne hblock hmain (n := 4) ?_ hzero (by omega) ?_
    · rw [hsize, if_neg h₁, if_neg h₃]
    · simp only [parseHeaderItem, hfirst, bind, Except.bind, if_neg h₁, if_neg h₂, if_neg h₃, if_pos h₄]
  refine .inr ⟨fun h => h.1.elim hblock (by omega), .invalidBlockId (id c), nofun, ?_⟩
  simp only [parseHeaderItem, hfirst, bind, Except.bind, if_neg h₁, if_neg h₂, if_neg h₃, if_neg h₄, if_neg hge]

/-- What the parser does with an item: the image is overlong, the state notes the item, or
there is an error. -/
theorem parseHeaderItem_cases (s : HdrState) (c : Bytes) :
    (OverlongRaw c ∧ parseHeaderItem s c = .error .panic) ∨
      (¬ OverlongRaw c ∧ Readable s.prevRel.isNone c ∧
        ∃ s', s.Notes c s' ∧ parseHeaderItem s c = .ok (s', c.drop (size c))) ∨
      (¬ OverlongRaw c ∧ ¬ Readable s.prevRel.isNone c ∧
        ∃ e, e ≠ .panic ∧ parseHeaderItem s c = .error e) := by
  by_cases hne : c = []
  · subst hne
    exact .inr (.inr ⟨fun h => absurd h.2.1 (by decide), fun h => h.2.2.1 rfl, .truncated 1, nofun, rfl⟩)
  by_cases hblock : IsBlock c
  · have hfirst : Cursor.uint 1 c = .ok (id c, c.drop 1) := Cursor.uint_of_le (List.length_pos_iff.mpr hne)
    have hle : id c ≤ xlrMaxBlockId := hblock
    have hle' : id c ≤ 32 := hblock
    have hparse : parseHeaderItem s c = parseBlockHeader (id c) s (c.drop 1) := by
      simp only [parseHeaderItem, hfirst, bind, Except.bind]
      -- The ids of blocks lie below all the others.
      rw [if_neg (by omega), if_neg (by omega), if_neg (by omega), if_neg (by omega), if_pos hle]
    rw [hparse]
    by_cases hlen : 4 ≤ c.length
    · exact parseBlockHeader_cases s hlen hblock
    · obtain ⟨n, hshort⟩ := parseBlockHeader_short s (not_le.mp hlen)
      have himage : (image c).length = c.length - 4 := List.length_drop
      have hsize : size c = 4 + imageSize c + relSize (forkFlags c) + 4 := if_pos hblock
      refine .inr (.inr ⟨fun h => ?_, fun h => ?_, .truncated n, nofun, hshort⟩)
      · have := h.2.1
        omega
      · have := h.2.1
        omega
  · have hnot := not_overlongRaw hblock
    exact .inr ((parseHeaderItem_other s hne hblock).imp (And.intro hnot) (And.intro hnot))

end HeaderItem

/-! ## The walk -/

open HeaderItem

/-- How many bytes of data the items announce together. -/
def announced (items : List Bytes) : Nat := (items.map payload).sum

/-- The length of the main data: the last header of it counts. -/
def mainLen (items : List Bytes) : Nat :=
  items.foldl (fun n c => if IsMain c then payload c else n) 0

def blockItems (items : List Bytes) : List Bytes := items.filter (IsBlock ·)

/-- How many bytes the data section takes. -/
def used (items : List Bytes) : Nat := ((blockItems items).map payload).sum + mainLen items

/-- The items the parser passes, each where there are more bytes left than announced, and
the bytes behind them. -/
inductive HeadersTo (start : Bytes) : List Bytes → Bytes → Prop where
  | nil : HeadersTo start [] start
  | snoc {items : List Bytes} {c : Bytes} (walk : HeadersTo start items c) (more : announced items < c.length)
      (readable : Readable (blockItems items).isEmpty c) (short : ¬ OverlongRaw c) :
      HeadersTo start (items ++ [c]) (c.drop (size c))

/-- The state of the parser behind a list of items. -/
structure HdrState.Tracks (s : HdrState) (items : List Bytes) : Prop where
  datatotal : s.datatotal = announced items
  mainLen : s.mainLen = Ltap.mainLen items
  prevRel : s.prevRel.isNone = (blockItems items).isEmpty
  blocks : List.Forall₂ HdrBlock.Describes s.blocks (blockItems items)

def HdrState.initial : HdrState := { blocks := [], mainLen := 0, datatotal := 0, prevRel := none }

theorem HdrState.tracks_initial : HdrState.initial.Tracks [] := ⟨rfl, rfl, rfl, .nil⟩

theorem HdrState.Tracks.notes {s s' : HdrState} {items : List Bytes} {c : Bytes} (h : s.Tracks items)
    (hnotes : s.Notes c s') : s'.Tracks (items ++ [c]) where
  datatotal := by
    rw [hnotes.datatotal, h.datatotal, announced, announced, List.map_append, List.sum_append]
    rfl
  mainLen := by
    rw [hnotes.mainLen, h.mainLen, Ltap.mainLen, Ltap.mainLen, List.foldl_append]
    rfl
  prevRel := by
    have hprev := h.prevRel
    rw [← Bool.not_inj_iff, Option.not_isNone] at hprev ⊢
    rw [hnotes.prevRel, hprev, blockItems, blockItems, List.filter_append]
    by_cases hblock : IsBlock c <;> simp [hblock]
  blocks := by
    rw [blockItems, List.filter_append]
    rcases hnotes.blocks with ⟨hblock, heq⟩ | ⟨hb, hdescribes, heq⟩
    · rw [heq, List.filter_singleton, decide_eq_false hblock]
      simpa [blockItems] using h.blocks
    · rw [heq, List.filter_singleton, decide_eq_true hdescribes.isBlock]
      exact List.rel_append h.blocks (.cons hdescribes .nil)

theorem HeaderItem.two_le_size (c : Bytes) : 2 ≤ size c := by
  unfold size
  split
  · omega
  · split
    · omega
    · split <;> omega

/-- The loop at an item it passes. -/
theorem parseHeaders_item {s s' : HdrState} {items : List Bytes} {c : Bytes} (htracks : s.Tracks items)
    (hmore : announced items < c.length) (hitem : parseHeaderItem s c = .ok (s', c.drop (size c))) {fuel : Nat}
    (hfuel : c.length ≤ fuel) :
    ∃ fuel', (c.drop (size c)).length ≤ fuel' ∧
      parseHeaders fuel s c = parseHeaders fuel' s' (c.drop (size c)) := by
  have hsize := two_le_size c
  have hdrop : (c.drop (size c)).length = c.length - size c := List.length_drop
  -- An item has at least two bytes, so the fuel that covers the rest is enough.
  obtain ⟨fuel, rfl⟩ : ∃ m, fuel = m + 1 := ⟨fuel - 1, by omega⟩
  refine ⟨fuel, by omega, ?_⟩
  rw [parseHeaders, htracks.datatotal, if_pos hmore, hitem]
  rfl

/-- The parser comes to every place of the walk. -/
theorem HeadersTo.reached {start : Bytes} {items : List Bytes} {c : Bytes} (h : HeadersTo start items c)
    {fuel : Nat} (hfuel : start.length ≤ fuel) :
    ∃ s fuel', s.Tracks items ∧ c.length ≤ fuel' ∧
      parseHeaders fuel HdrState.initial start = parseHeaders fuel' s c := by
  induction h with
  | nil => exact ⟨_, fuel, HdrState.tracks_initial, hfuel, rfl⟩
  | @snoc items c _ hmore hreadable hshort ih =>
    obtain ⟨s, fuel', htracks, hfuel', heq⟩ := ih
    rcases parseHeaderItem_cases s c with ⟨hlong, -⟩ | ⟨-, -, s', hnotes, hitem⟩ | ⟨-, hbad, -⟩
    · exact absurd hlong hshort
    -- The walk went on here, so the parser did not fail.
    · obtain ⟨fuel'', hfuel'', hnext⟩ := parseHeaders_item htracks hmore hitem hfuel'
      exact ⟨s', fuel'', htracks.notes hnotes, hfuel'', heq.trans hnext⟩
    · rw [htracks.prevRel] at hbad
      exact absurd hreadable hbad

/-- How the header section ends: at an overlong image, with an error, or in front of the
data. -/
theorem parseHeaders_cases {start : Bytes} (fuel : Nat) :
    ∀ {s : HdrState} {items : List Bytes} {c : Bytes}, HeadersTo start items c → s.Tracks items →
      c.length ≤ fuel →
      (parseHeaders fuel s c = .error .panic ∧ ∃ items' c', HeadersTo start items' c' ∧
          announced items' < c'.length ∧ OverlongRaw c') ∨
        (∃ e, e ≠ .panic ∧ parseHeaders fuel s c = .error e) ∨
        ∃ s' items' c', parseHeaders fuel s c = .ok (s', c') ∧ HeadersTo start items' c' ∧
          s'.Tracks items' ∧ c'.length ≤ announced items' := by
  induction fuel with
  | zero =>
    intro s items c hwalk htracks hlen
    exact .inr (.inr ⟨s, items, c, rfl, hwalk, htracks, hlen.trans (Nat.zero_le _)⟩)
  | succ fuel ih =>
    intro s items c hwalk htracks hlen
    -- The loop goes on while more bytes are left than the items have announced.
    by_cases hmore : announced items < c.length
    · have hloop : c.length > s.datatotal := htracks.datatotal ▸ hmore
      rw [parseHeaders, if_pos hloop]
      rcases parseHeaderItem_cases s c with
        ⟨hlong, hitem⟩ | ⟨hshort, hreadable, s', hnotes, hitem⟩ | ⟨-, -, e, hne, hitem⟩
      · rw [hitem]
        exact .inl ⟨rfl, items, c, hwalk, hmore, hlong⟩
      · rw [hitem]
        rw [htracks.prevRel] at hreadable
        have hsize := two_le_size c
        have hdrop : (c.drop (size c)).length = c.length - size c := List.length_drop
        exact ih (hwalk.snoc hmore hreadable hshort) (htracks.notes hnotes) (by omega)
      · rw [hitem]
        exact .inr (.inl ⟨e, hne, rfl⟩)
    · have hloop : ¬ c.length > s.datatotal := htracks.datatotal ▸ hmore
      rw [parseHeaders, if_neg hloop]
      exact .inr (.inr ⟨s, items, c, rfl, hwalk, htracks, not_lt.mp hmore⟩)

/-! ## The data section -/

/-- A parsed block has an image where its item has one, with that hole. -/
def BlockRef.ImageOf (b : BlockRef) (c : Bytes) : Prop :=
  (HasImage c → ∃ img, b.image = some img ∧ img.holeLen = ImageHeader.holeLen (HeaderItem.image c)) ∧
    (¬ HasImage c → b.image = none)

theorem Cursor.take_of_le {n : Nat} {c : Bytes} (h : n ≤ c.length) : Cursor.take n c = .ok (c.take n, c.drop n) := by
  rw [take, if_neg (by omega)]

theorem Cursor.take_of_lt {n : Nat} {c : Bytes} (h : c.length < n) : Cursor.take n c = .error (.truncated n) := by
  rw [take, if_pos h]

/-- The image of a block, out of the data section. -/
def takeImage (hb : HdrBlock) (rest : Bytes) : Except ParseError (Option PageImage × Bytes) :=
  if hb.hasImage then do
    let (data, rest) ← Cursor.take hb.imageLen rest
    pure (some { data, holeOffset := hb.holeOffset, holeLen := hb.holeLen, bimgInfo := hb.bimgInfo }, rest)
  else pure (none, rest)

/-- The data of a block, out of the data section. -/
def takeData (hb : HdrBlock) (rest : Bytes) : Except ParseError (Bytes × Bytes) :=
  if hb.hasData then Cursor.take hb.dataLen rest else pure ([], rest)

theorem parseBlocks_cons (hb : HdrBlock) (hbs : List HdrBlock) (rest : Bytes) :
    parseBlocks (hb :: hbs) rest = (do
      let (image, rest) ← takeImage hb rest
      let (data, rest) ← takeData hb rest
      let (blocks, rest) ← parseBlocks hbs rest
      return ({ id := hb.id, rel := hb.rel, blkno := hb.blkno, image, data } :: blocks, rest)) := by
  rw [parseBlocks, takeImage]
  simp only [takeData]
  cases hb.hasImage <;> cases hb.hasData <;> simp [bind, Except.bind, pure, Except.pure]
  all_goals cases Cursor.take hb.imageLen rest <;> rfl

section Block

variable {hb : HdrBlock} {c : Bytes} (h : hb.Describes c) (rest : Bytes)

include h

theorem takeImage_cases :
    (imageLen c ≤ rest.length ∧ ∃ image, takeImage hb rest = .ok (image, rest.drop (imageLen c)) ∧
        (HasImage c → ∃ img, image = some img ∧ img.holeLen = ImageHeader.holeLen (HeaderItem.image c)) ∧
        (¬ HasImage c → image = none)) ∨
      (rest.length < imageLen c ∧ ∃ n, takeImage hb rest = .error (.truncated n)) := by
  rw [takeImage, h.hasImage]
  by_cases himage : HasImage c
  · rw [if_pos (decide_eq_true himage), h.imageLen himage]
    by_cases hlen : imageLen c ≤ rest.length
    · rw [Cursor.take_of_le hlen]
      exact .inl ⟨hlen, _, rfl, fun _ => ⟨_, rfl, h.holeLen himage⟩, fun hno => absurd himage hno⟩
    · rw [Cursor.take_of_lt (not_le.mp hlen)]
      exact .inr ⟨not_le.mp hlen, _, rfl⟩
  · have hzero : imageLen c = 0 := if_neg himage
    rw [if_neg (by simpa using himage), hzero]
    exact .inl ⟨Nat.zero_le _, none, rfl, fun hyes => absurd hyes himage, fun _ => rfl⟩

theorem takeData_cases :
    (dataLen c ≤ rest.length ∧ ∃ data, takeData hb rest = .ok (data, rest.drop (dataLen c))) ∨
      (rest.length < dataLen c ∧ ∃ n, takeData hb rest = .error (.truncated n)) := by
  rw [takeData, ← h.dataLen]
  by_cases hdata : hb.hasData = true
  · rw [if_pos hdata, if_pos hdata]
    by_cases hlen : hb.dataLen ≤ rest.length
    · exact .inl ⟨hlen, _, Cursor.take_of_le hlen⟩
    · exact .inr ⟨not_le.mp hlen, _, Cursor.take_of_lt (not_le.mp hlen)⟩
  · rw [if_neg hdata, if_neg hdata]
    exact .inl ⟨Nat.zero_le _, [], rfl⟩

end Block

/-- The blocks take what their items announce, or are cut off. -/
theorem parseBlocks_cases {hbs : List HdrBlock} {cs : List Bytes} (h : List.Forall₂ HdrBlock.Describes hbs cs) :
    ∀ rest : Bytes,
      ((cs.map payload).sum ≤ rest.length ∧ ∃ blocks, List.Forall₂ BlockRef.ImageOf blocks cs ∧
          parseBlocks hbs rest = .ok (blocks, rest.drop (cs.map payload).sum)) ∨
        (rest.length < (cs.map payload).sum ∧ ∃ n, parseBlocks hbs rest = .error (.truncated n)) := by
  induction h with
  | nil => intro rest; exact .inl ⟨Nat.zero_le _, [], .nil, rfl⟩
  | @cons hb c hbs cs hdescribes hrest ih =>
    intro rest
    have hpayload : payload c = imageLen c + dataLen c := if_pos hdescribes.isBlock
    rw [parseBlocks_cons, List.map_cons, List.sum_cons, hpayload]
    rcases takeImage_cases hdescribes rest with ⟨himage, image, htake, hof⟩ | ⟨hcut, n, htake⟩
    · have hlen₁ : (rest.drop (imageLen c)).length = rest.length - imageLen c := List.length_drop
      rcases takeData_cases hdescribes (rest.drop (imageLen c)) with ⟨hdata, data, htake'⟩ | ⟨hcut, n, htake'⟩
      · have hlen₂ : ((rest.drop (imageLen c)).drop (dataLen c)).length = rest.length - imageLen c - dataLen c := by
          rw [List.length_drop, hlen₁]
        rcases ih ((rest.drop (imageLen c)).drop (dataLen c)) with ⟨hfits, blocks, hblocks, hparse⟩ | ⟨hcut, n, hparse⟩
        · simp only [htake, htake', hparse, bind, Except.bind]
          refine .inl ⟨by omega, { id := hb.id, rel := hb.rel, blkno := hb.blkno, image, data } :: blocks,
            .cons hof hblocks, ?_⟩
          rw [List.drop_drop, List.drop_drop, ← Nat.add_assoc]
          rfl
        · simp only [htake, htake', hparse, bind, Except.bind]
          exact .inr ⟨by omega, n, rfl⟩
      · simp only [htake, htake', bind, Except.bind]
        exact .inr ⟨by omega, n, rfl⟩
    · simp only [htake, bind, Except.bind]
      exact .inr ⟨by omega, n, rfl⟩

/-! ## Restoring -/

/-- With any decompressors: a whole page, put together from slices within the body, or an
error. -/
def PageImage.Restores (img : PageImage) : Prop :=
  ∀ z : Codecs,
    (∃ body page, img.body z = .ok body ∧ img.holeOffset ≤ body.length ∧ img.restore z = .ok page ∧
      page.length = xlogBlcksz) ∨
    ∃ e, img.restore z = .error (.error e)

theorem pglzDecompress_cases (src : Bytes) {rawsize : Nat} (h : rawsize < 2 ^ 63) :
    (∃ out, pglzDecompress src rawsize = .ok out) ∨ ∃ e, pglzDecompress src rawsize = .error (.error e) := by
  have hsame := pglzDecompressAt_same (Nat.lt_succ_self src.length) h
  generalize pglzDecompress src rawsize = r at hsame
  generalize pglzDecompressAt _ src rawsize = r' at hsame
  cases hsame with
  | ok out => exact .inl ⟨out, rfl⟩
  | bail e => exact .inr ⟨e, rfl⟩

theorem Codecs.lz4Decompress_cases (z : Codecs) (src : Bytes) (rawsize : Nat) :
    (∃ out, z.lz4Decompress src rawsize = .ok out) ∨ ∃ e, z.lz4Decompress src rawsize = .error (.error e) := by
  rw [lz4Decompress]
  split
  · exact .inr ⟨_, rfl⟩
  · split
    · exact .inr ⟨_, rfl⟩
    · exact .inl ⟨_, rfl⟩

theorem PageImage.body_cases (img : PageImage) (z : Codecs) :
    (∃ body, img.body z = .ok body) ∨ ∃ e, img.body z = .error (.error e) := by
  have hraw : xlogBlcksz - img.holeLen < 2 ^ 63 := by
    unfold xlogBlcksz
    omega
  simp only [body]
  split
  · exact .inl ⟨_, rfl⟩
  · split
    · exact pglzDecompress_cases img.data hraw
    · split
      · exact z.lz4Decompress_cases img.data _
      · split
        · split
          · exact .inr ⟨_, rfl⟩
          · exact .inl ⟨_, rfl⟩
        · exact .inr ⟨_, rfl⟩

theorem PageImage.restores_iff (img : PageImage) : img.Restores ↔ img.holeLen ≤ xlogBlcksz := by
  constructor
  · intro h
    by_contra hlong
    have hpanic : ∀ z, img.restore z = .error .panic := fun z => if_pos (not_le.mp hlong)
    rcases h ⟨fun _ _ => .error "", fun _ _ => .error ""⟩ with ⟨_, _, _, _, hok, _⟩ | ⟨e, herr⟩
    · cases (hpanic _).symm.trans hok
    · cases (hpanic _).symm.trans herr
  · intro hle z
    have hrestore : img.restore z = img.body z >>= fun body =>
        if body.length + img.holeLen ≠ xlogBlcksz ∨ img.holeOffset + img.holeLen > xlogBlcksz then
          bail s!"bad page image geometry: {body.length} bytes + {img.holeLen} hole"
        else
          return body.take img.holeOffset ++ List.replicate img.holeLen 0 ++ body.drop img.holeOffset :=
      if_neg (not_lt.mpr hle)
    rw [hrestore]
    rcases img.body_cases z with ⟨body, hbody⟩ | ⟨e, hbody⟩
    · simp only [hbody, bind, Except.bind]
      by_cases hgeom : body.length + img.holeLen ≠ xlogBlcksz ∨ img.holeOffset + img.holeLen > xlogBlcksz
      · rw [if_pos hgeom]
        exact .inr ⟨_, rfl⟩
      · rw [if_neg hgeom]
        refine .inl ⟨body, _, rfl, by omega, rfl, ?_⟩
        rw [List.length_append, List.length_append, List.length_take, List.length_drop, List.length_replicate]
        omega
    · exact .inr ⟨e, by rw [hbody]; rfl⟩

/-! ## Whole records -/

/-- The checksum that stands in the header is the one of the record. -/
def CrcMatches (bytes : Bytes) : Prop :=
  recHdrLen ≤ bytes.length ∧
    crc32c (bytes.drop recHdrLen ++ bytes.take 20) = fromLe ((bytes.drop 20).take 4)

instance (bytes : Bytes) : Decidable (CrcMatches bytes) := inferInstanceAs (Decidable (_ ∧ _))

/-- Parsing does not panic, nor does restoring any image of the parsed record. -/
structure ParsesSafely (bytes : Bytes) : Prop where
  parses : parseRecord bytes ≠ .error .panic
  restores : ∀ r, parseRecord bytes = .ok r → ∀ b ∈ r.blocks, ∀ img, b.image = some img → img.Restores

/-- No raw image with a hole that the walk comes to is longer than a page, and in a record
whose data section is whole no compressed image has a hole longer than a page. -/
structure SoundLengths (bytes : Bytes) : Prop where
  raw : ∀ items c, HeadersTo (bytes.drop recHdrLen) items c → announced items < c.length → ¬ OverlongRaw c
  hole : ∀ items c, HeadersTo (bytes.drop recHdrLen) items c → c.length ≤ announced items →
    used items ≤ c.length → ∀ b ∈ items, ¬ OverlongHole b

/-- A record that passes the checksum is its header section and its data section. -/
theorem parseRecord_sections {bytes : Bytes} (h : CrcMatches bytes) :
    parseRecord bytes = (do
      let (s, c) ← parseHeaders bytes.length HdrState.initial (bytes.drop recHdrLen)
      let (blocks, c) ← parseBlocks s.blocks c
      let (mainData, _) ← Cursor.take s.mainLen c
      return { xid := fromLe ((bytes.drop 4).take 4), rmid := fromLe ((bytes.drop 17).take 1),
               info := fromLe ((bytes.drop 16).take 1), blocks, mainData }) := by
  rw [parseRecord, if_neg (not_lt.mpr h.1)]
  dsimp only
  rw [if_neg (not_not.mpr h.2)]
  rfl

theorem parseHeaders_start (bytes : Bytes) :
    (parseHeaders bytes.length HdrState.initial (bytes.drop recHdrLen) = .error .panic ∧
        ∃ items c, HeadersTo (bytes.drop recHdrLen) items c ∧ announced items < c.length ∧ OverlongRaw c) ∨
      (∃ e, e ≠ .panic ∧ parseHeaders bytes.length HdrState.initial (bytes.drop recHdrLen) = .error e) ∨
      ∃ s items c, parseHeaders bytes.length HdrState.initial (bytes.drop recHdrLen) = .ok (s, c) ∧
        HeadersTo (bytes.drop recHdrLen) items c ∧ s.Tracks items ∧ c.length ≤ announced items := by
  refine parseHeaders_cases bytes.length .nil HdrState.tracks_initial ?_
  rw [List.length_drop]
  omega

/-- The walk of a record comes to one end only. -/
theorem parseHeaders_walked {bytes : Bytes} {items : List Bytes} {c : Bytes}
    (hwalk : HeadersTo (bytes.drop recHdrLen) items c) (hend : c.length ≤ announced items) :
    ∃ s, s.Tracks items ∧ parseHeaders bytes.length HdrState.initial (bytes.drop recHdrLen) = .ok (s, c) := by
  have hbytes : (bytes.drop recHdrLen).length ≤ bytes.length := (List.drop_sublist _ _).length_le
  obtain ⟨s, fuel, htracks, hfuel, heq⟩ := hwalk.reached hbytes
  refine ⟨s, htracks, heq.trans ?_⟩
  cases fuel with
  | zero => rfl
  | succ fuel =>
    have hloop : ¬ c.length > s.datatotal := by
      rw [htracks.datatotal]
      omega
    rw [parseHeaders, if_neg hloop]

theorem parseHeaders_overlong {bytes : Bytes} {items : List Bytes} {c : Bytes}
    (hwalk : HeadersTo (bytes.drop recHdrLen) items c) (hmore : announced items < c.length)
    (hlong : OverlongRaw c) :
    parseHeaders bytes.length HdrState.initial (bytes.drop recHdrLen) = .error .panic := by
  have hbytes : (bytes.drop recHdrLen).length ≤ bytes.length := (List.drop_sublist _ _).length_le
  obtain ⟨s, fuel, htracks, hfuel, heq⟩ := hwalk.reached hbytes
  obtain ⟨fuel, rfl⟩ : ∃ m, fuel = m + 1 := ⟨fuel - 1, by omega⟩
  have hloop : c.length > s.datatotal := htracks.datatotal ▸ hmore
  rw [heq, parseHeaders, if_pos hloop]
  rcases parseHeaderItem_cases s c with ⟨-, hitem⟩ | ⟨hshort, -⟩ | ⟨hshort, -⟩
  · rw [hitem]
    rfl
  · exact absurd hlong hshort
  · exact absurd hlong hshort

/-- The data section behind a walk to its end: it is whole, or the record is cut off. -/
theorem parseRecord_data {bytes : Bytes} (hcrc : CrcMatches bytes) {s : HdrState} {items : List Bytes} {c : Bytes}
    (htracks : s.Tracks items)
    (hparse : parseHeaders bytes.length HdrState.initial (bytes.drop recHdrLen) = .ok (s, c)) :
    (used items ≤ c.length ∧ ∃ r, parseRecord bytes = .ok r ∧
        List.Forall₂ BlockRef.ImageOf r.blocks (blockItems items)) ∨
      (c.length < used items ∧ ∃ n, parseRecord bytes = .error (.truncated n)) := by
  rw [parseRecord_sections hcrc, hparse]
  simp only [bind, Except.bind, used, ← htracks.mainLen]
  -- Blocks come first, then the main data.
  rcases parseBlocks_cases htracks.blocks c with ⟨hfits, blocks, hblocks, hparse⟩ | ⟨hcut, n, hparse⟩
  · have hlen : (c.drop ((blockItems items).map payload).sum).length =
        c.length - ((blockItems items).map payload).sum := List.length_drop
    simp only [hparse]
    by_cases hmain : s.mainLen ≤ (c.drop ((blockItems items).map payload).sum).length
    · rw [Cursor.take_of_le hmain]
      exact .inl ⟨by omega, _, rfl, hblocks⟩
    · rw [Cursor.take_of_lt (not_le.mp hmain)]
      exact .inr ⟨by omega, _, rfl⟩
  · simp only [hparse]
    exact .inr ⟨by omega, n, rfl⟩

/-- The images of a record restore exactly if no hole of its items is overlong. -/
theorem restores_iff_holes {blocks : List BlockRef} {cs : List Bytes} (h : List.Forall₂ BlockRef.ImageOf blocks cs) :
    (∀ b ∈ blocks, ∀ img, b.image = some img → img.Restores) ↔ ∀ c ∈ cs, ¬ OverlongHole c := by
  induction h with
  | nil => simp
  | @cons b c blocks cs hof _ ih =>
    rw [List.forall_mem_cons, List.forall_mem_cons, ih]
    refine and_congr_left fun _ => ?_
    unfold OverlongHole
    by_cases himage : HasImage c
    · obtain ⟨img, himg, hhole⟩ := hof.1 himage
      rw [himg, ← hhole]
      simp [himage, PageImage.restores_iff]
    · simp [hof.2 himage, himage]

theorem blockItems_holes (items : List Bytes) :
    (∀ c ∈ blockItems items, ¬ OverlongHole c) ↔ ∀ c ∈ items, ¬ OverlongHole c := by
  constructor
  · intro h c hmem hlong
    exact h c (List.mem_filter.mpr ⟨hmem, decide_eq_true hlong.1.1⟩) hlong
  · exact fun h c hmem => h c (List.mem_filter.mp hmem).1

/-- Parsing a record with a matching checksum reaches the end of its header section, and it
and the restoring of its images panic on overlong images and holes only. -/
theorem parsesSafely_iff (bytes : Bytes) (hcrc : CrcMatches bytes) :
    (∀ s c, parseHeaders bytes.length HdrState.initial (bytes.drop recHdrLen) = .ok (s, c) →
        c.length ≤ s.datatotal) ∧
      (ParsesSafely bytes ↔ SoundLengths bytes) := by
  constructor
  · intro s c hparse
    rcases parseHeaders_start bytes with ⟨hpanic, -⟩ | ⟨e, -, herr⟩ | ⟨s', items, c', hok, -, htracks, hend⟩
    · cases hparse.symm.trans hpanic
    · cases hparse.symm.trans herr
    · cases hparse.symm.trans hok
      rw [htracks.datatotal]
      exact hend
  · constructor
    -- A walk that meets an overlong length is one that the parser takes.
    · intro h
      refine ⟨fun items c hwalk hmore hlong => ?_, fun items c hwalk hend hused => ?_⟩
      · refine h.parses ?_
        rw [parseRecord_sections hcrc, parseHeaders_overlong hwalk hmore hlong]
        rfl
      · obtain ⟨s, htracks, hparse⟩ := parseHeaders_walked hwalk hend
        rcases parseRecord_data hcrc htracks hparse with ⟨-, r, hr, hof⟩ | ⟨hcut, -⟩
        · rw [← blockItems_holes, ← restores_iff_holes hof]
          exact h.restores r hr
        · omega
    · intro h
      rcases parseHeaders_start bytes with ⟨-, items, c, hwalk, hmore, hlong⟩ | ⟨e, hne, herr⟩ |
          ⟨s, items, c, hok, hwalk, htracks, hend⟩
      · exact absurd hlong (h.raw items c hwalk hmore)
      · have hrecord : parseRecord bytes = .error e := by
          rw [parseRecord_sections hcrc, herr]
          rfl
        exact ⟨by rw [hrecord]; exact fun heq => hne (Except.error.inj heq),
          fun r hr => by cases hr.symm.trans hrecord⟩
      · rcases parseRecord_data hcrc htracks hok with ⟨hused, r, hr, hof⟩ | ⟨-, n, hcut⟩
        · refine ⟨by rw [hr]; exact nofun, fun r' hr' => ?_⟩
          cases hr.symm.trans hr'
          rw [restores_iff_holes hof, blockItems_holes]
          exact h.hole items c hwalk hend hused
        · exact ⟨by rw [hcut]; exact nofun, fun r hr => by cases hr.symm.trans hcut⟩

/-- A record with a matching checksum. -/
def sealRecord (head body : Bytes) : Bytes := head ++ toLe 4 (crc32c (body ++ head)) ++ body

theorem crcMatches_sealRecord {head : Bytes} (hlen : head.length = 20) (body : Bytes) :
    CrcMatches (sealRecord head body) := by
  have hcrc : (toLe 4 (crc32c (body ++ head))).length = 4 := toLe_length 4 _
  have hhead : (head ++ toLe 4 (crc32c (body ++ head))).length = recHdrLen := by
    rw [List.length_append, hlen, hcrc]
    rfl
  refine ⟨?_, ?_⟩
  · rw [sealRecord, List.length_append, hhead]
    exact Nat.le_add_right _ _
  · rw [sealRecord, List.drop_left' hhead, List.append_assoc, List.take_left' hlen, List.drop_left' hlen,
      List.take_left' hcrc, fromLe_toLe (crc32c_lt _)]

theorem parsesSafely_main :
    CrcMatches (sealRecord (List.replicate 20 0) [255, 2, 7, 7]) ∧
      SoundLengths (sealRecord (List.replicate 20 0) [255, 2, 7, 7]) := by
  have hcrc := crcMatches_sealRecord (List.length_replicate (n := 20) (a := (0 : UInt8))) [255, 2, 7, 7]
  refine ⟨hcrc, (parsesSafely_iff _ hcrc).2.mp ⟨by decide +kernel, fun r hr b hb => ?_⟩⟩
  have hblocks : (parseRecord (sealRecord (List.replicate 20 0) [255, 2, 7, 7])).map (·.blocks) = .ok [] := by
    decide +kernel
  rw [hr] at hblocks
  have hnil : r.blocks = [] := Except.ok.inj hblocks
  rw [hnil] at hb
  cases hb

/-- A raw image of 8193 bytes with a hole; a compressed one with a hole of 8193 bytes. -/
theorem overlong_panics :
    (CrcMatches (sealRecord (List.replicate 20 0) [0, 0x10, 0, 0, 0x01, 0x20, 0, 0, 0x01]) ∧
      parseRecord (sealRecord (List.replicate 20 0) [0, 0x10, 0, 0, 0x01, 0x20, 0, 0, 0x01]) = .error .panic) ∧
    CrcMatches (sealRecord (List.replicate 20 0)
      ([0, 0x10, 0, 0, 0, 0, 0, 0, 0x05, 0x01, 0x20] ++ List.replicate 16 0)) ∧
    (∃ r, parseRecord (sealRecord (List.replicate 20 0)
        ([0, 0x10, 0, 0, 0, 0, 0, 0, 0x05, 0x01, 0x20] ++ List.replicate 16 0)) = .ok r ∧
      ∃ b ∈ r.blocks, ∃ img, b.image = some img ∧ ∀ z, img.restore z = .error .panic) := by
  refine ⟨⟨crcMatches_sealRecord rfl _, by decide +kernel⟩, crcMatches_sealRecord rfl _, ?_⟩
  refine ⟨{ xid := 0, rmid := 0, info := 0, mainData := [],
            blocks := [{ id := 0, rel := ⟨0, 0, 0⟩, blkno := 0, data := [],
                         image := some { data := [], holeOffset := 0, holeLen := 8193, bimgInfo := 5 } }] },
    by decide +kernel, _, List.mem_singleton_self _, _, rfl, fun z => rfl⟩

end Ltap
