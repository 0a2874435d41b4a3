-- SUMMARY: Parsing of one WAL record: header, block references, data payloads (`wal/mod.rs`).
import OpenLtap.Wal.Reader

/-!
# Record parsing

`parseRecord` reads the record header, the block headers, and the data section.
The cursor of the source is the list of bytes still to read. A byte string whose
block header makes the source underflow is the error `panic`, which is kept apart
from the errors the source returns.
-/

namespace Ltap

/-- Page size of the heap. -/
def xlogBlcksz : Nat := 8192

structure RelTag where
  spc : Oid
  db : Oid
  rel : Oid
  deriving DecidableEq, Repr

/-- A full-page image as the record carries it, with the hole elided. -/
structure PageImage where
  data : Bytes
  holeOffset : Nat
  holeLen : Nat
  bimgInfo : Nat
  deriving DecidableEq, Repr

structure BlockRef where
  id : Nat
  rel : RelTag
  blkno : Nat
  image : Option PageImage
  data : Bytes
  deriving DecidableEq, Repr

structure Record where
  xid : Xid
  rmid : Nat
  info : Nat
  blocks : List BlockRef
  mainData : Bytes
  deriving DecidableEq, Repr

namespace Rmgr

def xact : Nat := 1
def smgr : Nat := 2
def heap2 : Nat := 9
def heap : Nat := 10
/-- Neon's rmgr for heap DML with command ids. -/
def neon : Nat := 134

end Rmgr

inductive ParseError where
  | shortHeader
  | crcMismatch (computed stored : Nat)
  | truncated (need : Nat)
  | sameRelFirst
  | invalidBlockId (id : Nat)
  | panic
  deriving DecidableEq, Repr

/-! ## Checksum -/

private def crcBit (c : Nat) : Nat :=
  if c % 2 = 1 then (c >>> 1) ^^^ 0x82F63B78 else c >>> 1

private def crcByte (crc : Nat) (b : UInt8) : Nat :=
  (crcBit ∘ crcBit ∘ crcBit ∘ crcBit ∘ crcBit ∘ crcBit ∘ crcBit ∘ crcBit) (crc ^^^ b.toNat)

/-- CRC-32C (Castagnoli) of a byte string. -/
def crc32c (bs : Bytes) : Nat :=
  bs.foldl crcByte 0xFFFFFFFF ^^^ 0xFFFFFFFF

private theorem crcBit_lt {c : Nat} (h : c < 2 ^ 32) : crcBit c < 2 ^ 32 := by
  have hshift : c >>> 1 < 2 ^ 32 := by
    rw [Nat.shiftRight_eq_div_pow]
    omega
  unfold crcBit
  split
  · exact Nat.xor_lt_two_pow hshift (by decide)
  · exact hshift

private theorem crcByte_lt {crc : Nat} (b : UInt8) (h : crc < 2 ^ 32) : crcByte crc b < 2 ^ 32 := by
  have hb : b.toNat < 2 ^ 32 := b.toNat_lt.trans (by decide)
  unfold crcByte
  iterate 8 apply crcBit_lt
  exact Nat.xor_lt_two_pow h hb

theorem crc32c_lt (bs : Bytes) : crc32c bs < 2 ^ 32 := by
  refine Nat.xor_lt_two_pow ?_ (by decide)
  refine List.foldlRecOn (motive := (· < 2 ^ 32)) bs crcByte (by decide) ?_
  intro crc h b _
  exact crcByte_lt b h

/-! ## Cursor -/

namespace Cursor

def take (n : Nat) (c : Bytes) : Except ParseError (Bytes × Bytes) :=
  if c.length < n then .error (.truncated n) else .ok (c.take n, c.drop n)

/-- Read an `n`-byte little-endian integer. -/
def uint (n : Nat) (c : Bytes) : Except ParseError (Nat × Bytes) := do
  let (s, c) ← take n c
  return (fromLe s, c)

end Cursor

/-! ## Block headers -/

structure HdrBlock where
  id : Nat
  rel : RelTag
  blkno : Nat
  hasImage : Bool
  imageLen : Nat
  holeOffset : Nat
  holeLen : Nat
  bimgInfo : Nat
  hasData : Bool
  dataLen : Nat
  deriving DecidableEq, Repr

/-- What the header section has told so far. -/
structure HdrState where
  blocks : List HdrBlock
  mainLen : Nat
  datatotal : Nat
  prevRel : Option RelTag
  deriving DecidableEq, Repr

def xlrMaxBlockId : Nat := 32

/-- Mask of the pglz, lz4, and zstd bits. -/
def bkpimageCompressMask : Nat := 0x1C

/-- The image part of a block header: length, hole offset, hole length, info bits. -/
def parseImageHeader (c : Bytes) : Except ParseError ((Nat × Nat × Nat × Nat) × Bytes) := do
  let (imageLen, c) ← Cursor.uint 2 c
  let (holeOffset, c) ← Cursor.uint 2 c
  let (bimgInfo, c) ← Cursor.uint 1 c
  if bimgInfo &&& 0x01 = 0 then return ((imageLen, holeOffset, 0, bimgInfo), c)
  -- A compressed image carries the hole length, a raw one implies it.
  else if bimgInfo &&& bkpimageCompressMask ≠ 0 then
    let (holeLen, c) ← Cursor.uint 2 c
    return ((imageLen, holeOffset, holeLen, bimgInfo), c)
  else if xlogBlcksz < imageLen then .error .panic
  else return ((imageLen, holeOffset, xlogBlcksz - imageLen, bimgInfo), c)

def parseRel (forkFlags : Nat) (prevRel : Option RelTag) (c : Bytes) :
    Except ParseError (RelTag × Bytes) := do
  if forkFlags &&& 0x80 ≠ 0 then
    match prevRel with
    | some rel => return (rel, c)
    | none => .error .sameRelFirst
  else
    let (spc, c) ← Cursor.uint 4 c
    let (db, c) ← Cursor.uint 4 c
    let (rel, c) ← Cursor.uint 4 c
    return ({ spc, db, rel }, c)

def parseBlockHeader (id : Nat) (s : HdrState) (c : Bytes) :
    Except ParseError (HdrState × Bytes) := do
  let (forkFlags, c) ← Cursor.uint 1 c
  let (dataLen, c) ← Cursor.uint 2 c
  let hasImage := forkFlags &&& 0x10 ≠ 0
  let hasData := forkFlags &&& 0x20 ≠ 0
  let ((imageLen, holeOffset, holeLen, bimgInfo), c) ←
    if hasImage then parseImageHeader c else pure ((0, 0, 0, 0), c)
  let (rel, c) ← parseRel forkFlags s.prevRel c
  let (blkno, c) ← Cursor.uint 4 c
  let block : HdrBlock :=
    { id, rel, blkno, hasImage, imageLen, holeOffset, holeLen, bimgInfo, hasData, dataLen }
  return ({ s with
    blocks := s.blocks ++ [block]
    datatotal := s.datatotal + imageLen + (if hasData then dataLen else 0)
    prevRel := some rel }, c)

/-- One header item: main data length, origin, top-level xid, or a block. -/
def parseHeaderItem (s : HdrState) (c : Bytes) : Except ParseError (HdrState × Bytes) := do
  let (blockId, c) ← Cursor.uint 1 c
  if blockId = 255 then
    let (mainLen, c) ← Cursor.uint 1 c
    return ({ s with mainLen, datatotal := s.datatotal + mainLen }, c)
  else if blockId = 254 then
    let (mainLen, c) ← Cursor.uint 4 c
    return ({ s with mainLen, datatotal := s.datatotal + mainLen }, c)
  else if blockId = 253 then
    let (_, c) ← Cursor.take 2 c
    return (s, c)
  else if blockId = 252 then
    let (_, c) ← Cursor.take 4 c
    return (s, c)
  else if blockId ≤ xlrMaxBlockId then parseBlockHeader blockId s c
  else .error (.invalidBlockId blockId)

/-- `while c.remaining() > datatotal`. Every item takes at least one byte, so the
number of bytes bounds the turns. -/
def parseHeaders : Nat → HdrState → Bytes → Except ParseError (HdrState × Bytes)
  | 0, s, c => .ok (s, c)
  | fuel + 1, s, c =>
    if c.length > s.datatotal then do
      let (s, c) ← parseHeaderItem s c
      parseHeaders fuel s c
    else .ok (s, c)

/-! ## Data section -/

def parseBlocks : List HdrBlock → Bytes → Except ParseError (List BlockRef × Bytes)
  | [], c => .ok ([], c)
  | hb :: hbs, c => do
    let (image, c) ←
      if hb.hasImage then do
        let (data, c) ← Cursor.take hb.imageLen c
        pure (some { data, holeOffset := hb.holeOffset, holeLen := hb.holeLen,
                     bimgInfo := hb.bimgInfo : PageImage }, c)
      else pure (none, c)
    let (data, c) ← if hb.hasData then Cursor.take hb.dataLen c else pure ([], c)
    let (blocks, c) ← parseBlocks hbs c
    return ({ id := hb.id, rel := hb.rel, blkno := hb.blkno, image, data } :: blocks, c)

def parseRecord (bytes : Bytes) : Except ParseError Record := do
  if bytes.length < recHdrLen then .error .shortHeader
  else
    let xid := fromLe ((bytes.drop 4).take 4)
    let info := fromLe ((bytes.drop 16).take 1)
    let rmid := fromLe ((bytes.drop 17).take 1)
    let storedCrc := fromLe ((bytes.drop 20).take 4)
    -- The body first, then the header up to the checksum field.
    let crc := crc32c (bytes.drop recHdrLen ++ bytes.take 20)
    if crc ≠ storedCrc then .error (.crcMismatch crc storedCrc)
    else
      let s₀ : HdrState := { blocks := [], mainLen := 0, datatotal := 0, prevRel := none }
      let (s, c) ← parseHeaders bytes.length s₀ (bytes.drop recHdrLen)
      let (blocks, c) ← parseBlocks s.blocks c
      let (mainData, _) ← Cursor.take s.mainLen c
      return { xid, rmid, info, blocks, mainData }

end Ltap
