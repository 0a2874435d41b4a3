-- SUMMARY: Assembly of records as `xlogrecord.h` lays them out, and parsing as its inverse.
import OpenLtap.Wal.Pglz

/-!
# Record assembly

What a server writes: the block headers, the origin and the top-level transaction, the
header of the main data, and behind them the images and data of the blocks and the main
data. The specs carry the bounds of their fields, so every spec is a record a server
can write.
-/

namespace Ltap

/-! ## Specs -/

/-- How the bytes around the hole of a page are stored. -/
inductive ImageForm where
  | raw
  | pglz (tokens : List PglzToken)
  deriving DecidableEq, Repr

/-- A page without its hole. -/
def withoutHole (page : Bytes) (holeOffset holeLen : Nat) : Bytes :=
  page.take holeOffset ++ page.drop (holeOffset + holeLen)

structure ImageSpec where
  page : Bytes
  holeOffset : Nat
  holeLen : Nat
  form : ImageForm
  /-- `BKPIMAGE_APPLY`. -/
  apply : Bool
  page_length : page.length = xlogBlcksz
  hole_le : holeOffset + holeLen ≤ xlogBlcksz
  hole_zero : (page.drop holeOffset).take holeLen = List.replicate holeLen 0
  /-- The tokens of a compressed image spell out the page without its hole, and the stream
  fits the length field. -/
  form_ok : match form with
    | .raw => True
    | .pglz tokens =>
      Spells (withoutHole page holeOffset holeLen) 0 tokens ∧ (pglzStream tokens).length < 2 ^ 16

structure BlockSpec where
  id : Nat
  fork : Nat
  willInit : Bool
  /-- Leave the relation out if it is the one of the block before. -/
  sameRel : Bool
  rel : RelTag
  blkno : Nat
  image : Option ImageSpec
  data : Bytes
  id_le : id ≤ xlrMaxBlockId
  fork_lt : fork < 16
  rel_lt : rel.spc < 2 ^ 32 ∧ rel.db < 2 ^ 32 ∧ rel.rel < 2 ^ 32
  blkno_lt : blkno < 2 ^ 32
  data_lt : data.length < 2 ^ 16

structure RecordSpec where
  xid : Xid
  prev : Lsn
  rmid : Nat
  info : Nat
  blocks : List BlockSpec
  origin : Option Nat
  toplevelXid : Option Xid
  mainData : Bytes
  /-- Use the long form also where the short one would do. -/
  longForm : Bool
  xid_lt : xid < 2 ^ 32
  rmid_lt : rmid < 2 ^ 8
  info_lt : info < 2 ^ 8
  mainData_lt : mainData.length < 2 ^ 32

/-! ## Layout -/

namespace ImageSpec

variable (img : ImageSpec)

def bytes : Bytes :=
  match img.form with
  | .raw => withoutHole img.page img.holeOffset img.holeLen
  | .pglz tokens => pglzStream tokens

def compressed : Bool :=
  match img.form with
  | .raw => false
  | .pglz _ => true

def hasHole : Bool := 0 < img.holeLen

def bimgInfo : Nat :=
  img.hasHole.toNat + 2 * img.apply.toNat + 4 * img.compressed.toNat

/-- A compressed image with a hole says how long the hole is. -/
def header : Bytes :=
  toLe 2 img.bytes.length ++ toLe 2 img.holeOffset ++ toLe 1 img.bimgInfo ++
    if img.hasHole && img.compressed then toLe 2 img.holeLen else []

/-- The image as the parser hands it out. -/
def stored : PageImage :=
  { data := img.bytes, holeOffset := img.holeOffset, holeLen := img.holeLen, bimgInfo := img.bimgInfo }

end ImageSpec

namespace BlockSpec

variable (b : BlockSpec)

def usesSameRel (prevRel : Option RelTag) : Bool := b.sameRel && prevRel = some b.rel

def forkFlags (prevRel : Option RelTag) : Nat :=
  b.fork + 0x10 * b.image.isSome.toNat + 0x20 * (b.data ≠ [] : Bool).toNat + 0x40 * b.willInit.toNat +
    0x80 * (b.usesSameRel prevRel).toNat

def relBytes (prevRel : Option RelTag) : Bytes :=
  if b.usesSameRel prevRel then [] else toLe 4 b.rel.spc ++ toLe 4 b.rel.db ++ toLe 4 b.rel.rel

def header (prevRel : Option RelTag) : Bytes :=
  toLe 1 b.id ++ toLe 1 (b.forkFlags prevRel) ++ toLe 2 b.data.length ++
    ((b.image.map (·.header)).getD [] ++ (b.relBytes prevRel ++ toLe 4 b.blkno))

def imageBytes : Bytes := (b.image.map (·.bytes)).getD []

def payload : Bytes := b.imageBytes ++ b.data

/-- The block as the parser hands it out. -/
def ref : BlockRef :=
  { id := b.id, rel := b.rel, blkno := b.blkno, image := b.image.map (·.stored), data := b.data }

end BlockSpec

def blockHeaders : Option RelTag → List BlockSpec → Bytes
  | _, [] => []
  | prevRel, b :: bs => b.header prevRel ++ blockHeaders (some b.rel) bs

namespace RecordSpec

variable (r : RecordSpec)

def originHeader : Bytes := (r.origin.map fun o => toLe 1 253 ++ toLe 2 o).getD []

def toplevelHeader : Bytes := (r.toplevelXid.map fun x => toLe 1 252 ++ toLe 4 x).getD []

def mainHeader : Bytes :=
  if r.mainData = [] then []
  else if r.longForm ∨ 255 < r.mainData.length then toLe 1 254 ++ toLe 4 r.mainData.length
  else toLe 1 255 ++ toLe 1 r.mainData.length

def headers : Bytes :=
  blockHeaders none r.blocks ++ (r.originHeader ++ (r.toplevelHeader ++ r.mainHeader))

def payload : Bytes := r.blocks.flatMap (·.payload) ++ r.mainData

def body : Bytes := r.headers ++ r.payload

/-- The header up to the checksum. -/
def head : Bytes :=
  toLe 4 (recHdrLen + r.body.length) ++ toLe 4 r.xid ++ toLe 8 r.prev ++ toLe 1 r.info ++
    toLe 1 r.rmid ++ toLe 2 0

def assemble : Bytes := r.head ++ toLe 4 (crc32c (r.body ++ r.head)) ++ r.body

/-- The record as the parser hands it out. -/
def parsed : Record :=
  { xid := r.xid, rmid := r.rmid, info := r.info, blocks := r.blocks.map (·.ref), mainData := r.mainData }

end RecordSpec

/-! ## Cursors -/

theorem Cursor.take_append {n : Nat} {xs : Bytes} (c : Bytes) (h : xs.length = n) :
    Cursor.take n (xs ++ c) = .ok (xs, c) := by
  rw [Cursor.take, if_neg (by simp [h]), List.take_left' h, List.drop_left' h]

theorem Cursor.uint_toLe {n v : Nat} (c : Bytes) (h : v < 256 ^ n) :
    Cursor.uint n (toLe n v ++ c) = .ok (v, c) := by
  simp only [Cursor.uint, Cursor.take_append c (toLe_length n v), bind, Except.bind, fromLe_toLe h]
  rfl

/-! ## Images -/

theorem withoutHole_length {page : Bytes} {off len : Nat} (h : off + len ≤ page.length) :
    (withoutHole page off len).length = page.length - len := by
  rw [withoutHole, List.length_append, List.length_take, List.length_drop]
  omega

namespace ImageSpec

variable (img : ImageSpec)

theorem withoutHole_length' :
    (withoutHole img.page img.holeOffset img.holeLen).length = xlogBlcksz - img.holeLen := by
  rw [withoutHole_length (by rw [img.page_length]; exact img.hole_le), img.page_length]

theorem bytes_lt : img.bytes.length < 2 ^ 16 := by
  have hok := img.form_ok
  have hraw := img.withoutHole_length'
  unfold bytes
  split
  · rw [hraw, xlogBlcksz]
    omega
  · simp_all

theorem bytes_of_raw (h : img.compressed = false) :
    img.bytes = withoutHole img.page img.holeOffset img.holeLen := by
  unfold bytes
  unfold compressed at h
  split at h
  · rfl
  · cases h

theorem bimgInfo_cases :
    (img.bimgInfo &&& 0x01 = 0 ↔ img.hasHole = false) ∧
      img.bimgInfo &&& bkpimageCompressMask = 4 * img.compressed.toNat ∧ img.bimgInfo < 256 := by
  unfold bimgInfo
  cases img.hasHole <;> cases img.apply <;> cases img.compressed <;> decide

theorem parseImageHeader_header (c : Bytes) :
    parseImageHeader (img.header ++ c) =
      .ok ((img.bytes.length, img.holeOffset, img.holeLen, img.bimgInfo), c) := by
  have hle := img.hole_le
  have hlen := img.bytes_lt
  obtain ⟨hhole, hmask, hinfo⟩ := img.bimgInfo_cases
  have h₁ : img.bytes.length < 256 ^ 2 := hlen
  have h₂ : img.holeOffset < 256 ^ 2 := by unfold xlogBlcksz at hle; omega
  have h₃ : img.bimgInfo < 256 ^ 1 := hinfo
  have h₄ : img.holeLen < 256 ^ 2 := by unfold xlogBlcksz at hle; omega
  simp only [parseImageHeader, header, List.append_assoc, Cursor.uint_toLe _ h₁,
    Cursor.uint_toLe _ h₂, Cursor.uint_toLe _ h₃, bind, Except.bind, hhole, hmask]
  cases hh : img.hasHole with
  | false =>
    have hzero : img.holeLen = 0 := by simpa [hasHole] using hh
    simp [hzero, pure, Except.pure]
  | true =>
    cases hc : img.compressed with
    | true => simp [Cursor.uint_toLe _ h₄, pure, Except.pure]
    | false =>
      -- The length of a raw image tells the hole.
      have himg : img.bytes.length = xlogBlcksz - img.holeLen := by
        rw [img.bytes_of_raw hc, img.withoutHole_length']
      have hhl : xlogBlcksz - (xlogBlcksz - img.holeLen) = img.holeLen := by omega
      have hlt : ¬ xlogBlcksz < xlogBlcksz - img.holeLen := by omega
      simp [himg, hlt, hhl, pure, Except.pure]

theorem body_stored (z : Codecs) :
    img.stored.body z = .ok (withoutHole img.page img.holeOffset img.holeLen) := by
  obtain ⟨-, hmask, -⟩ := img.bimgInfo_cases
  have hok := img.form_ok
  simp only [PageImage.body, stored, hmask, ← img.withoutHole_length']
  unfold bytes compressed
  split
  · rename_i hform
    simp
  · rename_i tokens hform
    rw [hform] at hok
    simpa using pglzDecompress_spelled hok.1

/-- A zero hole put back in its place gives the page. -/
theorem refill_withoutHole :
    (withoutHole img.page img.holeOffset img.holeLen).take img.holeOffset ++
        List.replicate img.holeLen 0 ++
      (withoutHole img.page img.holeOffset img.holeLen).drop img.holeOffset = img.page := by
  have hlen : (img.page.take img.holeOffset).length = img.holeOffset := by
    have := img.hole_le
    rw [List.length_take, img.page_length]
    omega
  rw [withoutHole, List.take_left' hlen, List.drop_left' hlen, ← img.hole_zero, List.append_assoc,
    ← List.drop_drop, List.take_append_drop, List.take_append_drop]

theorem restore_stored (z : Codecs) : img.stored.restore z = .ok img.page := by
  have hle := img.hole_le
  have hlen := img.withoutHole_length'
  have hhole : ¬ xlogBlcksz < img.holeLen := by omega
  have hgeom : ¬ ((withoutHole img.page img.holeOffset img.holeLen).length + img.holeLen ≠ xlogBlcksz ∨
      img.holeOffset + img.holeLen > xlogBlcksz) := by omega
  simp only [PageImage.restore, img.body_stored z, bind, Except.bind]
  rw [show img.stored.holeLen = img.holeLen from rfl, show img.stored.holeOffset = img.holeOffset from rfl,
    if_neg hhole, if_neg hgeom, img.refill_withoutHole]
  rfl

end ImageSpec

/-! ## Block headers -/

namespace BlockSpec

variable (b : BlockSpec)

theorem forkFlags_bits (prevRel : Option RelTag) :
    (b.forkFlags prevRel &&& 0x10 ≠ 0 ↔ b.image.isSome = true) ∧
      (b.forkFlags prevRel &&& 0x20 ≠ 0 ↔ b.data ≠ []) ∧
      (b.forkFlags prevRel &&& 0x80 ≠ 0 ↔ b.usesSameRel prevRel = true) ∧
      b.forkFlags prevRel < 256 := by
  have hfork := b.fork_lt
  have hall : ∀ f < 16, ∀ i d w s : Bool,
      (f + 0x10 * i.toNat + 0x20 * d.toNat + 0x40 * w.toNat + 0x80 * s.toNat &&& 0x10 ≠ 0 ↔ i = true) ∧
      (f + 0x10 * i.toNat + 0x20 * d.toNat + 0x40 * w.toNat + 0x80 * s.toNat &&& 0x20 ≠ 0 ↔ d = true) ∧
      (f + 0x10 * i.toNat + 0x20 * d.toNat + 0x40 * w.toNat + 0x80 * s.toNat &&& 0x80 ≠ 0 ↔ s = true) ∧
      f + 0x10 * i.toNat + 0x20 * d.toNat + 0x40 * w.toNat + 0x80 * s.toNat < 256 := by decide
  have h := hall b.fork hfork b.image.isSome (b.data ≠ []) b.willInit (b.usesSameRel prevRel)
  rwa [decide_eq_true_iff] at h

theorem parseRel_relBytes (prevRel : Option RelTag) (c : Bytes) :
    parseRel (b.forkFlags prevRel) prevRel (b.relBytes prevRel ++ c) = .ok (b.rel, c) := by
  obtain ⟨-, -, hsame, -⟩ := b.forkFlags_bits prevRel
  obtain ⟨hspc, hdb, hrel⟩ := b.rel_lt
  by_cases h : b.usesSameRel prevRel = true
  · have hprev : prevRel = some b.rel := by
      simp only [usesSameRel, Bool.and_eq_true, decide_eq_true_eq] at h
      exact h.2
    subst hprev
    simp only [parseRel, if_pos (hsame.mpr h), relBytes, if_pos h, List.nil_append]
    rfl
  · have hflag : ¬ b.forkFlags prevRel &&& 0x80 ≠ 0 := fun hf => h (hsame.mp hf)
    have h₁ : b.rel.spc < 256 ^ 4 := hspc
    have h₂ : b.rel.db < 256 ^ 4 := hdb
    have h₃ : b.rel.rel < 256 ^ 4 := hrel
    simp only [parseRel, if_neg hflag, relBytes, if_neg h, List.append_assoc, Cursor.uint_toLe _ h₁,
      Cursor.uint_toLe _ h₂, Cursor.uint_toLe _ h₃, bind, Except.bind]
    rfl

/-- The block header as the parser keeps it. -/
def hdr : HdrBlock :=
  { id := b.id, rel := b.rel, blkno := b.blkno, hasImage := b.image.isSome
    imageLen := b.imageBytes.length
    holeOffset := (b.image.map (·.holeOffset)).getD 0
    holeLen := (b.image.map (·.holeLen)).getD 0
    bimgInfo := (b.image.map (·.bimgInfo)).getD 0
    hasData := b.data ≠ [], dataLen := b.data.length }

/-- What a block header adds. -/
def note (s : HdrState) : HdrState :=
  { s with
    blocks := s.blocks ++ [b.hdr], datatotal := s.datatotal + b.payload.length, prevRel := some b.rel }

theorem parseBlockHeader_header (s : HdrState) (c : Bytes) :
    parseBlockHeader b.id s
      (toLe 1 (b.forkFlags s.prevRel) ++ (toLe 2 b.data.length ++
        ((b.image.map (·.header)).getD [] ++ (b.relBytes s.prevRel ++ (toLe 4 b.blkno ++ c))))) =
      .ok (b.note s, c) := by
  obtain ⟨himage, hdata, -, hflags⟩ := b.forkFlags_bits s.prevRel
  have h₁ : b.forkFlags s.prevRel < 256 ^ 1 := hflags
  have h₂ : b.data.length < 256 ^ 2 := b.data_lt
  have h₃ : b.blkno < 256 ^ 4 := b.blkno_lt
  have hlen : (if b.data ≠ [] then b.data.length else 0) = b.data.length := by
    by_cases hd : b.data = [] <;> simp [hd]
  simp only [parseBlockHeader, Cursor.uint_toLe _ h₁, Cursor.uint_toLe _ h₂, bind, Except.bind,
    himage, hdata, Bool.decide_eq_true, note, hdr, payload, imageBytes, List.length_append]
  cases hi : b.image with
  | none =>
    simp only [Option.isSome_none, Bool.false_eq_true, if_false, Option.map_none, Option.getD_none,
      List.nil_append, pure, Except.pure, b.parseRel_relBytes, Cursor.uint_toLe _ h₃, hlen,
      List.length_nil, Nat.add_zero, Nat.zero_add]
  | some img =>
    simp only [Option.isSome_some, if_true, Option.map_some, Option.getD_some, pure, Except.pure,
      img.parseImageHeader_header, b.parseRel_relBytes, Cursor.uint_toLe _ h₃, hlen, Nat.add_assoc]

theorem parseHeaderItem_header (s : HdrState) (c : Bytes) :
    parseHeaderItem s (b.header s.prevRel ++ c) = .ok (b.note s, c) := by
  have hid := b.id_le
  unfold xlrMaxBlockId at hid
  have h₁ : b.id < 256 ^ 1 := by omega
  simp only [parseHeaderItem, header, List.append_assoc, Cursor.uint_toLe _ h₁, bind, Except.bind]
  rw [if_neg (by omega), if_neg (by omega), if_neg (by omega), if_neg (by omega),
    if_pos b.id_le, b.parseBlockHeader_header]

end BlockSpec

/-! ## The header section -/

/-- `hs` is a sequence of `n` header items that takes the state `s` to `s'`. -/
inductive HeaderItems : HdrState → Bytes → HdrState → Nat → Prop where
  | nil (s : HdrState) : HeaderItems s [] s 0
  | cons {s s₁ s' : HdrState} {h hs : Bytes} {n : Nat}
      (item : ∀ c, parseHeaderItem s (h ++ c) = .ok (s₁, c))
      (grows : s.datatotal ≤ s₁.datatotal) (nonempty : h ≠ []) (rest : HeaderItems s₁ hs s' n) :
      HeaderItems s (h ++ hs) s' (n + 1)

namespace HeaderItems

theorem append {s₁ s₂ s₃ : HdrState} {h₁ h₂ : Bytes} {n₁ n₂ : Nat} (a : HeaderItems s₁ h₁ s₂ n₁)
    (b : HeaderItems s₂ h₂ s₃ n₂) : HeaderItems s₁ (h₁ ++ h₂) s₃ (n₁ + n₂) := by
  induction a with
  | nil s => simpa using b
  | cons item grows nonempty rest ih =>
    rw [List.append_assoc, Nat.add_right_comm]
    exact .cons item grows nonempty (ih b)

theorem single {s s' : HdrState} {h : Bytes} (item : ∀ c, parseHeaderItem s (h ++ c) = .ok (s', c))
    (grows : s.datatotal ≤ s'.datatotal) (nonempty : h ≠ []) : HeaderItems s h s' 1 := by
  simpa using HeaderItems.cons item grows nonempty (.nil s')

theorem datatotal_le {s s' : HdrState} {hs : Bytes} {n : Nat} (h : HeaderItems s hs s' n) :
    s.datatotal ≤ s'.datatotal := by
  induction h with
  | nil s => exact le_rfl
  | cons _ grows _ _ ih => exact grows.trans ih

theorem length_le {s s' : HdrState} {hs : Bytes} {n : Nat} (h : HeaderItems s hs s' n) :
    n ≤ hs.length := by
  induction h with
  | nil s => exact le_rfl
  | cons _ _ nonempty _ ih =>
    have := List.length_pos_iff.mpr nonempty
    rw [List.length_append]
    omega

/-- The loop reads the items and stops in front of the payload: before the last item
there are more bytes left than the items so far have announced, after it exactly as
many. -/
theorem parseHeaders {s s' : HdrState} {hs : Bytes} {n : Nat} (h : HeaderItems s hs s' n)
    {payload : Bytes} (htotal : s'.datatotal = payload.length) :
    ∀ {fuel : Nat}, n ≤ fuel → parseHeaders fuel s (hs ++ payload) = .ok (s', payload) := by
  induction h with
  | nil s =>
    intro fuel _
    cases fuel with
    | zero => rfl
    | succ fuel => rw [List.nil_append, Ltap.parseHeaders, if_neg (by omega)]
  | @cons s s₁ s' h hs n item grows nonempty rest ih =>
    intro fuel hfuel
    obtain ⟨fuel, rfl⟩ : ∃ m, fuel = m + 1 := ⟨fuel - 1, by omega⟩
    have hmore : (h ++ hs ++ payload).length > s.datatotal := by
      have h₁ := List.length_pos_iff.mpr nonempty
      have h₂ := rest.datatotal_le
      rw [List.length_append, List.length_append]
      omega
    rw [Ltap.parseHeaders, if_pos hmore, List.append_assoc, item]
    exact ih htotal (by omega)

end HeaderItems

theorem toLe_append_ne_nil (n v : Nat) (c : Bytes) : toLe (n + 1) v ++ c ≠ [] := by
  simp [toLe]

/-- The state after a list of block headers. -/
def noteBlocks (s : HdrState) (bs : List BlockSpec) : HdrState := bs.foldl (fun s b => b.note s) s

theorem headerItems_blocks (bs : List BlockSpec) :
    ∀ s : HdrState, HeaderItems s (blockHeaders s.prevRel bs) (noteBlocks s bs) bs.length := by
  induction bs with
  | nil => exact HeaderItems.nil
  | cons b bs ih =>
    intro s
    refine .cons (b.parseHeaderItem_header s) (Nat.le_add_right _ _) ?_ (ih (b.note s))
    simp [BlockSpec.header, toLe]

theorem noteBlocks_fields (bs : List BlockSpec) :
    ∀ s : HdrState, (noteBlocks s bs).blocks = s.blocks ++ bs.map (·.hdr) ∧
      (noteBlocks s bs).datatotal = s.datatotal + (bs.flatMap (·.payload)).length ∧
      (noteBlocks s bs).mainLen = s.mainLen := by
  induction bs with
  | nil => intro s; simp [noteBlocks]
  | cons b bs ih =>
    intro s
    obtain ⟨hblocks, htotal, hmain⟩ := ih (b.note s)
    refine ⟨?_, ?_, hmain⟩
    · rw [show noteBlocks s (b :: bs) = noteBlocks (b.note s) bs from rfl, hblocks]
      simp [BlockSpec.note]
    · rw [show noteBlocks s (b :: bs) = noteBlocks (b.note s) bs from rfl, htotal,
        List.flatMap_cons, List.length_append]
      exact Nat.add_assoc _ _ _

namespace RecordSpec

variable (r : RecordSpec)

theorem headerItems_origin (s : HdrState) : ∃ n, HeaderItems s r.originHeader s n := by
  unfold originHeader
  cases r.origin with
  | none => exact ⟨0, .nil s⟩
  | some o =>
    refine ⟨1, .single (fun c => ?_) le_rfl (toLe_append_ne_nil _ _ _)⟩
    have h₁ : 253 < 256 ^ 1 := by decide
    simp only [Option.map_some, Option.getD_some, parseHeaderItem, List.append_assoc,
      Cursor.uint_toLe _ h₁, Cursor.take_append c (toLe_length 2 o), bind, Except.bind]
    rfl

theorem headerItems_toplevel (s : HdrState) : ∃ n, HeaderItems s r.toplevelHeader s n := by
  unfold toplevelHeader
  cases r.toplevelXid with
  | none => exact ⟨0, .nil s⟩
  | some x =>
    refine ⟨1, .single (fun c => ?_) le_rfl (toLe_append_ne_nil _ _ _)⟩
    have h₁ : 252 < 256 ^ 1 := by decide
    simp only [Option.map_some, Option.getD_some, parseHeaderItem, List.append_assoc,
      Cursor.uint_toLe _ h₁, Cursor.take_append c (toLe_length 4 x), bind, Except.bind]
    rfl

theorem headerItems_main (s : HdrState) (hmain : s.mainLen = 0) :
    ∃ n, HeaderItems s r.mainHeader
      { s with mainLen := r.mainData.length, datatotal := s.datatotal + r.mainData.length } n := by
  unfold mainHeader
  split
  · rename_i hnil
    rw [hnil, List.length_nil, Nat.add_zero, ← hmain]
    exact ⟨0, .nil s⟩
  · split
    · refine ⟨1, .single (fun c => ?_) (Nat.le_add_right _ _) (toLe_append_ne_nil _ _ _)⟩
      have h₁ : 254 < 256 ^ 1 := by decide
      have h₂ : r.mainData.length < 256 ^ 4 := r.mainData_lt
      simp only [parseHeaderItem, List.append_assoc, Cursor.uint_toLe _ h₁, Cursor.uint_toLe _ h₂,
        bind, Except.bind]
      rfl
    · refine ⟨1, .single (fun c => ?_) (Nat.le_add_right _ _) (toLe_append_ne_nil _ _ _)⟩
      have h₁ : 255 < 256 ^ 1 := by decide
      have h₂ : r.mainData.length < 256 ^ 1 := by omega
      simp only [parseHeaderItem, List.append_assoc, Cursor.uint_toLe _ h₁, Cursor.uint_toLe _ h₂,
        bind, Except.bind]
      rfl

theorem parseHeaders_body {fuel : Nat} (hfuel : r.body.length ≤ fuel) :
    ∃ s : HdrState, parseHeaders fuel { blocks := [], mainLen := 0, datatotal := 0, prevRel := none }
        r.body = .ok (s, r.payload) ∧
      s.blocks = r.blocks.map (·.hdr) ∧ s.mainLen = r.mainData.length := by
  let s₀ : HdrState := { blocks := [], mainLen := 0, datatotal := 0, prevRel := none }
  obtain ⟨hblocks, htotal, hmain⟩ := noteBlocks_fields r.blocks s₀
  obtain ⟨n₁, horigin⟩ := r.headerItems_origin (noteBlocks s₀ r.blocks)
  obtain ⟨n₂, htop⟩ := r.headerItems_toplevel (noteBlocks s₀ r.blocks)
  obtain ⟨n₃, hmainItem⟩ := r.headerItems_main (noteBlocks s₀ r.blocks) hmain
  have hitems := (headerItems_blocks r.blocks s₀).append (horigin.append (htop.append hmainItem))
  have hcount : r.blocks.length + (n₁ + (n₂ + n₃)) ≤ fuel := by
    have h := hitems.length_le
    rw [body, List.length_append] at hfuel
    exact h.trans ((Nat.le_add_right _ _).trans hfuel)
  have hpayload : (noteBlocks s₀ r.blocks).datatotal + r.mainData.length = r.payload.length := by
    rw [htotal, payload, List.length_append, Nat.zero_add]
  exact ⟨_, hitems.parseHeaders hpayload hcount, hblocks, rfl⟩

end RecordSpec

/-! ## The data section -/

theorem parseBlocks_payload (bs : List BlockSpec) (c : Bytes) :
    parseBlocks (bs.map (·.hdr)) (bs.flatMap (·.payload) ++ c) = .ok (bs.map (·.ref), c) := by
  induction bs with
  | nil => rfl
  | cons b bs ih =>
    have hbytes : (b :: bs).flatMap (·.payload) ++ c =
        b.imageBytes ++ (b.data ++ (bs.flatMap (·.payload) ++ c)) := by
      simp only [List.flatMap_cons, BlockSpec.payload, List.append_assoc]
    rw [List.map_cons, List.map_cons, hbytes]
    generalize bs.map (·.hdr) = hdrs, bs.map (·.ref) = refs, bs.flatMap (·.payload) ++ c = rest at ih ⊢
    have hdata : Cursor.take b.data.length (b.data ++ rest) = .ok (b.data, rest) :=
      Cursor.take_append rest rfl
    cases hi : b.image with
    | none =>
      have hempty : b.imageBytes = [] := by simp [BlockSpec.imageBytes, hi]
      by_cases hd : b.data = []
      · simp [parseBlocks, BlockSpec.hdr, BlockSpec.ref, hi, hempty, hd, ih, bind, Except.bind, pure,
          Except.pure]
      · simp [parseBlocks, BlockSpec.hdr, BlockSpec.ref, hi, hempty, hd, hdata, ih, bind, Except.bind,
          pure, Except.pure]
    | some img =>
      have hstored : b.imageBytes = img.bytes := by simp [BlockSpec.imageBytes, hi]
      have himage : ∀ c, Cursor.take img.bytes.length (img.bytes ++ c) = .ok (img.bytes, c) :=
        fun c => Cursor.take_append c rfl
      by_cases hd : b.data = []
      · simp [parseBlocks, BlockSpec.hdr, BlockSpec.ref, ImageSpec.stored, hi, himage, hstored, hd, ih,
          bind, Except.bind, pure, Except.pure]
      · simp [parseBlocks, BlockSpec.hdr, BlockSpec.ref, ImageSpec.stored, hi, himage, hstored, hd,
          hdata, ih, bind, Except.bind, pure, Except.pure]

/-! ## The record -/

namespace RecordSpec

variable (r : RecordSpec)

theorem head_length : r.head.length = 20 := by
  simp only [head, List.length_append, toLe_length]

theorem assemble_fields :
    fromLe ((r.assemble.drop 4).take 4) = r.xid ∧ fromLe ((r.assemble.drop 16).take 1) = r.info ∧
      fromLe ((r.assemble.drop 17).take 1) = r.rmid ∧
      fromLe ((r.assemble.drop 20).take 4) = crc32c (r.body ++ r.head) := by
  have hxid : (r.assemble.drop 4).take 4 = toLe 4 r.xid := rfl
  have hinfo : (r.assemble.drop 16).take 1 = toLe 1 r.info := rfl
  have hrmid : (r.assemble.drop 17).take 1 = toLe 1 r.rmid := rfl
  have hcrc : (r.assemble.drop 20).take 4 = toLe 4 (crc32c (r.body ++ r.head)) := by
    rw [assemble, List.append_assoc, List.drop_left' r.head_length, List.take_left' (toLe_length _ _)]
  rw [hxid, hinfo, hrmid, hcrc]
  exact ⟨fromLe_toLe r.xid_lt, fromLe_toLe r.info_lt, fromLe_toLe r.rmid_lt, fromLe_toLe (crc32c_lt _)⟩

theorem parseRecord_parsed : parseRecord r.assemble = .ok r.parsed := by
  obtain ⟨hxid, hinfo, hrmid, hcrc⟩ := r.assemble_fields
  have hhead : (r.head ++ toLe 4 (crc32c (r.body ++ r.head))).length = recHdrLen := by
    rw [List.length_append, r.head_length, toLe_length]
    rfl
  have hbody : r.assemble.drop recHdrLen = r.body := List.drop_left' hhead
  have htake : r.assemble.take 20 = r.head := by
    rw [assemble, List.append_assoc, List.take_left' r.head_length]
  have hlen : r.assemble.length = recHdrLen + r.body.length := by
    rw [assemble, List.length_append, hhead]
  have hfuel : r.body.length ≤ recHdrLen + r.body.length := Nat.le_add_left _ _
  obtain ⟨s, hheaders, hblocks, hmain⟩ := r.parseHeaders_body hfuel
  have hdata := parseBlocks_payload r.blocks r.mainData
  have hrest : Cursor.take r.mainData.length r.mainData = .ok (r.mainData, []) := by
    have h : Cursor.take r.mainData.length (r.mainData ++ []) = .ok (r.mainData, []) :=
      Cursor.take_append [] rfl
    rwa [List.append_nil] at h
  simp only [parseRecord, hlen, if_neg (Nat.not_lt.mpr (Nat.le_add_right recHdrLen r.body.length)),
    hbody, htake, hxid, hinfo, hrmid, hcrc, ne_eq, not_true_eq_false, if_false]
  simp only [hheaders, bind, Except.bind, hblocks, payload, hdata, hmain, hrest]
  rfl

/-- Parsing gives back what was assembled, and restoring its images gives back the pages. -/
theorem parseRecord_assemble (z : Codecs) :
    parseRecord r.assemble = .ok r.parsed ∧
      ∀ b ∈ r.blocks, b.ref.image.map (·.restore z) = b.image.map fun img => .ok img.page := by
  refine ⟨r.parseRecord_parsed, fun b _ => ?_⟩
  rw [BlockSpec.ref, Option.map_map]
  congr 1
  funext img
  exact img.restore_stored z

end RecordSpec

namespace Sample

/-- A page with 32 bytes around its hole. -/
def holedPage : ImageSpec where
  page := List.replicate 24 7 ++ List.replicate 8160 0 ++ List.replicate 8 1
  holeOffset := 24
  holeLen := 8160
  form := .raw
  apply := true
  page_length := by
    rw [List.length_append, List.length_append, List.length_replicate, List.length_replicate,
      List.length_replicate]
    rfl
  hole_le := by decide
  hole_zero := by
    rw [List.append_assoc, List.drop_left' List.length_replicate, List.take_left' List.length_replicate]
  form_ok := trivial

/-- Two blocks of one relation, the first with an image. -/
def twoBlocks : RecordSpec where
  xid := 731
  prev := 40
  rmid := 10
  info := 0x80
  blocks :=
    [{ id := 0, fork := 2, willInit := false, sameRel := false, rel := ⟨1663, 5, 16384⟩, blkno := 117,
       image := some holedPage, data := [], id_le := by decide, fork_lt := by decide,
       rel_lt := by decide, blkno_lt := by decide, data_lt := by decide },
     { id := 1, fork := 2, willInit := false, sameRel := true, rel := ⟨1663, 5, 16384⟩, blkno := 118,
       image := none, data := [9], id_le := by decide, fork_lt := by decide, rel_lt := by decide,
       blkno_lt := by decide, data_lt := by decide }]
  origin := some 3
  toplevelXid := none
  mainData := [1, 0, 0]
  longForm := true
  xid_lt := by decide
  rmid_lt := by decide
  info_lt := by decide
  mainData_lt := by decide

end Sample

example : parseRecord Sample.twoBlocks.assemble = .ok Sample.twoBlocks.parsed := by decide +kernel

end Ltap
