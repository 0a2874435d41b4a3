-- SUMMARY: The summary in front of a layer file (`examples/layerscan.rs`): what is read is what was written.
import OpenLtap.Catalog.Relmap
import OpenLtap.Wire.Messages

/-!
# Layer files

The pageserver keeps images of pages, and changes between two positions, in files of one kind. A
summary in the first block says which tenant, keys and positions the file is of, and where its
index begins.
-/

namespace Ltap

def imageFileMagic : Nat := 0x5A60

def deltaFileMagic : Nat := 0x5A61

def keySize : Nat := 18

structure LayerKey where
  f1 : Nat
  spc : Oid
  db : Oid
  rel : Oid
  fork : Nat
  blk : Nat
  deriving DecidableEq, Repr

/-- The callers have at least 18 bytes. -/
def parseKey (b : Bytes) : LayerKey :=
  { f1 := fromBe (b.take 1)
    spc := fromBe ((b.drop 1).take 4)
    db := fromBe ((b.drop 5).take 4)
    rel := fromBe ((b.drop 9).take 4)
    fork := fromBe ((b.drop 13).take 1)
    blk := fromBe ((b.drop 14).take 4) }

structure Summary where
  magic : Nat
  tenant : Bytes
  timeline : Bytes
  keyRange : LayerKey × LayerKey
  /-- Of an image layer, its one position twice. -/
  lsnRange : Lsn × Lsn
  indexStartBlk : Nat
  indexRootBlk : Nat
  deriving DecidableEq, Repr

/-- Four hex digits at least. -/
def hexPadded (n : Nat) : String := String.ofList ((Nat.toDigits 16 n).leftpad 4 '0')

/-- An image layer is of one position, a delta layer of a range. -/
def getLsnRange (magic : Nat) (b : Bytes) : Except Fault ((Lsn × Lsn) × Bytes) := do
  let (start, b) ← getUint 8 b
  if magic = imageFileMagic then return ((start, start), b)
  else
    let (stop, b) ← getUint 8 b
    return ((start, stop), b)

def parseSummary (file : Bytes) : Except Fault Summary := do
  let b := file.take pageSize
  let (magic, b) ← getUint 2 b
  let (version, b) ← getUint 2 b
  if magic ≠ imageFileMagic ∧ magic ≠ deltaFileMagic then
    bail s!"not a layer file (magic 0x{hexPadded magic})"
  else if version ≠ 3 then bail s!"storage format version {version}, expected 3"
  else
    let (tenant, b) ← splitTo 16 b
    let (timeline, b) ← splitTo 16 b
    let (first, b) ← splitTo keySize b
    let (last, b) ← splitTo keySize b
    let (lsnRange, b) ← getLsnRange magic b
    let (indexStartBlk, b) ← getUint 4 b
    let (indexRootBlk, _) ← getUint 4 b
    return {
      magic, tenant, timeline, keyRange := (parseKey first, parseKey last), lsnRange, indexStartBlk, indexRootBlk }

/-! ## Fields -/

theorem toBe_fromBe (bs : Bytes) : toBe bs.length (fromBe bs) = bs := by
  have h := toLe_fromLe bs.reverse
  rw [List.length_reverse] at h
  rw [toBe, fromBe, h, List.reverse_reverse]

theorem fromBe_lt (bs : Bytes) : fromBe bs < 256 ^ bs.length := by
  have h := fromLe_lt bs.reverse
  rwa [List.length_reverse] at h

theorem getUint_ok_iff {n v : Nat} {b rest : Bytes} :
    getUint n b = .ok (v, rest) ↔ v < 256 ^ n ∧ b = toBe n v ++ rest := by
  constructor
  · intro h
    rw [getUint] at h
    split at h
    · cases h
    · cases h
      have hlen : (b.take n).length = n := by rw [List.length_take]; omega
      have hlt := fromBe_lt (b.take n)
      have hbytes := toBe_fromBe (b.take n)
      rw [hlen] at hlt hbytes
      exact ⟨hlt, by rw [hbytes, List.take_append_drop]⟩
  · rintro ⟨hlt, rfl⟩
    exact getUint_append hlt rest

theorem splitTo_ok_iff {n : Nat} {b x rest : Bytes} : splitTo n b = .ok (x, rest) ↔ x.length = n ∧ b = x ++ rest := by
  constructor
  · intro h
    rw [splitTo] at h
    split at h
    · cases h
    · cases h
      exact ⟨by rw [List.length_take]; omega, (List.take_append_drop n b).symm⟩
  · rintro ⟨rfl, rfl⟩
    rw [splitTo, if_neg (by rw [List.length_append]; omega), List.take_left, List.drop_left]

/-! ## Keys -/

namespace LayerKey

def bytes (k : LayerKey) : Bytes :=
  toBe 1 k.f1 ++ (toBe 4 k.spc ++ (toBe 4 k.db ++ (toBe 4 k.rel ++ (toBe 1 k.fork ++ toBe 4 k.blk))))

/-- The numbers of a key fit their fields. -/
structure Fits (k : LayerKey) : Prop where
  f1 : k.f1 < 2 ^ 8
  spc : k.spc < 2 ^ 32
  db : k.db < 2 ^ 32
  rel : k.rel < 2 ^ 32
  fork : k.fork < 2 ^ 8
  blk : k.blk < 2 ^ 32

theorem bytes_length (k : LayerKey) : k.bytes.length = keySize := by
  simp only [bytes, List.length_append, toBe_length, keySize]

end LayerKey

theorem parseKey_bytes {k : LayerKey} (h : k.Fits) : parseKey k.bytes = k := by
  have hfield : ∀ {n v : Nat} (rest : Bytes), v < 256 ^ n → fromBe ((toBe n v ++ rest).take n) = v :=
    fun rest hv => by rw [List.take_left' (toBe_length _ _), fromBe_toBe hv]
  have hlast : fromBe ((toBe 4 k.blk).take 4) = k.blk := by
    rw [List.take_of_length_le (le_of_eq (toBe_length _ _)), fromBe_toBe h.blk]
  have hdrop : ∀ (m n v : Nat) (rest : Bytes), (toBe n v ++ rest).drop (n + m) = rest.drop m := fun m n v rest => by
    rw [← List.drop_drop, List.drop_left' (toBe_length _ _)]
  obtain ⟨f1, spc, db, rel, fork, blk⟩ := k
  rw [parseKey, LayerKey.bytes, hfield _ h.f1, hdrop 0 1, hdrop 4 1, hdrop 8 1, hdrop 12 1, hdrop 13 1, List.drop_zero,
    hfield _ h.spc, hdrop 0 4, hdrop 4 4, hdrop 8 4, hdrop 9 4, List.drop_zero, hfield _ h.db, hdrop 0 4, hdrop 4 4,
    hdrop 5 4, List.drop_zero, hfield _ h.rel, hdrop 0 4, hdrop 1 4, List.drop_zero, hfield _ h.fork, hdrop 0 1,
    List.drop_zero, hlast]

theorem parseKey_fits (b : Bytes) : (parseKey b).Fits := by
  have hfield : ∀ (n : Nat) (b : Bytes), fromBe (b.take n) < 256 ^ n := fun n b =>
    lt_of_lt_of_le (fromBe_lt _) (Nat.pow_le_pow_right (by decide) (List.length_take_le n b))
  exact ⟨hfield 1 _, hfield 4 _, hfield 4 _, hfield 4 _, hfield 1 _, hfield 4 _⟩

theorem bytes_parseKey {b : Bytes} (h : b.length = keySize) : (parseKey b).bytes = b := by
  have hfield : ∀ (n : Nat) (b : Bytes), n ≤ b.length → toBe n (fromBe (b.take n)) = b.take n := fun n b hn => by
    have hbytes := toBe_fromBe (b.take n)
    rwa [List.length_take, Nat.min_eq_left hn] at hbytes
  have hjoin : ∀ (m n : Nat), (b.drop m).take n ++ b.drop (m + n) = b.drop m := fun m n => by
    rw [← List.drop_drop, List.take_append_drop]
  rw [keySize] at h
  have hlast : (b.drop 14).take 4 = b.drop 14 := List.take_of_length_le (by rw [List.length_drop]; omega)
  have hlen : ∀ m, (b.drop m).length = 18 - m := fun m => by rw [List.length_drop, h]
  simp only [parseKey, LayerKey.bytes]
  rw [hfield 1 b (by omega), hfield 4 (b.drop 1) (by rw [hlen]; decide), hfield 4 (b.drop 5) (by rw [hlen]; decide),
    hfield 4 (b.drop 9) (by rw [hlen]; decide), hfield 1 (b.drop 13) (by rw [hlen]; decide),
    hfield 4 (b.drop 14) (by rw [hlen]), hlast, hjoin 13 1, hjoin 9 4, hjoin 5 4, hjoin 1 4, List.take_append_drop]

/-! ## Summaries -/

/-- The positions in their fields: a second one stands only in a delta layer. -/
def lsnRangeBytes (magic : Nat) (r : Lsn × Lsn) : Bytes :=
  toBe 8 r.1 ++ if magic = imageFileMagic then [] else toBe 8 r.2

/-- The positions fit, and an image layer has one of them twice. -/
structure LsnRangeFits (magic : Nat) (r : Lsn × Lsn) : Prop where
  start : r.1 < 2 ^ 64
  stop : r.2 < 2 ^ 64
  image : magic = imageFileMagic → r.2 = r.1

theorem getLsnRange_ok_iff {magic : Nat} {b rest : Bytes} {r : Lsn × Lsn} :
    getLsnRange magic b = .ok (r, rest) ↔ LsnRangeFits magic r ∧ b = lsnRangeBytes magic r ++ rest := by
  obtain ⟨start, stop⟩ := r
  simp only [getLsnRange, bind_eq_ok, Prod.exists, getUint_ok_iff, lsnRangeBytes]
  constructor
  · rintro ⟨first, b', ⟨hfirst, rfl⟩, h⟩
    split at h
    · rename_i himage
      cases h
      exact ⟨⟨hfirst, hfirst, fun _ => rfl⟩, by rw [if_pos himage, List.append_nil]⟩
    · rename_i hdelta
      simp only [bind_eq_ok, Prod.exists, getUint_ok_iff] at h
      obtain ⟨second, b'', ⟨hsecond, rfl⟩, h⟩ := h
      cases h
      exact ⟨⟨hfirst, hsecond, fun himage => absurd himage hdelta⟩, by rw [if_neg hdelta, List.append_assoc]⟩
  · rintro ⟨⟨hstart, hstop, himage⟩, rfl⟩
    refine ⟨start, _, ⟨hstart, List.append_assoc _ _ _⟩, ?_⟩
    split
    · rename_i h
      rw [show stop = start from himage h]
      rfl
    · simp only [bind_eq_ok, Prod.exists, getUint_ok_iff]
      exact ⟨stop, rest, ⟨hstop, rfl⟩, rfl⟩

namespace Summary

def bytes (s : Summary) : Bytes :=
  toBe 2 s.magic ++ (toBe 2 3 ++ (s.tenant ++ (s.timeline ++ (s.keyRange.1.bytes ++ (s.keyRange.2.bytes ++
    (lsnRangeBytes s.magic s.lsnRange ++ (toBe 4 s.indexStartBlk ++ toBe 4 s.indexRootBlk)))))))

/-- The summary of a layer file. -/
structure Fits (s : Summary) : Prop where
  magic : s.magic = imageFileMagic ∨ s.magic = deltaFileMagic
  tenant : s.tenant.length = 16
  timeline : s.timeline.length = 16
  first : s.keyRange.1.Fits
  last : s.keyRange.2.Fits
  lsnRange : LsnRangeFits s.magic s.lsnRange
  indexStartBlk : s.indexStartBlk < 2 ^ 32
  indexRootBlk : s.indexRootBlk < 2 ^ 32

theorem bytes_length_le {s : Summary} (h : s.Fits) : s.bytes.length ≤ pageSize := by
  have hrange : (lsnRangeBytes s.magic s.lsnRange).length ≤ 16 := by
    unfold lsnRangeBytes
    split <;> simp only [List.length_append, toBe_length, List.length_nil] <;> omega
  simp only [bytes, List.length_append, toBe_length, h.tenant, h.timeline, LayerKey.bytes_length, keySize, pageSize]
  omega

theorem magic_lt {s : Summary} (h : s.Fits) : s.magic < 256 ^ 2 := by
  rcases h.magic with h | h <;> rw [h] <;> decide

end Summary

theorem parseSummary_ok {file : Bytes} {s : Summary} (h : parseSummary file = .ok s) :
    s.Fits ∧ ∃ rest, file = s.bytes ++ rest := by
  simp only [parseSummary, bind_eq_ok, Prod.exists, getUint_ok_iff] at h
  obtain ⟨magic, b₁, ⟨hmagic, hfile⟩, version, b₂, ⟨hversion, rfl⟩, h⟩ := h
  split at h
  · cases h
  rename_i hkind
  split at h
  · cases h
  rename_i hthree
  simp only [bind_eq_ok, Prod.exists, getUint_ok_iff, splitTo_ok_iff, getLsnRange_ok_iff] at h
  obtain ⟨tenant, b₃, ⟨htenant, rfl⟩, timeline, b₄, ⟨htimeline, rfl⟩, first, b₅, ⟨hfirst, rfl⟩, last, b₆,
    ⟨hlast, rfl⟩, start, stop, b₇, ⟨hrange, rfl⟩, indexStartBlk, b₈, ⟨hindexStart, rfl⟩, indexRootBlk, b₉,
    ⟨hindexRoot, rfl⟩, h⟩ := h
  cases h
  refine ⟨⟨by tauto, htenant, htimeline, parseKey_fits _, parseKey_fits _, hrange, hindexStart, hindexRoot⟩,
    b₉ ++ file.drop pageSize, ?_⟩
  have hsplit := List.take_append_drop pageSize file
  rw [hfile, not_not.mp hthree] at hsplit
  refine hsplit.symm.trans ?_
  simp only [Summary.bytes, bytes_parseKey hfirst, bytes_parseKey hlast, List.append_assoc]

theorem parseSummary_bytes {s : Summary} (hfits : s.Fits) (rest : Bytes) : parseSummary (s.bytes ++ rest) = .ok s := by
  have hlen := Summary.bytes_length_le hfits
  have hnotOther : ¬(s.magic ≠ imageFileMagic ∧ s.magic ≠ deltaFileMagic) := by
    have := hfits.magic
    tauto
  have htake : (s.bytes ++ rest).take pageSize = s.bytes ++ rest.take (pageSize - s.bytes.length) := by
    rw [List.take_append, List.take_of_length_le hlen]
  simp only [parseSummary, htake, bind_eq_ok, Prod.exists, getUint_ok_iff]
  refine ⟨s.magic, _, ⟨Summary.magic_lt hfits, List.append_assoc _ _ _⟩, 3, _,
    ⟨by decide, List.append_assoc _ _ _⟩, ?_⟩
  rw [if_neg hnotOther, if_neg (by decide)]
  simp only [bind_eq_ok, Prod.exists, getUint_ok_iff, splitTo_ok_iff, getLsnRange_ok_iff, List.append_assoc]
  refine ⟨_, _, ⟨hfits.tenant, rfl⟩, _, _, ⟨hfits.timeline, rfl⟩, _, _, ⟨LayerKey.bytes_length _, rfl⟩, _, _,
    ⟨LayerKey.bytes_length _, rfl⟩, _, _, _, ⟨hfits.lsnRange, rfl⟩, _, _, ⟨hfits.indexStartBlk, rfl⟩, _, _,
    ⟨hfits.indexRootBlk, rfl⟩, ?_⟩
  rw [parseKey_bytes hfits.first, parseKey_bytes hfits.last]
  rfl

/-- Accepted is what begins with a summary that the server writes, and what is read is this summary. -/
theorem parseSummary_ok_iff {file : Bytes} {s : Summary} :
    parseSummary file = .ok s ↔ s.Fits ∧ ∃ rest, file = s.bytes ++ rest := by
  constructor
  · exact parseSummary_ok
  · rintro ⟨hfits, rest, rfl⟩
    exact parseSummary_bytes hfits rest

end Ltap
