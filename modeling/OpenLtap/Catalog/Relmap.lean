-- SUMMARY: The relmapper blob (`catalog.rs`): which blobs are accepted, what they map, and which cause a panic.
import OpenLtap.Catalog.Pages
import OpenLtap.Wal.Framing
import OpenLtap.Wal.Numeric

/-!
# The relmapper

`pg_class` and `pg_attribute` are mapped relations: their filenodes are in a blob beside the
catalogs, a magic number and a count in front of pairs of an oid and a filenode. What stands
behind the last pair is not looked at.
-/

namespace Ltap

def pgClassOid : Oid := 1259

def pgAttributeOid : Oid := 1249

/-- `RELMAPPER_FILEMAGIC`. -/
def relmapMagic : Nat := 0x592717

/-- The pairs of a blob. The oid of a pair is asked for, the filenode behind it is indexed. -/
def relmapPairs : Nat → Bytes → Map Oid Oid → Except Fault (Map Oid Oid)
  | 0, _, map => .ok map
  | n + 1, b, map =>
    if b.length < 4 then bail "relmap truncated"
    else if b.length < 8 then .error .panic
    else relmapPairs n (b.drop 8) (map.insert (fromLe (b.take 4)) (fromLe ((b.drop 4).take 4)))

/-- oid → filenode. The map is made for as many entries as the count announces, before any is
read: where `grants` refuses so many, the allocation ends the process. -/
def parseRelmap (grants : Nat → Bool) (b : Bytes) : Except Fault (Map Oid Oid) :=
  if b.length < 8 then bail s!"relmap blob too short: {b.length} bytes"
  else
    let magic := fromLe (b.take 4)
    if magic ≠ relmapMagic then bail s!"relmap magic {hex magic} != {hex relmapMagic}"
    else
      let n := fromLe ((b.drop 4).take 4)
      -- `HashMap::with_capacity(n)`
      if ¬ grants n then .error .panic
      else relmapPairs n (b.drop 8) ∅

def MappedRels.fromRelmap (relmap : Map Oid Oid) : Except Fault MappedRels :=
  match relmap.lookup pgClassOid with
  | none => bail "pg_class not in relmapper"
  | some pgClass =>
    match relmap.lookup pgAttributeOid with
    | none => bail "pg_attribute not in relmapper"
    | some pgAttribute => .ok { pgClass, pgAttribute, pgIndex := relmap.lookup pgIndexOid }

/-! ## Blobs -/

/-- An oid and a filenode, each in 32 bits. -/
abbrev RelmapPair := Fin (2 ^ 32) × Fin (2 ^ 32)

namespace RelmapPair

def bytes (p : RelmapPair) : Bytes := toLe 4 p.1 ++ toLe 4 p.2

theorem bytes_length (p : RelmapPair) : p.bytes.length = 8 := by
  rw [bytes, List.length_append, toLe_length, toLe_length]

end RelmapPair

/-- A blob as the server writes it, with its pairs in front. -/
def relmapBlob (ps : List RelmapPair) : Bytes :=
  toLe 4 relmapMagic ++ (toLe 4 ps.length ++ ps.flatMap RelmapPair.bytes)

/-- A later pair of an oid replaces an earlier one. -/
def relmapOf (ps : List RelmapPair) (map : Map Oid Oid) : Map Oid Oid :=
  ps.foldl (fun map p => map.insert p.1.val p.2.val) map

theorem toLe_fromLe (bs : Bytes) : toLe bs.length (fromLe bs) = bs := by
  induction bs with
  | nil => rfl
  | cons b bs ih =>
    have hlow : (b.toNat + 256 * fromLe bs) % 256 = b.toNat := by
      have := b.toNat_lt
      omega
    have hhigh : (b.toNat + 256 * fromLe bs) / 256 = fromLe bs := by
      have := b.toNat_lt
      omega
    rw [fromLe, List.length_cons, toLe, hlow, hhigh, ih, UInt8.ofNat_toNat]

theorem fromLe_take_lt (b : Bytes) : fromLe (b.take 4) < 2 ^ 32 := by
  have hlt := fromLe_lt (b.take 4)
  have hlen : (b.take 4).length ≤ 4 := List.length_take_le 4 b
  exact lt_of_lt_of_le hlt (le_trans (Nat.pow_le_pow_right (by decide) hlen) (by decide))

theorem toLe_fromLe_take {b : Bytes} (h : 4 ≤ b.length) : toLe 4 (fromLe (b.take 4)) = b.take 4 := by
  have hlen : (b.take 4).length = 4 := by rw [List.length_take, Nat.min_eq_left h]
  have := toLe_fromLe (b.take 4)
  rwa [hlen] at this

/-! ## What is accepted -/

/-- The first pair of bytes that hold one. -/
theorem exists_pair {b : Bytes} (h : 8 ≤ b.length) :
    ∃ p : RelmapPair, b = p.bytes ++ b.drop 8 ∧ fromLe (b.take 4) = p.1.val ∧ fromLe ((b.drop 4).take 4) = p.2.val := by
  refine ⟨(⟨_, fromLe_take_lt b⟩, ⟨_, fromLe_take_lt (b.drop 4)⟩), ?_, rfl, rfl⟩
  rw [RelmapPair.bytes, toLe_fromLe_take (by omega), toLe_fromLe_take (by rw [List.length_drop]; omega),
    List.append_assoc, ← List.drop_drop (i := 4) (j := 4), List.take_append_drop, List.take_append_drop]

theorem relmapPairs_blob (ps : List RelmapPair) (rest : Bytes) (map : Map Oid Oid) :
    relmapPairs ps.length (ps.flatMap RelmapPair.bytes ++ rest) map = .ok (relmapOf ps map) := by
  induction ps generalizing map with
  | nil => rfl
  | cons p ps ih =>
    have hlen : (p.bytes ++ (ps.flatMap RelmapPair.bytes ++ rest)).length ≥ 8 := by
      rw [List.length_append, p.bytes_length]
      omega
    have hoid : (p.bytes ++ (ps.flatMap RelmapPair.bytes ++ rest)).take 4 = toLe 4 p.1 := by
      rw [RelmapPair.bytes, List.append_assoc, List.take_left' (toLe_length 4 p.1)]
    have hnode : ((p.bytes ++ (ps.flatMap RelmapPair.bytes ++ rest)).drop 4).take 4 = toLe 4 p.2 := by
      rw [RelmapPair.bytes, List.append_assoc, List.drop_left' (toLe_length 4 p.1), List.take_left' (toLe_length 4 p.2)]
    rw [List.flatMap_cons, List.append_assoc, List.length_cons, relmapPairs, if_neg (by omega), if_neg (by omega),
      List.drop_left' p.bytes_length, hoid, hnode, fromLe_toLe p.1.isLt, fromLe_toLe p.2.isLt, ih]
    rfl

theorem relmapPairs_ok {n : Nat} {b : Bytes} {map map' : Map Oid Oid} (h : relmapPairs n b map = .ok map') :
    ∃ ps : List RelmapPair, ∃ rest, ps.length = n ∧ b = ps.flatMap RelmapPair.bytes ++ rest ∧
      map' = relmapOf ps map := by
  induction n generalizing b map with
  | zero =>
    cases h
    exact ⟨[], b, rfl, rfl, rfl⟩
  | succ n ih =>
    rw [relmapPairs] at h
    split at h
    · cases h
    split at h
    · cases h
    obtain ⟨p, hb, hoid, hnode⟩ := exists_pair (b := b) (by omega)
    obtain ⟨ps, rest, hlen, hrest, hmap⟩ := ih h
    refine ⟨p :: ps, rest, by rw [List.length_cons, hlen], ?_, ?_⟩
    · rw [List.flatMap_cons, List.append_assoc, ← hrest, ← hb]
    · rw [hmap, hoid, hnode]
      rfl

theorem relmapPairs_panic_iff {n : Nat} {b : Bytes} {map : Map Oid Oid} :
    relmapPairs n b map = .error .panic ↔ b.length / 8 < n ∧ 4 ≤ b.length % 8 := by
  induction n generalizing b map with
  | zero => simp [relmapPairs]
  | succ n ih =>
    rw [relmapPairs]
    split
    · exact iff_of_false (by rintro ⟨⟩) (by omega)
    split
    · exact iff_of_true rfl (by omega)
    · rw [ih, List.length_drop]
      omega

theorem relmapBlob_length (ps : List RelmapPair) (rest : Bytes) :
    (relmapBlob ps ++ rest).length = 8 + (ps.flatMap RelmapPair.bytes ++ rest).length := by
  simp only [relmapBlob, List.length_append, toLe_length]
  omega

theorem parseRelmap_ok_iff {grants : Nat → Bool} {b : Bytes} {map : Map Oid Oid} : parseRelmap grants b = .ok map ↔
    ∃ ps : List RelmapPair, ∃ rest, ps.length < 2 ^ 32 ∧ grants ps.length = true ∧ b = relmapBlob ps ++ rest ∧
      map = relmapOf ps ∅ := by
  have hmagic : relmapMagic < 256 ^ 4 := by decide
  unfold parseRelmap
  constructor
  · intro h
    split at h
    · cases h
    rename_i hlong
    dsimp only at h
    split at h
    · cases h
    rename_i hsame
    split at h
    · cases h
    rename_i hgrants
    obtain ⟨ps, rest, hlen, hrest, hmap⟩ := relmapPairs_ok h
    have hcount : ps.length < 2 ^ 32 := hlen ▸ fromLe_take_lt (b.drop 4)
    refine ⟨ps, rest, hcount, hlen ▸ not_not.mp hgrants, ?_, hmap⟩
    rw [relmapBlob, ← not_not.mp hsame, hlen, toLe_fromLe_take (by omega),
      toLe_fromLe_take (by rw [List.length_drop]; omega), List.append_assoc, List.append_assoc, ← hrest,
      ← List.drop_drop (i := 4) (j := 4), List.take_append_drop, List.take_append_drop]
  · rintro ⟨ps, rest, hcount, hgrants, rfl, rfl⟩
    have hm : (relmapBlob ps ++ rest).take 4 = toLe 4 relmapMagic := by
      rw [relmapBlob, List.append_assoc, List.take_left' (toLe_length 4 _)]
    have hn : ((relmapBlob ps ++ rest).drop 4).take 4 = toLe 4 ps.length := by
      rw [relmapBlob, List.append_assoc, List.drop_left' (toLe_length 4 _), List.append_assoc,
        List.take_left' (toLe_length 4 _)]
    have hpairs : (relmapBlob ps ++ rest).drop 8 = ps.flatMap RelmapPair.bytes ++ rest := by
      rw [← List.drop_drop (i := 4) (j := 4), relmapBlob, List.append_assoc, List.drop_left' (toLe_length 4 _),
        List.append_assoc, List.drop_left' (toLe_length 4 _)]
    rw [if_neg (by rw [relmapBlob_length]; omega), hm, fromLe_toLe hmagic]
    dsimp only
    rw [if_neg (not_not.mpr rfl), hn, hpairs, fromLe_toLe hcount, if_neg (not_not.mpr hgrants)]
    exact relmapPairs_blob ps rest ∅

theorem parseRelmap_panic_iff {grants : Nat → Bool} {b : Bytes} : parseRelmap grants b = .error .panic ↔
    8 ≤ b.length ∧ fromLe (b.take 4) = relmapMagic ∧
      (grants (fromLe ((b.drop 4).take 4)) = false ∨
        (b.length - 8) / 8 < fromLe ((b.drop 4).take 4) ∧ 4 ≤ (b.length - 8) % 8) := by
  unfold parseRelmap
  by_cases hshort : b.length < 8
  · rw [if_pos hshort]
    exact iff_of_false (by rintro ⟨⟩) (by omega)
  rw [if_neg hshort]
  dsimp only
  by_cases hsame : fromLe (b.take 4) = relmapMagic
  · rw [if_neg (not_not.mpr hsame)]
    cases hgrants : grants (fromLe ((b.drop 4).take 4)) with
    | false => exact iff_of_true rfl ⟨by omega, hsame, .inl rfl⟩
    | true =>
      rw [if_neg (not_not.mpr rfl), relmapPairs_panic_iff, List.length_drop]
      exact ⟨fun h => ⟨by omega, hsame, .inr h⟩, fun h => h.2.2.resolve_left (by rintro ⟨⟩)⟩
  · rw [if_pos hsame]
    exact iff_of_false (by rintro ⟨⟩) fun h => hsame h.2.1

/-- Accepted is what begins with a blob of the server whose count is granted. The process ends on a count
that is not granted, and on one of more pairs than there are when the next one breaks off in its filenode. -/
theorem parseRelmap_spec (grants : Nat → Bool) (b : Bytes) :
    (∀ map, parseRelmap grants b = .ok map ↔ ∃ ps : List RelmapPair, ∃ rest,
      ps.length < 2 ^ 32 ∧ grants ps.length = true ∧ b = relmapBlob ps ++ rest ∧ map = relmapOf ps ∅) ∧
    (parseRelmap grants b = .error .panic ↔ 8 ≤ b.length ∧ fromLe (b.take 4) = relmapMagic ∧
      (grants (fromLe ((b.drop 4).take 4)) = false ∨
        (b.length - 8) / 8 < fromLe ((b.drop 4).take 4) ∧ 4 ≤ (b.length - 8) % 8)) :=
  ⟨fun _ => parseRelmap_ok_iff, parseRelmap_panic_iff⟩

/-! ## The mapped relations -/

/-- The filenode that a list of pairs gives a relation: the last one. -/
def lastFilenode (ps : List RelmapPair) (oid : Oid) : Option Oid :=
  (ps.reverse.find? (·.1.val = oid)).map (·.2.val)

theorem relmapOf_lookup (ps : List RelmapPair) (map : Map Oid Oid) (oid : Oid) :
    (relmapOf ps map).lookup oid = (lastFilenode ps oid).or (map.lookup oid) := by
  induction ps generalizing map with
  | nil => rfl
  | cons p ps ih =>
    change (relmapOf ps (map.insert p.1.val p.2.val)).lookup oid = _
    rw [ih, lastFilenode, lastFilenode, List.reverse_cons, List.find?_append]
    cases hfind : ps.reverse.find? (·.1.val = oid) with
    | some q => rfl
    | none =>
      by_cases hp : p.1.val = oid
      · subst hp
        simp
      · rw [AList.lookup_insert_ne (Ne.symm hp)]
        simp [hp]

/-- The catalogs are found through every blob that the server writes and whose count is granted, with the
filenodes it gave them last. -/
theorem fromRelmap_parseRelmap_iff (grants : Nat → Bool) (b : Bytes) (mapped : MappedRels) :
    (parseRelmap grants b >>= MappedRels.fromRelmap) = .ok mapped ↔ ∃ ps : List RelmapPair, ∃ rest,
      ps.length < 2 ^ 32 ∧ grants ps.length = true ∧ b = relmapBlob ps ++ rest ∧ lastFilenode ps pgClassOid = some mapped.pgClass ∧
        lastFilenode ps pgAttributeOid = some mapped.pgAttribute ∧ lastFilenode ps pgIndexOid = mapped.pgIndex := by
  have hmapped : ∀ ps, MappedRels.fromRelmap (relmapOf ps ∅) = .ok mapped ↔
      lastFilenode ps pgClassOid = some mapped.pgClass ∧ lastFilenode ps pgAttributeOid = some mapped.pgAttribute ∧
        lastFilenode ps pgIndexOid = mapped.pgIndex := by
    intro ps
    simp only [MappedRels.fromRelmap, relmapOf_lookup, AList.lookup_empty, Option.or_none]
    cases lastFilenode ps pgClassOid with
    | none => exact iff_of_false (by rintro ⟨⟩) (by rintro ⟨⟨⟩, -⟩)
    | some pgClass =>
      cases lastFilenode ps pgAttributeOid with
      | none => exact iff_of_false (by rintro ⟨⟩) (by rintro ⟨-, ⟨⟩, -⟩)
      | some pgAttribute =>
        constructor
        · rintro ⟨⟩
          exact ⟨rfl, rfl, rfl⟩
        · obtain ⟨c, a, i⟩ := mapped
          rintro ⟨hclass, hattribute, hindex⟩
          cases hclass
          cases hattribute
          rw [hindex]
  rw [bind_eq_ok]
  constructor
  · rintro ⟨map, hparse, hfrom⟩
    obtain ⟨ps, rest, hcount, hgrants, hb, rfl⟩ := parseRelmap_ok_iff.mp hparse
    exact ⟨ps, rest, hcount, hgrants, hb, (hmapped ps).mp hfrom⟩
  · rintro ⟨ps, rest, hcount, hgrants, hb, h⟩
    exact ⟨_, parseRelmap_ok_iff.mpr ⟨ps, rest, hcount, hgrants, hb, rfl⟩, (hmapped ps).mpr h⟩

end Ltap
