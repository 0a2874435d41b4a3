-- SUMMARY: Blobs and pages of an image layer (`examples/layerscan.rs`): one pass over the index reads a relation.
import OpenLtap.Layer.Index
import OpenLtap.Wal.InsertPaths

/-!
# Image layers

An image layer has one blob for each of its keys. The pages of a relation are the blobs under the
keys of its main fork, and they are read in one pass over the index, in its order.
-/

namespace Ltap

/-! ## Blobs -/

/-- `{:#05b}` of three bits. -/
def bits3 (n : Nat) : String := "0b" ++ String.ofList ((Nat.toDigits 2 n).leftpad 3 '0')

/-- The data of a long blob, by its three bits. -/
def decompressBlob (zstd : Bytes → Except String Bytes) (c : Nat) (data : Bytes) : Except Fault Bytes :=
  if c = 0 then .ok data
  else if c = 1 then
    match zstd data with
    | .error _ => bail "zstd blob"
    | .ok raw => .ok raw
  else bail s!"unknown blob compression bits {bits3 c}"

/-- The blob at an offset. A long one has three bits that say how it is compressed. -/
def readBlob (zstd : Bytes → Except String Bytes) (file : Bytes) (off : Nat) : Except Fault Bytes :=
  match file[off]? with
  | none => bail "blob offset beyond file"
  | some b₀ =>
    if b₀.toNat < 0x80 then
      match slice file (off + 1) b₀.toNat with
      | none => .error .panic
      | some data => .ok data
    else
      match slice file off 4 with
      | none => .error .panic
      | some head =>
        let word := fromBe head
        match slice file (off + 4) (word &&& 0x0FFFFFFF) with
        | none => bail "blob beyond file"
        | some data =>
          decompressBlob zstd ((word >>> 28) &&& 0x7) data

/-- A blob of the server. -/
inductive Blob where
  | short (data : Bytes) (h : data.length < 0x80)
  | long (compressed : Bool) (data : Bytes) (h : data.length < 2 ^ 28)

namespace Blob

def bytes : Blob → Bytes
  | short data _ => UInt8.ofNat data.length :: data
  | long compressed data _ => toBe 4 (2 ^ 31 + compressed.toNat * 2 ^ 28 + data.length) ++ data

/-- What was stored in the blob. -/
def content (zstd : Bytes → Except String Bytes) : Blob → Except String Bytes
  | short data _ | long false data _ => .ok data
  | long true data _ => zstd data

end Blob

/-- The blob stands in the file from this offset on. -/
def BlobAt (file : Bytes) (off : Nat) (blob : Blob) : Prop := slice file off blob.bytes.length = some blob.bytes

theorem slice_append_iff {file a b : Bytes} {off : Nat} : slice file off (a ++ b).length = some (a ++ b) ↔
    slice file off a.length = some a ∧ slice file (off + a.length) b.length = some b := by
  have hsplit : (file.drop off).take (a ++ b).length =
      (file.drop off).take a.length ++ (file.drop (off + a.length)).take b.length := by
    rw [List.length_append, List.take_add, List.drop_drop]
  unfold slice
  rw [hsplit]
  constructor
  · intro h
    split at h
    · rename_i hle
      rw [List.length_append] at hle
      have hlen : ((file.drop off).take a.length).length = a.length := by
        rw [List.length_take, List.length_drop]
        omega
      obtain ⟨ha, hb⟩ := List.append_inj (Option.some.inj h) hlen
      rw [if_pos (by omega), if_pos (by omega), ha, hb]
      exact ⟨rfl, rfl⟩
    · cases h
  · rintro ⟨ha, hb⟩
    split at ha
    · split at hb
      · rw [if_pos (by rw [List.length_append]; omega), Option.some.inj ha, Option.some.inj hb]
      · cases hb
    · cases ha

theorem slice_one_iff {file : Bytes} {off : Nat} {b : UInt8} : slice file off 1 = some [b] ↔ file[off]? = some b := by
  unfold slice
  by_cases hle : off + 1 ≤ file.length
  · rw [if_pos hle, List.drop_eq_getElem_cons (by omega), List.getElem?_eq_getElem (by omega), List.take_succ_cons,
      List.take_zero]
    simp
  · rw [if_neg hle, List.getElem?_eq_none (by omega)]
    exact iff_of_false (by rintro ⟨⟩) (by rintro ⟨⟩)

theorem blobAt_short {file data : Bytes} {off : Nat} (h : data.length < 0x80) :
    BlobAt file off (.short data h) ↔
      file[off]? = some (UInt8.ofNat data.length) ∧ slice file (off + 1) data.length = some data := by
  rw [← slice_one_iff]
  exact slice_append_iff (a := [UInt8.ofNat data.length])

theorem blobAt_long {file data : Bytes} {off : Nat} {compressed : Bool} (h : data.length < 2 ^ 28) :
    BlobAt file off (.long compressed data h) ↔
      slice file off 4 = some (toBe 4 (2 ^ 31 + compressed.toNat * 2 ^ 28 + data.length)) ∧
        slice file (off + 4) data.length = some data := by
  have hlength := toBe_length 4 (2 ^ 31 + compressed.toNat * 2 ^ 28 + data.length)
  rw [BlobAt, Blob.bytes, slice_append_iff, hlength]

theorem fromLe_append (bs bs' : Bytes) : fromLe (bs ++ bs') = fromLe bs + 256 ^ bs.length * fromLe bs' := by
  induction bs with
  | nil => simp [fromLe]
  | cons b bs ih =>
    rw [List.cons_append, fromLe, ih, fromLe, List.length_cons, pow_succ]
    ring

theorem fromBe_cons (b : UInt8) (bs : Bytes) : fromBe (b :: bs) = fromBe bs + 256 ^ bs.length * b.toNat := by
  rw [fromBe, List.reverse_cons, fromLe_append, List.length_reverse]
  simp [fromBe, fromLe]

theorem readBlob_short {zstd : Bytes → Except String Bytes} {file : Bytes} {off : Nat} {b₀ : UInt8}
    (hfirst : file[off]? = some b₀) (hsmall : b₀.toNat < 0x80) :
    readBlob zstd file off =
      match slice file (off + 1) b₀.toNat with
      | none => .error .panic
      | some data => .ok data := by
  simp only [readBlob, hfirst, hsmall, if_true]

theorem readBlob_head {zstd : Bytes → Except String Bytes} {file head : Bytes} {off c len : Nat} {b₀ : UInt8}
    (hfirst : file[off]? = some b₀) (hlarge : ¬ b₀.toNat < 0x80) (hhead : slice file off 4 = some head)
    (hlen : fromBe head &&& 0x0FFFFFFF = len) (hbits : (fromBe head >>> 28) &&& 0x7 = c) :
    readBlob zstd file off =
      match slice file (off + 4) len with
      | none => bail "blob beyond file"
      | some data => decompressBlob zstd c data := by
  subst hlen hbits
  rw [readBlob, hfirst]
  dsimp only
  rw [if_neg hlarge, hhead]

/-- The word in front of a long blob: a mark, how it is compressed, and its length. -/
theorem long_head {b₀ : UInt8} {bs : Bytes} (hbs : bs.length = 3) :
    (¬ b₀.toNat < 0x80) ↔ ∃ c len, c < 8 ∧ len < 2 ^ 28 ∧ b₀ :: bs = toBe 4 (2 ^ 31 + c * 2 ^ 28 + len) := by
  have hvalue := fromBe_cons b₀ bs
  have hlt := fromBe_lt bs
  have hbyte := b₀.toNat_lt
  rw [hbs] at hvalue hlt
  constructor
  · intro hlarge
    refine ⟨fromBe (b₀ :: bs) / 2 ^ 28 % 8, fromBe (b₀ :: bs) % 2 ^ 28, by omega, by omega, ?_⟩
    have hwhole := toBe_fromBe (b₀ :: bs)
    rw [List.length_cons, hbs] at hwhole
    rw [← hwhole, fromBe_toBe (by omega)]
    congr 1
    omega
  · rintro ⟨c, len, hc, hlen, hhead⟩
    have hword := congrArg fromBe hhead
    rw [fromBe_toBe (by omega)] at hword
    omega

/-- A first byte of this size has three more behind it and begins a long blob, or the file ends. -/
theorem slice_head {file : Bytes} {off : Nat} {b₀ : UInt8} (hfirst : file[off]? = some b₀) (h : off + 4 ≤ file.length) :
    ∃ bs, bs.length = 3 ∧ slice file off 4 = some (b₀ :: bs) := by
  obtain ⟨hoff, rfl⟩ := List.getElem?_eq_some_iff.mp hfirst
  refine ⟨(file.drop (off + 1)).take 3, by rw [List.length_take, List.length_drop]; omega, ?_⟩
  rw [slice, if_pos h, List.drop_eq_getElem_cons hoff, List.take_succ_cons]

theorem readBlob_long {zstd : Bytes → Except String Bytes} {file : Bytes} {off c len : Nat} (hc : c < 8) (hlen : len < 2 ^ 28)
    (hhead : slice file off 4 = some (toBe 4 (2 ^ 31 + c * 2 ^ 28 + len))) :
    readBlob zstd file off =
      match slice file (off + 4) len with
      | none => bail "blob beyond file"
      | some data => decompressBlob zstd c data := by
  have hvalue : fromBe (toBe 4 (2 ^ 31 + c * 2 ^ 28 + len)) = 2 ^ 31 + c * 2 ^ 28 + len := fromBe_toBe (by omega)
  have hlength := toBe_length 4 (2 ^ 31 + c * 2 ^ 28 + len)
  have hlarge : ∀ (b₀ : UInt8) (bs : Bytes), bs.length = 3 → b₀ :: bs = toBe 4 (2 ^ 31 + c * 2 ^ 28 + len) →
      ¬ b₀.toNat < 0x80 := fun b₀ bs hbs hhead => (long_head hbs).mpr ⟨c, len, hc, hlen, hhead⟩
  generalize toBe 4 (2 ^ 31 + c * 2 ^ 28 + len) = head at *
  obtain - | ⟨b₀, bs⟩ := head
  · cases hlength
  have hle := slice_le hhead
  obtain ⟨bs', -, hslice⟩ := slice_head (List.getElem?_eq_getElem (show off < file.length by omega)) hle
  rw [hhead] at hslice
  have hfirst : file[off]? = some b₀ := by
    rw [(List.cons.inj (Option.some.inj hslice)).1]
    exact List.getElem?_eq_getElem (by omega)
  refine readBlob_head hfirst (hlarge _ _ (Nat.succ.inj hlength) rfl) hhead ?_ ?_
  · rw [hvalue, show 0x0FFFFFFF = 2 ^ 28 - 1 by rfl, Nat.and_two_pow_sub_one_eq_mod]
    omega
  · rw [hvalue, Nat.shiftRight_eq_div_pow, show 0x7 = 2 ^ 3 - 1 by rfl, Nat.and_two_pow_sub_one_eq_mod]
    omega

/-- A blob reads as what it was written for. -/
theorem readBlob_blobAt {zstd : Bytes → Except String Bytes} {file : Bytes} {off : Nat} {blob : Blob}
    (h : BlobAt file off blob) : readBlob zstd file off =
      match blob.content zstd with
      | .error _ => bail "zstd blob"
      | .ok data => .ok data := by
  cases blob with
  | short data hlen =>
    obtain ⟨hfirst, hdata⟩ := (blobAt_short hlen).mp h
    have hbyte : (UInt8.ofNat data.length).toNat = data.length := by
      rw [UInt8.toNat_ofNat', Nat.mod_eq_of_lt (by omega)]
    rw [readBlob_short hfirst (by omega), hbyte, hdata]
    rfl
  | long compressed data hlen =>
    obtain ⟨hhead, hdata⟩ := (blobAt_long hlen).mp h
    rw [readBlob_long (by cases compressed <;> decide) hlen hhead, hdata]
    cases compressed <;> rfl

theorem exists_blobAt {zstd : Bytes → Except String Bytes} {file data : Bytes} {off : Nat}
    (h : readBlob zstd file off = .ok data) : ∃ blob, BlobAt file off blob := by
  cases hfirst : file[off]? with
  | none =>
    rw [readBlob, hfirst] at h
    cases h
  | some b₀ =>
    by_cases hsmall : b₀.toNat < 0x80
    · rw [readBlob_short hfirst hsmall] at h
      cases hslice : slice file (off + 1) b₀.toNat with
      | none =>
        rw [hslice] at h
        cases h
      | some short =>
        have hlen := slice_length hslice
        refine ⟨.short short (by omega), (blobAt_short _).mpr ⟨?_, ?_⟩⟩
        · rw [hfirst, hlen, UInt8.ofNat_toNat]
        · rw [hlen, hslice]
    · by_cases hle : off + 4 ≤ file.length
      · obtain ⟨bs, hbs, hhead⟩ := slice_head hfirst hle
        obtain ⟨c, len, hc, hlt, hword⟩ := (long_head hbs).mp hsmall
        rw [hword] at hhead
        rw [readBlob_long hc hlt hhead] at h
        cases hslice : slice file (off + 4) len with
        | none =>
          rw [hslice] at h
          cases h
        | some long =>
          obtain rfl := slice_length hslice
          have hknown : c = 0 ∨ c = 1 := by
            by_contra hother
            simp only [hslice, decompressBlob, if_neg (not_or.mp hother).1, if_neg (not_or.mp hother).2] at h
            cases h
          rcases hknown with rfl | rfl
          · exact ⟨.long false long hlt, (blobAt_long hlt).mpr ⟨hhead, hslice⟩⟩
          · exact ⟨.long true long hlt, (blobAt_long hlt).mpr ⟨hhead, hslice⟩⟩
      · have hnone : slice file off 4 = none := slice_eq_none.mpr (by omega)
        rw [readBlob, hfirst] at h
        simp only [if_neg hsmall, hnone] at h
        cases h

theorem decompressBlob_ne_panic {zstd : Bytes → Except String Bytes} {c : Nat} {data : Bytes} :
    decompressBlob zstd c data ≠ .error .panic := by
  unfold decompressBlob
  split
  · rintro ⟨⟩
  split
  · split <;> rintro ⟨⟩
  · rintro ⟨⟩

theorem readBlob_panic_iff {zstd : Bytes → Except String Bytes} {file : Bytes} {off : Nat} :
    readBlob zstd file off = .error .panic ↔ ∃ b₀, file[off]? = some b₀ ∧
      file.length < off + if b₀.toNat < 0x80 then 1 + b₀.toNat else 4 := by
  cases hfirst : file[off]? with
  | none =>
    rw [readBlob, hfirst]
    exact iff_of_false (by rintro ⟨⟩) (by rintro ⟨_, ⟨⟩, _⟩)
  | some b₀ =>
    simp only [Option.some.injEq, exists_eq_left']
    by_cases hsmall : b₀.toNat < 0x80
    · rw [readBlob_short hfirst hsmall, if_pos hsmall]
      cases hslice : slice file (off + 1) b₀.toNat with
      | none =>
        have := slice_eq_none.mp hslice
        exact iff_of_true rfl (by omega)
      | some data =>
        have := slice_le hslice
        exact iff_of_false (by rintro ⟨⟩) (by omega)
    · rw [if_neg hsmall]
      by_cases hle : off + 4 ≤ file.length
      · obtain ⟨bs, hbs, hhead⟩ := slice_head hfirst hle
        rw [readBlob_head hfirst hsmall hhead rfl rfl]
        refine iff_of_false ?_ (by omega)
        cases slice file (off + 4) (fromBe (b₀ :: bs) &&& 0x0FFFFFFF) with
        | none => rintro ⟨⟩
        | some data => exact decompressBlob_ne_panic
      · have hnone : slice file off 4 = none := slice_eq_none.mpr (by omega)
        rw [readBlob, hfirst]
        simp only [if_neg hsmall, hnone]
        exact iff_of_true trivial (by omega)

/-- Read is what a blob that stands at the offset was written for. A panic is a short blob that the file cuts off,
or a long one whose length it cuts off. -/
theorem readBlob_spec (zstd : Bytes → Except String Bytes) (file : Bytes) (off : Nat) :
    (∀ data, readBlob zstd file off = .ok data ↔ ∃ blob, BlobAt file off blob ∧ blob.content zstd = .ok data) ∧
    (readBlob zstd file off = .error .panic ↔ ∃ b₀, file[off]? = some b₀ ∧
      file.length < off + if b₀.toNat < 0x80 then 1 + b₀.toNat else 4) := by
  refine ⟨fun data => ⟨fun h => ?_, ?_⟩, readBlob_panic_iff⟩
  · obtain ⟨blob, hblob⟩ := exists_blobAt h
    rw [readBlob_blobAt hblob] at h
    cases hcontent : blob.content zstd with
    | error e =>
      rw [hcontent] at h
      cases h
    | ok stored =>
      rw [hcontent] at h
      cases h
      exact ⟨blob, hblob, hcontent⟩
  · rintro ⟨blob, hblob, hcontent⟩
    rw [readBlob_blobAt hblob, hcontent]

/-! ## Pages -/

/-- The block number under which the size of a relation is kept. -/
def sizeBlk : Nat := 2 ^ 32 - 1

/-- A key of the main fork of a relation. The tablespace is not looked at. -/
def LayerKey.OfRel (k : LayerKey) (db filenode : Oid) : Prop := k.f1 = 0 ∧ k.db = db ∧ k.rel = filenode ∧ k.fork = 0

instance (k : LayerKey) (db filenode : Oid) : Decidable (k.OfRel db filenode) :=
  inferInstanceAs (Decidable (_ ∧ _))

/-- The keys of an image layer with the offsets of their blobs, and the database to read. -/
structure LayerSource where
  zstd : Bytes → Except String Bytes
  file : Bytes
  entries : List (Bytes × Nat)
  db : Oid

namespace LayerSource

variable (src : LayerSource)

def relNblocks (filenode : Oid) : Nat :=
  (((src.entries.map fun e => parseKey e.1).filter fun k => k.OfRel src.db filenode ∧ k.blk ≠ sizeBlk).map
    (·.blk + 1)).max?.getD 0

def getPage (filenode : Oid) (blk : Nat) : Except Fault Bytes :=
  match src.entries.find? fun e => (parseKey e.1).OfRel src.db filenode ∧ (parseKey e.1).blk = blk with
  | none => bail s!"no page for rel {filenode} blk {blk} in the layer"
  | some e => readBlob src.zstd src.file e.2

/-- One pass over the index, in place of a page at a time. -/
def relPages (filenode : Oid) : Except Fault (List Bytes) :=
  (src.entries.filter fun e => (parseKey e.1).OfRel src.db filenode ∧ (parseKey e.1).blk ≠ sizeBlk).mapM
    fun e => readBlob src.zstd src.file e.2

def pages : PageSource where
  db := src.db
  relNblocks filenode := .ok (src.relNblocks filenode)
  getPage := src.getPage
  relPages := src.relPages

/-- The pages as a source reads them that has no way of its own. -/
def pagesByBlock : PageSource where
  db := src.db
  relNblocks filenode := .ok (src.relNblocks filenode)
  getPage := src.getPage

/-- The blocks of a relation in the order of the index, with the offsets of their blobs. -/
def blocks (filenode : Oid) : List (Nat × Nat) :=
  (src.entries.filter fun e => (parseKey e.1).OfRel src.db filenode ∧ (parseKey e.1).blk ≠ sizeBlk).map
    fun e => ((parseKey e.1).blk, e.2)

variable {src} {filenode : Oid}

theorem relNblocks_eq : src.relNblocks filenode = ((src.blocks filenode).map (·.1 + 1)).max?.getD 0 := by
  rw [relNblocks, blocks, List.filter_map, List.map_map, List.map_map]
  rfl

theorem relPages_eq : src.relPages filenode = (src.blocks filenode).mapM fun b => readBlob src.zstd src.file b.2 := by
  rw [relPages, blocks, List.mapM_map]
  rfl

theorem blk_lt {b : Nat × Nat} (hb : b ∈ src.blocks filenode) : b.1 < sizeBlk := by
  obtain ⟨e, he, rfl⟩ := List.mem_map.mp hb
  obtain ⟨-, hkey⟩ := List.mem_filter.mp he
  obtain ⟨-, hne⟩ := of_decide_eq_true hkey
  have := (parseKey_fits e.1).blk
  exact lt_of_le_of_ne (Nat.le_sub_one_of_lt this) hne

theorem lt_relNblocks {b : Nat × Nat} (hb : b ∈ src.blocks filenode) : b.1 < src.relNblocks filenode := by
  rw [relNblocks_eq]
  exact List.le_max?_getD_of_mem (List.mem_map_of_mem (f := (·.1 + 1)) hb)

theorem relNblocks_le : src.relNblocks filenode ≤ sizeBlk := by
  rw [relNblocks_eq]
  cases hmax : ((src.blocks filenode).map (·.1 + 1)).max? with
  | none => exact Nat.zero_le _
  | some m =>
    obtain ⟨b, hb, rfl⟩ := List.mem_map.mp (List.max?_mem hmax)
    exact blk_lt hb

theorem getPage_eq {blk : Nat} (hblk : blk < sizeBlk) : src.getPage filenode blk =
    match (src.blocks filenode).find? (·.1 = blk) with
    | none => bail s!"no page for rel {filenode} blk {blk} in the layer"
    | some b => readBlob src.zstd src.file b.2 := by
  have hkey : ∀ e : Bytes × Nat,
      ((parseKey e.1).OfRel src.db filenode ∧ (parseKey e.1).blk ≠ sizeBlk) ∧ (parseKey e.1).blk = blk ↔
        (parseKey e.1).OfRel src.db filenode ∧ (parseKey e.1).blk = blk := by
    intro e
    rw [and_assoc]
    refine and_congr_right fun _ => and_iff_right_of_imp ?_
    rintro rfl
    exact hblk.ne
  rw [getPage, blocks, List.find?_map, List.find?_filter]
  simp only [Function.comp_def, decide_eq_true_eq, hkey]
  cases src.entries.find? fun e => decide ((parseKey e.1).OfRel src.db filenode ∧ (parseKey e.1).blk = blk) <;> rfl

theorem mapM_congr {α β : Type} {f g : α → Except Fault β} {l : List α} (h : ∀ a ∈ l, f a = g a) :
    l.mapM f = l.mapM g := by
  induction l with
  | nil => rfl
  | cons a l ih =>
    rw [List.forall_mem_cons] at h
    rw [List.mapM_cons, List.mapM_cons, h.1, ih h.2]

theorem mapM_first_error {α β : Type} {f : α → Except Fault β} {before after : List α} {a : α} {e : Fault}
    (hbefore : ∀ x ∈ before, ∃ y, f x = .ok y) (ha : f a = .error e) : (before ++ a :: after).mapM f = .error e := by
  induction before with
  | nil => rw [List.nil_append, List.mapM_cons, ha]; rfl
  | cons x before ih =>
    obtain ⟨⟨y, hy⟩, hrest⟩ := List.forall_mem_cons.mp hbefore
    rw [List.cons_append, List.mapM_cons, hy, ih hrest]
    rfl

/-- What can be read one by one can be read in a row. -/
theorem exists_mapM_ok {α β : Type} {f : α → Except Fault β} {l : List α} (h : ∀ a ∈ l, ∃ b, f a = .ok b) :
    ∃ bs, l.mapM f = .ok bs ∧ List.Forall₂ (fun a b => f a = .ok b) l bs := by
  induction l with
  | nil => exact ⟨[], rfl, .nil⟩
  | cons a l ih =>
    obtain ⟨⟨b, hb⟩, hrest⟩ := List.forall_mem_cons.mp h
    obtain ⟨bs, hbs, hall⟩ := ih hrest
    exact ⟨b :: bs, by rw [List.mapM_cons, hb, hbs]; rfl, .cons hb hall⟩

/-- In a layer that lists the blocks of a relation once each and in order, and whose blobs can be read, the
one pass gives the pages that are there. Page by page, the relation reads the same up to the first block
that the layer does not have. -/
theorem relPages_byBlock (hsorted : (src.blocks filenode).Pairwise (·.1 < ·.1))
    (hread : ∀ b ∈ src.blocks filenode, ∃ page, readBlob src.zstd src.file b.2 = .ok page) :
    (∃ pages, src.pages.relPages filenode = .ok pages ∧
      List.Forall₂ (fun b page => readBlob src.zstd src.file b.2 = .ok page) (src.blocks filenode) pages) ∧
    src.pagesByBlock.relPages filenode =
      match (List.range (src.relNblocks filenode)).find? fun blk => blk ∉ (src.blocks filenode).map (·.1) with
      | none => src.pages.relPages filenode
      | some blk => bail s!"no page for rel {filenode} blk {blk} in the layer" := by
  refine ⟨?_, ?_⟩
  · obtain ⟨pages, hpages, hall⟩ := exists_mapM_ok hread
    exact ⟨pages, relPages_eq.trans hpages, hall⟩
  have hkeys : ((src.blocks filenode).map (·.1)).Pairwise (· < ·) := List.pairwise_map.mpr hsorted
  have hheld : ∀ b ∈ src.blocks filenode, src.getPage filenode b.1 = readBlob src.zstd src.file b.2 := by
    intro b hb
    have honly : ∀ c ∈ src.blocks filenode, decide (c.1 = b.1) = true ↔ c = b := by
      intro c hc
      rw [decide_eq_true_eq]
      exact ⟨fun h => List.inj_on_of_nodup_map hkeys.nodup hc hb h, fun h => by rw [h]⟩
    rw [getPage_eq (blk_lt hb), Keyed.find?_eq_of_iff hb honly]
  have hbyBlock : src.pagesByBlock.relPages filenode =
      (List.range (src.relNblocks filenode)).mapM (src.getPage filenode) := rfl
  rw [hbyBlock]
  cases hmissing : (List.range (src.relNblocks filenode)).find? fun blk => blk ∉ (src.blocks filenode).map (·.1) with
  | none =>
    have hrange : List.range (src.relNblocks filenode) = (src.blocks filenode).map (·.1) := by
      refine List.Pairwise.eq_of_mem_iff List.pairwise_lt_range hkeys fun blk => ⟨fun hblk => ?_, fun hblk => ?_⟩
      · simpa using List.find?_eq_none.mp hmissing blk hblk
      · obtain ⟨b, hb, rfl⟩ := List.mem_map.mp hblk
        exact List.mem_range.mpr (lt_relNblocks hb)
    rw [hrange, List.mapM_map]
    exact (mapM_congr hheld).trans relPages_eq.symm
  | some blk =>
    obtain ⟨hnot, before, after, hrange, hbefore⟩ := List.find?_eq_some_iff_append.mp hmissing
    have hmem : blk ∈ List.range (src.relNblocks filenode) := List.mem_of_find?_eq_some hmissing
    have hnone : (src.blocks filenode).find? (·.1 = blk) = none := by
      refine List.find?_eq_none.mpr fun b hb hb' => of_decide_eq_true hnot ?_
      exact List.mem_map.mpr ⟨b, hb, of_decide_eq_true hb'⟩
    rw [hrange]
    refine mapM_first_error (fun x hx => ?_) ?_
    · have hx' : x ∈ (src.blocks filenode).map (·.1) := by simpa using hbefore x hx
      obtain ⟨b, hb, rfl⟩ := List.mem_map.mp hx'
      rw [hheld b hb]
      exact hread b hb
    · rw [getPage_eq (lt_of_lt_of_le (List.mem_range.mp hmem) relNblocks_le), hnone]
      rfl

end LayerSource

/-- The blocks 0 and 2 of a relation, of one byte each. -/
def Sample.gapSource : LayerSource where
  zstd _ := .error "no zstd"
  file := [1, 10, 1, 20]
  entries := [(LayerKey.bytes ⟨0, 1663, 5, 7, 0, 0⟩, 0), (LayerKey.bytes ⟨0, 1663, 5, 7, 0, 2⟩, 2)]
  db := 5

theorem LayerSource.relPages_byBlock_gap : Sample.gapSource.pages.relPages 7 = .ok [[10], [20]] ∧
    Sample.gapSource.pagesByBlock.relPages 7 = bail "no page for rel 7 blk 1 in the layer" := by
  have hblocks : Sample.gapSource.blocks 7 = [(0, 0), (2, 2)] := by decide +kernel
  have hread : ∀ b ∈ Sample.gapSource.blocks 7,
      ∃ page, readBlob Sample.gapSource.zstd Sample.gapSource.file b.2 = .ok page := by
    rw [hblocks]
    intro b hb
    simp only [List.mem_cons, List.not_mem_nil, or_false] at hb
    rcases hb with rfl | rfl
    · exact ⟨[10], rfl⟩
    · exact ⟨[20], rfl⟩
  obtain ⟨-, hbyBlock⟩ := relPages_byBlock (by rw [hblocks]; decide) hread
  exact ⟨by decide +kernel, hbyBlock.trans (by decide +kernel)⟩

end Ltap
