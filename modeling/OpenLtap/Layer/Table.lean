-- SUMMARY: A table read from one image layer (`examples/layerscan.rs`): its rows are those of the database's pages.
import OpenLtap.Catalog.Rows
import OpenLtap.Catalog.Toast
import OpenLtap.Layer.Image

/-!
# A table in an image layer

Schema and rows come from the same file: the relmapper blob leads to the catalogs, the catalogs
to the table and to its toast relation, and the pages of the table are decoded with these. A
layer that holds the database gives what the pages of the database give.
-/

namespace Ltap

open PageCatalog

/-- The lines that the table mode prints. -/
inductive TableLine where
  /-- `relmapper: {} mappings, pg_class -> {}, pg_attribute -> {}` -/
  | relmapper (mappings : Nat) (pgClass pgAttribute : Oid)
  /-- `preloaded {chunks} toast chunks from rel {tnode}` -/
  | preloaded (chunks : Nat) (toastNode : Oid)
  /-- `derived from catalog pages: ..` -/
  | derived (desc : TableDesc)
  /-- A tuple by its block and offset number: its row, or why it does not decode. -/
  | tuple (blk offnum : Nat) (row : Except DecodeError Row)
  deriving DecidableEq

/-- A run that prints. What was printed before a failure stays. -/
abbrev Printing := ExceptT Fault (StateM (List TableLine))

def println (line : TableLine) : Printing Unit := modify (· ++ [line])

/-- How a run ends, and what it printed. -/
def Printing.output (run : Printing Unit) : Except Fault Unit × List TableLine := StateT.run (ExceptT.run run) []

def DecodeError.isNotNormal : DecodeError → Bool
  | .other what => decide ("not LP_NORMAL".toList <:+: what.toList)
  | .schemaDrift => false

/-- The tuples of a page. Line pointers that are not normal are passed over. -/
def decodePage (z : Codecs) (page : Bytes) (blk : Nat) (desc : TableDesc) (toast : ToastCache) : Printing Unit :=
  if page.length < 14 then throw .panic
  else (pageOffnums page).forM fun offnum =>
    match decodeTupleFromPage z page offnum desc toast with
    | .ok (row, _) => println (.tuple blk offnum (.ok row))
    | .error (.error e) => if e.isNotNormal then pure () else println (.tuple blk offnum (.error e))
    | .error .panic => throw .panic

/-- The rows of a table behind its relmapper blob. The pages of the table itself are read one after the other. -/
def tableLines (grants : Nat → Bool) (z : Codecs) (clog : ClogSource) (table : String) (src : PageSource)
    (heap : Oid → List (Nat × Except Fault Bytes)) (blob : Bytes) : Printing Unit := do
  let relmap ← parseRelmap grants blob
  let mapped ← MappedRels.fromRelmap relmap
  println (.relmapper relmap.entries.length mapped.pgClass mapped.pgAttribute)
  let cat ← PageCatalog.load src clog mapped
  let desc ← cat.desc table
  let toast ← match desc.toastRelNode with
    | some toastNode => do
      let (cache, chunks) ← preloadToast z src toastNode .empty
      println (.preloaded chunks toastNode)
      pure cache
    | none => pure .empty
  println (.derived desc)
  (heap desc.relNode).forM fun b => do
    let page ← b.2
    decodePage z page b.1 desc toast

/-- The key of the relmapper blob of a database. -/
def relmapKey (db : Oid) : LayerKey := { f1 := 0, spc := 1663, db, rel := 0, fork := 0, blk := 0 }

namespace LayerSource

variable (src : LayerSource)

def layerRelmap : Except Fault Bytes :=
  match src.entries.find? fun e => parseKey e.1 = relmapKey src.db with
  | none => bail "no relmapper key for this db in the layer"
  | some e => readBlob src.zstd src.file e.2

/-- The blocks of a relation with what their blobs are read as. -/
def heapPages (filenode : Oid) : List (Nat × Except Fault Bytes) :=
  (src.blocks filenode).map fun b => (b.1, readBlob src.zstd src.file b.2)

end LayerSource

/-- `main` on an image layer with the name of a table. -/
def layerTable (grants : Nat → Bool) (z : Codecs) (zstd : Bytes → Except String Bytes) (clog : ClogSource)
    (table : String) (db : Oid) (file : Bytes) (s : Summary) (fuel : Nat) :
    Option (Except Fault Unit × List TableLine) :=
  (walkBtree file keySize s.indexStartBlk fuel s.indexRootBlk).map
    fun (walked : Except Fault (List (Bytes × Nat))) => Printing.output do
      let entries ← walked
      let src : LayerSource := { zstd, file, entries, db }
      let blob ← src.layerRelmap
      tableLines grants z clog table src.pages src.heapPages blob

/-! ## The database in the layer -/

/-- The file is an image layer of these keys with these contents, in the order of its index. -/
structure ImageLayer (zstd : Bytes → Except String Bytes) (file : Bytes) (s : Summary)
    (images : List (LayerKey × Bytes)) : Prop where
  summary : s.Fits ∧ ∃ rest, file = s.bytes ++ rest
  image : s.magic = imageFileMagic
  index : ∃ entries, IndexAt file keySize s.indexStartBlk [s.indexRootBlk] entries ∧
    List.Forall₂ (fun e i => e.1 = i.1.bytes ∧ i.1.Fits ∧ ∃ blob, BlobAt file e.2 blob ∧ blob.content zstd = .ok i.2)
      entries images

/-- The images of a relation: its blocks and their pages. -/
def imagesOf (images : List (LayerKey × Bytes)) (db filenode : Oid) : List (Nat × Bytes) :=
  (images.filter fun i => i.1.OfRel db filenode ∧ i.1.blk ≠ sizeBlk).map fun i => (i.1.blk, i.2)

/-- The images are those of a database with this relmapper blob and these pages in its relations. -/
structure Holds (images : List (LayerKey × Bytes)) (db : Oid) (relmap : Bytes) (pages : Oid → List Bytes) : Prop where
  relmap : (images.find? (·.1 = relmapKey db)).map (·.2) = some relmap
  pages : ∀ filenode, imagesOf images db filenode = (List.range (pages filenode).length).zip (pages filenode)

/-- A database at hand: the pages of each of its relations. -/
def databaseSource (db : Oid) (pages : Oid → List Bytes) : PageSource where
  db
  relNblocks filenode := .ok (pages filenode).length
  getPage filenode blk :=
    match (pages filenode)[blk]? with
    | none => bail s!"no block {blk}"
    | some page => .ok page

/-- The blocks of a relation at hand. -/
def storedBlocks (pages : Oid → List Bytes) (filenode : Oid) : List (Nat × Except Fault Bytes) :=
  ((List.range (pages filenode).length).zip (pages filenode)).map fun b => (b.1, .ok b.2)

section Held

variable {zstd : Bytes → Except String Bytes} {file : Bytes} {images : List (LayerKey × Bytes)}
  {entries : List (Bytes × Nat)} {db : Oid} {relmap : Bytes} {pages : Oid → List Bytes}

/-- An entry of the index and the image that it is of. -/
def EntryOf (zstd : Bytes → Except String Bytes) (file : Bytes) (e : Bytes × Nat) (i : LayerKey × Bytes) : Prop :=
  parseKey e.1 = i.1 ∧ readBlob zstd file e.2 = .ok i.2

theorem entryOf_image {e : Bytes × Nat} {i : LayerKey × Bytes}
    (h : e.1 = i.1.bytes ∧ i.1.Fits ∧ ∃ blob, BlobAt file e.2 blob ∧ blob.content zstd = .ok i.2) :
    EntryOf zstd file e i := by
  obtain ⟨hkey, hfits, blob, hblob, hcontent⟩ := h
  refine ⟨by rw [hkey, parseKey_bytes hfits], ?_⟩
  rw [readBlob_blobAt hblob, hcontent]

theorem layerRelmap_held (h : List.Forall₂ (EntryOf zstd file) entries images) :
    LayerSource.layerRelmap ⟨zstd, file, entries, db⟩ =
      match (images.find? (·.1 = relmapKey db)).map (·.2) with
      | none => bail "no relmapper key for this db in the layer"
      | some blob => .ok blob := by
  rw [LayerSource.layerRelmap]
  induction h with
  | nil => rfl
  | @cons e i entries images hentry _ ih =>
    obtain ⟨hkey, hblob⟩ := hentry
    simp only [List.find?_cons, hkey]
    by_cases hrelmap : i.1 = relmapKey db
    · simp only [hrelmap, decide_true, hblob, Option.map_some]
    · simp only [hrelmap, decide_false]
      exact ih

theorem heapPages_held (h : List.Forall₂ (EntryOf zstd file) entries images) (filenode : Oid) :
    LayerSource.heapPages ⟨zstd, file, entries, db⟩ filenode =
      (imagesOf images db filenode).map fun i => (i.1, .ok i.2) := by
  rw [LayerSource.heapPages, LayerSource.blocks, imagesOf, List.map_map, List.map_map]
  induction h with
  | nil => rfl
  | @cons e i entries images hentry _ ih =>
    obtain ⟨hkey, hblob⟩ := hentry
    by_cases hrel : i.1.OfRel db filenode ∧ i.1.blk ≠ sizeBlk
    · rw [List.filter_cons_of_pos (by simpa [hkey] using hrel), List.filter_cons_of_pos (by simpa using hrel),
        List.map_cons, List.map_cons, ih]
      simp only [Function.comp_apply, hkey, hblob]
    · rw [List.filter_cons_of_neg (by simpa [hkey] using hrel), List.filter_cons_of_neg (by simpa using hrel), ih]

theorem mapM_ok_snd {α : Type} (l : List (Nat × α)) :
    (l.map fun b => (b.1, (.ok b.2 : Except Fault α))).mapM (·.2) = .ok (l.map (·.2)) := by
  induction l with
  | nil => rfl
  | cons b l ih =>
    rw [List.map_cons, List.mapM_cons, ih]
    rfl

theorem LayerSource.relPages_heapPages (src : LayerSource) (filenode : Oid) :
    src.relPages filenode = (src.heapPages filenode).mapM (·.2) := by
  rw [relPages_eq, heapPages, List.mapM_map]
  rfl

theorem databaseSource_relPages (filenode : Oid) :
    (databaseSource db pages).relPages filenode = .ok (pages filenode) := by
  have hrun : (databaseSource db pages).relPages filenode =
      (List.range (pages filenode).length).mapM ((databaseSource db pages).getPage filenode) := rfl
  rw [hrun, mapM_range_ok (g := id) (l := pages filenode), List.map_id]
  intro i page hpage
  simp only [databaseSource, hpage, id_eq]

/-- A source is asked for its database and for whole relations only. -/
theorem tableLines_congr {src src' : PageSource} (hdb : src.db = src'.db)
    (hpages : ∀ filenode, src.relPages filenode = src'.relPages filenode) {grants : Nat → Bool} {z : Codecs}
    {clog : ClogSource} {table : String} {heap : Oid → List (Nat × Except Fault Bytes)} {blob : Bytes} :
    tableLines grants z clog table src heap blob = tableLines grants z clog table src' heap blob := by
  simp only [tableLines, PageCatalog.load, scan, preloadToast, hdb, hpages]

/-- For a table of a layer that holds a database, the same lines are printed as from the pages of the database:
what was mapped, the out-of-line values, the schema and the rows, up to the failure if there is one. -/
theorem layerTable_holds {s : Summary} (h : ImageLayer zstd file s images) (hheld : Holds images db relmap pages)
    (grants : Nat → Bool) (z : Codecs) (clog : ClogSource) (table : String) :
    parseSummary file = .ok s ∧ ∃ fuel, ∀ more, fuel ≤ more →
      layerTable grants z zstd clog table db file s more =
        some (tableLines grants z clog table (databaseSource db pages) (storedBlocks pages) relmap).output := by
  obtain ⟨entries, hindex, hentries⟩ := h.index
  obtain ⟨hfits, rest, hfile⟩ := h.summary
  have hentries : List.Forall₂ (EntryOf zstd file) entries images := hentries.imp fun _ _ => entryOf_image
  obtain ⟨fuel, hwalk⟩ := PointerTree.walk_ok_iff.mpr (below_of_indexAt (by decide) hindex)
  refine ⟨hfile ▸ parseSummary_bytes hfits rest, fuel, fun more hmore => ?_⟩
  have hwalked : walkBtree file keySize s.indexStartBlk more s.indexRootBlk = some (.ok entries) :=
    PointerTree.walk_mono hmore hwalk
  have hrelmap : LayerSource.layerRelmap ⟨zstd, file, entries, db⟩ = .ok relmap := by
    rw [layerRelmap_held hentries, hheld.relmap]
  have hheap : LayerSource.heapPages ⟨zstd, file, entries, db⟩ = storedBlocks pages := by
    funext filenode
    rw [heapPages_held hentries, hheld.pages]
    rfl
  have hpages : ∀ filenode, (LayerSource.pages ⟨zstd, file, entries, db⟩).relPages filenode =
      (databaseSource db pages).relPages filenode := by
    intro filenode
    rw [databaseSource_relPages]
    refine (LayerSource.relPages_heapPages _ filenode).trans ?_
    rw [hheap, storedBlocks, mapM_ok_snd, List.map_snd_zip (by rw [List.length_range])]
  have hdb : (LayerSource.pages ⟨zstd, file, entries, db⟩).db = (databaseSource db pages).db := rfl
  have hrun : layerTable grants z zstd clog table db file s more = some (Printing.output do
      let blob ← LayerSource.layerRelmap ⟨zstd, file, entries, db⟩
      tableLines grants z clog table (LayerSource.pages ⟨zstd, file, entries, db⟩)
        (LayerSource.heapPages ⟨zstd, file, entries, db⟩) blob) := by
    rw [layerTable, hwalked]
    rfl
  rw [hrun, hrelmap, hheap, ← tableLines_congr hdb hpages]
  rfl

end Held

/-! ## A layer with one table -/

namespace Sample

def layerSummary : Summary where
  magic := imageFileMagic
  tenant := List.replicate 16 1
  timeline := List.replicate 16 2
  keyRange := (relmapKey 5, relmapKey 6)
  lsnRange := (700, 700)
  indexStartBlk := 5
  indexRootBlk := 0

/-- `pg_class` and `pg_attribute` of database 5. -/
def layerRelmap : Bytes := relmapBlob [(1259, 16384), (1249, 16385)]

/-- A tuple without nulls. -/
def plainTuple (natts : Nat) (attrs : Bytes) (h : natts < 65536) : HeapTuple where
  infomask2 := natts
  infomask := 0
  hoff := 24
  payload := 0 :: attrs
  infomask2_lt := h
  infomask_lt := (by decide : 0 + 1 ≤ 65536)
  hoff_lt := (by decide : 25 ≤ 256)

/-- The table `public.t` and its one column. -/
def tableClass : ClassRow :=
  { oid := 16390, name := "t", nspOid := 2200, filenode := 16390, toastrelid := 0, relkind := 0x72, natts := 1 }

def tableAtt : AttRow :=
  { attrelid := 16390, name := "id", typid := 23, attlen := 4, attnum := 1, attalign := 0x69, hasmissing := false,
    isdropped := false }

def classTuple : HeapTuple :=
  plainTuple 11 (tableClass.form (List.replicate 16 0) (List.replicate 16 0) (List.replicate 3 0) []).flatten
    (by decide : 11 < 65536)

def attTuple : HeapTuple :=
  plainTuple 12 (tableAtt.form (List.replicate 11 0) (List.replicate 4 0) (List.replicate 2 0) []).flatten
    (by decide : 12 < 65536)

/-- One row, with the value 42. -/
def rowTuple : HeapTuple := plainTuple 1 (toLe 4 42) (by decide : 0 + 1 < 65536)

/-- The first block of a relation. -/
def firstKey (rel : Oid) : LayerKey := { f1 := 0, spc := 1663, db := 5, rel, fork := 0, blk := 0 }

def layerImages : List (LayerKey × Bytes) :=
  [(relmapKey 5, layerRelmap), (firstKey 16384, onePage classTuple), (firstKey 16385, onePage attTuple),
    (firstKey 16390, onePage rowTuple)]

def relmapOnFile : Blob := .short layerRelmap (by decide)

def pageOnFile (page : Bytes) (h : page.length = pageSize) : Blob := .long false page (by rw [h]; decide)

theorem classPage_length : (onePage classTuple).length = pageSize := onePage_length (by decide +kernel)

theorem attPage_length : (onePage attTuple).length = pageSize := onePage_length (by decide +kernel)

theorem rowPage_length : (onePage rowTuple).length = pageSize := onePage_length (by decide +kernel)

def layerNode : NodePage keySize where
  level := 0
  shared := []
  items :=
    [((relmapKey 5).bytes, toBe 5 8192), ((firstKey 16384).bytes, toBe 5 8217),
      ((firstKey 16385).bytes, toBe 5 16413), ((firstKey 16390).bytes, toBe 5 24609)]
  pad := List.replicate 8095 0
  shared_le := Nat.zero_le _
  suffixes := by decide
  values := by decide
  few := by decide
  fills := by rw [List.length_replicate]; decide

def firstBlock : Bytes := layerSummary.bytes ++ List.replicate (pageSize - layerSummary.bytes.length) 0

def layerFile : Bytes :=
  firstBlock ++ (relmapOnFile.bytes ++ ((pageOnFile _ classPage_length).bytes ++
    ((pageOnFile _ attPage_length).bytes ++ ((pageOnFile _ rowPage_length).bytes ++
      (List.replicate 8155 0 ++ layerNode.bytes)))))

theorem layerSummary_fits : layerSummary.Fits where
  magic := .inl rfl
  tenant := by decide
  timeline := by decide
  first := ⟨by decide, by decide, by decide, by decide, by decide, by decide⟩
  last := ⟨by decide, by decide, by decide, by decide, by decide, by decide⟩
  lsnRange := ⟨by decide, by decide, fun _ => rfl⟩
  indexStartBlk := by decide
  indexRootBlk := by decide

theorem firstBlock_length : firstBlock.length = pageSize := by
  have := Summary.bytes_length_le layerSummary_fits
  rw [firstBlock, List.length_append, List.length_replicate]
  omega

theorem relmapOnFile_length : relmapOnFile.bytes.length = 25 := by decide

theorem pageOnFile_length {page : Bytes} (h : page.length = pageSize) : (pageOnFile page h).bytes.length = 8196 := by
  rw [pageOnFile, Blob.bytes, List.length_append, toBe_length, h]
  rfl

theorem blobAt_behind {file front rest : Bytes} {blob : Blob} {off : Nat} (h : file = front ++ (blob.bytes ++ rest))
    (hoff : front.length = off) : BlobAt file off blob := h ▸ slice_append hoff rfl

theorem layerFile_relmap : BlobAt layerFile 8192 relmapOnFile := blobAt_behind rfl firstBlock_length

/-- The pages lie behind the relmapper blob, one after the other. -/
theorem layerFile_pages : BlobAt layerFile 8217 (pageOnFile _ classPage_length) ∧
    BlobAt layerFile 16413 (pageOnFile _ attPage_length) ∧ BlobAt layerFile 24609 (pageOnFile _ rowPage_length) := by
  have hclass : layerFile = (firstBlock ++ relmapOnFile.bytes) ++ ((pageOnFile _ classPage_length).bytes ++
      ((pageOnFile _ attPage_length).bytes ++ ((pageOnFile _ rowPage_length).bytes ++
        (List.replicate 8155 0 ++ layerNode.bytes)))) := by
    rw [layerFile, List.append_assoc]
  have hatt := hclass.trans (List.append_assoc ..).symm
  have hrow := hatt.trans (List.append_assoc ..).symm
  refine ⟨blobAt_behind hclass ?_, blobAt_behind hatt ?_, blobAt_behind hrow ?_⟩
  all_goals
    simp only [List.length_append, firstBlock_length, relmapOnFile_length, pageOnFile_length]
    rfl

theorem layerFile_node : PageAt layerFile 5 layerNode := by
  have hfile : layerFile = (((((firstBlock ++ relmapOnFile.bytes) ++ (pageOnFile _ classPage_length).bytes) ++
      (pageOnFile _ attPage_length).bytes) ++ (pageOnFile _ rowPage_length).bytes) ++ List.replicate 8155 0) ++
        (layerNode.bytes ++ []) := by
    simp only [layerFile, List.append_assoc, List.append_nil]
  refine ⟨by decide, hfile ▸ slice_append ?_ layerNode.bytes_length⟩
  simp only [List.length_append, firstBlock_length, relmapOnFile_length, pageOnFile_length, List.length_replicate]
  rfl

theorem layerFile_image : ImageLayer (fun _ => .error "no zstd") layerFile layerSummary layerImages where
  summary := ⟨layerSummary_fits, _, by rw [layerFile, firstBlock, List.append_assoc]⟩
  image := rfl
  index := by
    obtain ⟨hclass, hatt, hrow⟩ := layerFile_pages
    refine ⟨layerNode.entries ++ [], .leaf layerNode layerFile_node rfl .nil, ?_⟩
    refine .cons ⟨rfl, ⟨by decide, by decide, by decide, by decide, by decide, by decide⟩, relmapOnFile,
      layerFile_relmap, rfl⟩ (.cons ⟨rfl, ⟨by decide, by decide, by decide, by decide, by decide, by decide⟩, _,
        hclass, rfl⟩ (.cons ⟨rfl, ⟨by decide, by decide, by decide, by decide, by decide, by decide⟩, _,
          hatt, rfl⟩ (.cons ⟨rfl, ⟨by decide, by decide, by decide, by decide, by decide, by decide⟩, _,
            hrow, rfl⟩ .nil)))

/-- The relmapper blob has the key of a block of relation 0. -/
def layerPages (filenode : Oid) : List Bytes :=
  if filenode = 0 then [layerRelmap] else if filenode = 16384 then [onePage classTuple]
  else if filenode = 16385 then [onePage attTuple] else if filenode = 16390 then [onePage rowTuple] else []

theorem layerImages_holds : Holds layerImages 5 layerRelmap layerPages where
  relmap := rfl
  pages := by
    intro filenode
    by_cases hmem : filenode ∈ [0, 16384, 16385, 16390]
    · simp only [List.mem_cons, List.not_mem_nil, or_false] at hmem
      rcases hmem with rfl | rfl | rfl | rfl <;> rfl
    · simp only [List.mem_cons, List.not_mem_nil, or_false, not_or] at hmem
      obtain ⟨h₀, h₁, h₂, h₃⟩ := hmem
      simp [layerPages, imagesOf, layerImages, LayerKey.OfRel, relmapKey, firstKey, h₀, h₁, h₂, h₃, Ne.symm h₀,
        Ne.symm h₁, Ne.symm h₂, Ne.symm h₃]

/-- What is printed: the mapping, the schema and the row. -/
def layerLines : List TableLine :=
  [.relmapper 2 16384 16385,
    .derived
      { name := "t", oid := 16390, dbOid := 5, relNode := 16390, toastRelNode := none, cols := [⟨"id", .int4⟩],
        phys := [.live ⟨"id", .int4⟩], hasFastDefaults := false, pk := [] },
    .tuple 0 1 (.ok [some (.i32 42)])]

end Sample

/-- The table `t` of the layer, with its row. -/
theorem layerTable_holds_row : parseSummary Sample.layerFile = .ok Sample.layerSummary ∧ ∃ fuel, ∀ more, fuel ≤ more →
    layerTable (· < 2 ^ 20) .pglzOnly (fun _ => .error "no zstd") (fun _ => .ok []) "t" 5 Sample.layerFile
        Sample.layerSummary more = some (.ok (), Sample.layerLines) := by
  have hlines : (tableLines (· < 2 ^ 20) .pglzOnly (fun _ => .ok []) "t" (databaseSource 5 Sample.layerPages)
      (storedBlocks Sample.layerPages) Sample.layerRelmap).output = (.ok (), Sample.layerLines) := by
    decide +kernel
  rw [← hlines]
  exact layerTable_holds Sample.layerFile_image Sample.layerImages_holds _ .pglzOnly (fun _ => .ok []) "t"

end Ltap
