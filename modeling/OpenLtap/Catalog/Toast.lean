-- SUMMARY: The chunks on the pages of a toast relation (`catalog.rs`): which out-of-line values they make readable.
import OpenLtap.Catalog.Pages
import OpenLtap.Wal.OutOfLine

/-!
# Out-of-line values of a snapshot

Rows that are read from pages point to values in chunks, and the chunks are on the pages of a
relation of their own. These are all buffered before a row is read, under no transaction. No
chunk is asked whether it is visible.
-/

namespace Ltap

/-- The offset numbers of a page, as many as its line pointers take up. -/
def pageOffnums (page : Bytes) : List Nat :=
  (List.range ((fromLe ((page.drop 12).take 2) - 24) / 4)).map (· + 1)

/-- A chunk as it is decoded: value id, sequence number and data. -/
abbrev Chunk := Oid × Int × Bytes

/-- The chunks among the tuples of a page. What is not a chunk is passed over. -/
def pageChunks (z : Codecs) (page : Bytes) : List Nat → ToastCache × Nat → Except Fault (ToastCache × Nat)
  | [], acc => .ok acc
  | offnum :: offnums, (cache, chunks) =>
    match decodeToastChunkFromPage z page offnum with
    | .ok (valueid, seq, data) => pageChunks z page offnums (cache.addChunk 0 valueid seq data, chunks + 1)
    | .error (.error _) => pageChunks z page offnums (cache, chunks)
    | .error .panic => .error .panic

/-- The cache with the chunks of the relation, and how many they are. -/
def preloadToast (z : Codecs) (src : PageSource) (toastNode : Oid) (cache : ToastCache) :
    Except Fault (ToastCache × Nat) := do
  let pages ← src.relPages toastNode
  (pages.filter (·.length = pageSize)).foldlM (fun acc page => pageChunks z page (pageOffnums page) acc) (cache, 0)

/-! ## What is buffered -/

section Buffered

variable {z : Codecs}

/-- The chunks of some offsets of a page. -/
def chunksAt (z : Codecs) (page : Bytes) (offnums : List Nat) : List Chunk :=
  offnums.filterMap fun offnum => (decodeToastChunkFromPage z page offnum).toOption

/-- The chunks of a relation, page by page. -/
def chunksOn (z : Codecs) (pages : List Bytes) : List Chunk :=
  (pages.filter (·.length = pageSize)).flatMap fun page => chunksAt z page (pageOffnums page)

def ToastCache.addChunks (cache : ToastCache) (chunks : List Chunk) : ToastCache :=
  chunks.foldl (fun c p => c.addChunk 0 p.1 p.2.1 p.2.2) cache

theorem pageChunks_ok_iff {page : Bytes} {offnums : List Nat} {cache : ToastCache} {n : Nat} {r : ToastCache × Nat} :
    pageChunks z page offnums (cache, n) = .ok r ↔
      (∀ offnum ∈ offnums, decodeToastChunkFromPage z page offnum ≠ .error .panic) ∧
        r = (cache.addChunks (chunksAt z page offnums), n + (chunksAt z page offnums).length) := by
  induction offnums generalizing cache n with
  | nil => exact ⟨fun h => ⟨by simp, (Except.ok.inj h).symm⟩, fun h => congrArg Except.ok h.2.symm⟩
  | cons offnum offnums ih =>
    rw [pageChunks, List.forall_mem_cons]
    cases hdecode : decodeToastChunkFromPage z page offnum with
    | ok chunk =>
      have hchunks : chunksAt z page (offnum :: offnums) = chunk :: chunksAt z page offnums := by
        rw [chunksAt, List.filterMap_cons_some (b := chunk) (by rw [hdecode]; rfl), chunksAt]
      rw [hchunks, List.length_cons, ← Nat.add_assoc, Nat.add_right_comm n]
      exact ih.trans ⟨fun h => ⟨⟨by rintro ⟨⟩, h.1⟩, h.2⟩, fun h => ⟨h.1.2, h.2⟩⟩
    | error e =>
      cases e with
      | panic => exact iff_of_false (by rintro ⟨⟩) fun h => h.1.1 rfl
      | error e =>
        have hchunks : chunksAt z page (offnum :: offnums) = chunksAt z page offnums := by
          rw [chunksAt, List.filterMap_cons_none (by rw [hdecode]; rfl), chunksAt]
        rw [hchunks]
        exact ih.trans ⟨fun h => ⟨⟨by rintro ⟨⟩, h.1⟩, h.2⟩, fun h => ⟨h.1.2, h.2⟩⟩

theorem pagesChunks_ok_iff {pages : List Bytes} {cache : ToastCache} {n : Nat} {r : ToastCache × Nat} :
    pages.foldlM (fun acc page => pageChunks z page (pageOffnums page) acc) (cache, n) = .ok r ↔
      (∀ page ∈ pages, ∀ offnum ∈ pageOffnums page, decodeToastChunkFromPage z page offnum ≠ .error .panic) ∧
        r = (cache.addChunks (pages.flatMap fun page => chunksAt z page (pageOffnums page)),
          n + (pages.flatMap fun page => chunksAt z page (pageOffnums page)).length) := by
  induction pages generalizing cache n with
  | nil => exact ⟨fun h => ⟨by simp, (Except.ok.inj h).symm⟩, fun h => congrArg Except.ok h.2.symm⟩
  | cons page pages ih =>
    rw [List.foldlM_cons, bind_eq_ok, List.forall_mem_cons, List.flatMap_cons, ToastCache.addChunks, List.foldl_append,
      List.length_append, ← Nat.add_assoc]
    constructor
    · rintro ⟨⟨cache', n'⟩, hpage, hrest⟩
      obtain ⟨hpanic, heq⟩ := pageChunks_ok_iff.mp hpage
      obtain ⟨rfl, rfl⟩ := Prod.mk.inj heq
      obtain ⟨hpanics, hr⟩ := ih.mp hrest
      exact ⟨⟨hpanic, hpanics⟩, hr⟩
    · rintro ⟨⟨hpanic, hpanics⟩, hr⟩
      exact ⟨_, pageChunks_ok_iff.mpr ⟨hpanic, rfl⟩, ih.mpr ⟨hpanics, hr⟩⟩

/-- All chunks of the pages are in the cache, and they are counted, unless the decoding of a tuple panics. -/
theorem preloadToast_ok_iff {src : PageSource} {toastNode : Oid} {pages : List Bytes}
    (hpages : src.relPages toastNode = .ok pages) {cache : ToastCache} {r : ToastCache × Nat} :
    preloadToast z src toastNode cache = .ok r ↔
      (∀ page ∈ pages.filter (·.length = pageSize), ∀ offnum ∈ pageOffnums page,
        decodeToastChunkFromPage z page offnum ≠ .error .panic) ∧
        r = (cache.addChunks (chunksOn z pages), (chunksOn z pages).length) := by
  have hrun : preloadToast z src toastNode cache = (pages.filter (·.length = pageSize)).foldlM
      (fun acc page => pageChunks z page (pageOffnums page) acc) (cache, 0) := by
    rw [preloadToast, hpages]
    rfl
  rw [hrun, pagesChunks_ok_iff, Nat.zero_add]
  rfl

/-- The chunks of one value. -/
def piecesFor (valueid : Oid) (chunks : List Chunk) : List (Int × Bytes) :=
  (chunks.filter (·.1 = valueid)).map (·.2)

/-- The first chunk of a value begins its entry, and further ones are inserted. -/
theorem lookup_addChunks (valueid : Oid) (chunks : List Chunk) (cache : ToastCache) :
    (cache.addChunks chunks).vals.lookup valueid =
      match cache.vals.lookup valueid with
      | some (owner, cs) => some (owner, inserted (piecesFor valueid chunks) cs)
      | none => if piecesFor valueid chunks = [] then none else some (0, inserted (piecesFor valueid chunks) []) := by
  induction chunks generalizing cache with
  | nil => cases hlook : cache.vals.lookup valueid <;> exact hlook
  | cons p chunks ih =>
    obtain ⟨id, seq, data⟩ := p
    have hnext : cache.addChunks ((id, seq, data) :: chunks) = (cache.addChunk 0 id seq data).addChunks chunks := rfl
    rw [hnext, ih]
    by_cases hid : id = valueid
    · subst hid
      have hpieces : piecesFor id ((id, seq, data) :: chunks) = (seq, data) :: piecesFor id chunks := by
        rw [piecesFor, List.filter_cons_of_pos (by simp), List.map_cons, piecesFor]
      rw [hpieces]
      cases hlook : cache.vals.lookup id with
      | some entry =>
        simp only [ToastCache.addChunk, hlook, Option.getD_some, AList.lookup_insert]
        rfl
      | none =>
        simp only [ToastCache.addChunk, hlook, Option.getD_none, AList.lookup_insert]
        rfl
    · have hpieces : piecesFor valueid ((id, seq, data) :: chunks) = piecesFor valueid chunks := by
        rw [piecesFor, List.filter_cons_of_neg (by simpa using hid), piecesFor]
      have hlook : (cache.addChunk 0 id seq data).vals.lookup valueid = cache.vals.lookup valueid := by
        simp only [ToastCache.addChunk, AList.lookup_insert_ne (Ne.symm hid)]
      rw [hpieces, hlook]

/-- Over the pages of a toast relation, whatever their order, a pointer reads as its value just if every
chunk of the value is on them and no further one is there under its id. This is for pages on which every
chunk under the id is one of the value's, or has a number of its own and is not empty: a chunk that carries
other bytes under one of the value's numbers would replace it, and an empty further one would not show. -/
theorem preloadToast_reads (o : OutOfLine z) {src : PageSource} {toastNode : Oid} {pages : List Bytes}
    (hpages : src.relPages toastNode = .ok pages) {cache : ToastCache} {n : Nat}
    (h : preloadToast z src toastNode .empty = .ok (cache, n))
    (hpieces : ∀ p ∈ piecesFor o.valueid (chunksOn z pages), Genuine o.chunks p ∨ Extra o.chunks p)
    (before after : Bytes) :
    decodeVarlena z cache (before ++ (o.pointer ++ after)) before.length = .ok (some o.value, before.length + 18) ↔
      (∀ k : Nat, k < o.chunks.length → (k : Int) ∈ (piecesFor o.valueid (chunksOn z pages)).map (·.1)) ∧
        ∀ p ∈ piecesFor o.valueid (chunksOn z pages), ¬ Extra o.chunks p := by
  obtain ⟨rfl, -⟩ := Prod.mk.inj ((preloadToast_ok_iff hpages).mp h).2
  have hlook := lookup_addChunks o.valueid (chunksOn z pages) .empty
  generalize piecesFor o.valueid (chunksOn z pages) = pieces at *
  have hempty : (ToastCache.empty.vals.lookup o.valueid) = none := rfl
  rw [hempty] at hlook
  dsimp only at hlook
  rw [o.decodeVarlena_pointer]
  by_cases hnil : pieces = []
  · rw [if_pos hnil] at hlook
    have hnot : ¬ (ToastCache.empty.addChunks (chunksOn z pages)).contains o.valueid = true := by
      rw [ToastCache.contains, hlook]
      simp
    rw [if_neg hnot]
    refine iff_of_false (by rintro ⟨⟩) ?_
    rintro ⟨hall, -⟩
    have := hall 0 o.chunks_pos
    rw [hnil] at this
    exact absurd this List.not_mem_nil
  rw [if_neg hnil] at hlook
  rw [if_pos (OutOfLine.contains_of_lookup hlook)]
  by_cases hgood : (∀ k : Nat, k < o.chunks.length → (k : Int) ∈ pieces.map (·.1)) ∧ ∀ p ∈ pieces, ¬ Extra o.chunks p
  · have hassemble := OutOfLine.inserted_complete (fun p hp => (hpieces p hp).resolve_right (hgood.2 p hp)) hgood.1
    rw [o.resolve_stored _ hlook hassemble]
    exact iff_of_true rfl hgood
  · refine iff_of_false ?_ hgood
    have hbad : (∃ k : Nat, k < o.chunks.length ∧ (k : Int) ∉ pieces.map (·.1)) ∨ ∃ p ∈ pieces, Extra o.chunks p := by
      by_contra hneither
      rw [not_or] at hneither
      push Not at hneither
      exact hgood hneither
    obtain ⟨what, hbail⟩ := o.resolve_other _ hlook (OutOfLine.inserted_other hpieces hbad)
    rw [hbail]
    rintro ⟨⟩

end Buffered

/-! ## Two pages of one chunk each -/

namespace Sample

/-- A chunk of value 99 as a tuple. -/
def chunkTuple (seq : Nat) (data : Bytes) (hseq : seq < 2 ^ 31) (hdata : data.length ≤ 126) : HeapTuple where
  infomask2 := 3
  infomask := 2
  hoff := 24
  payload := (toastRow 99 seq data (by decide : 99 < 4294967296) hseq hdata).payload
  infomask2_lt := by decide
  infomask_lt := (by decide : 2 < 65536)
  hoff_lt := (by decide : 24 + 1 ≤ 256)

/-- The header of a frozen tuple up to its infomasks. -/
def frozenHead : Bytes := 2 :: List.replicate 17 0

/-- A page with one line pointer, and the tuple right behind it. -/
def onePage (t : HeapTuple) : Bytes :=
  List.replicate 12 0 ++ (toLe 2 28 ++ List.replicate 10 0) ++
    (toLe 4 (28 + 2 ^ 15 + (t.pageData frozenHead).length * 2 ^ 17) ++
      (t.pageData frozenHead ++
        List.replicate (pageSize - 28 - (t.pageData frozenHead).length) 0))

theorem pageData_length (t : HeapTuple) : (t.pageData frozenHead).length = 23 + t.payload.length := by
  simp only [HeapTuple.pageData, frozenHead, List.length_append, List.length_cons, List.length_replicate, toLe_length]
  omega

theorem onePage_length {t : HeapTuple} (h : t.payload.length ≤ 1000) : (onePage t).length = pageSize := by
  simp only [onePage, List.length_append, List.length_replicate, toLe_length, pageData_length, pageSize]
  omega

theorem onePage_onPage {t : HeapTuple} (h : t.payload.length ≤ 1000) : Nonempty (t.OnPage (onePage t) 1) := by
  have hlen : (t.pageData frozenHead).length < 2 ^ 15 := by
    rw [pageData_length]
    omega
  have htuple : slice (onePage t) 28 (t.pageData frozenHead).length =
      some (t.pageData frozenHead) := by
    rw [onePage, ← List.append_assoc]
    exact slice_append (by rw [List.length_append, toLe_length]; rfl) rfl
  exact ⟨28, frozenHead, by decide, by decide, hlen, by decide, slice_append (by decide) (toLe_length 4 _),
    htuple⟩

theorem onePage_offnums (t : HeapTuple) : pageOffnums (onePage t) = [1] := by
  have hlower : ((onePage t).drop 12).take 2 = toLe 2 28 := by
    rw [onePage, List.append_assoc, List.drop_left' List.length_replicate, List.append_assoc,
      List.take_left' (toLe_length 2 28)]
  rw [pageOffnums, hlower]
  rfl

theorem onePage_chunk {seq : Nat} {data : Bytes} (hseq : seq < 2 ^ 31) (hdata : data.length ≤ 126) :
    decodeToastChunkFromPage .pglzOnly (onePage (chunkTuple seq data hseq hdata)) 1 = .ok (99, (seq : Int), data) := by
  have hlen : (chunkTuple seq data hseq hdata).payload.length ≤ 1000 := by
    change ([0] ++ (toLe 4 99 ++ (toLe 4 (toTwos 32 seq) ++ UInt8.ofNat _ :: data))).length ≤ 1000
    simp only [List.length_append, List.length_cons, List.length_nil, toLe_length]
    omega
  obtain ⟨hon⟩ := onePage_onPage hlen
  rw [decodeToastChunkFromPage, hon.tupleOnPage]
  exact (toastRow 99 seq data (by decide) hseq hdata).decodeToastChunk_payload

/-- The second chunk on the first page. -/
def toastPages : List Bytes :=
  [onePage (chunkTuple 1 [30] (by decide : 1 < 2147483648) (by decide : 1 ≤ 126)),
    onePage (chunkTuple 0 [10, 20] (by decide : 0 < 2147483648) (by decide : 2 ≤ 126))]

theorem chunksOn_toastPages : chunksOn .pglzOnly toastPages = [(99, 1, [30]), (99, 0, [10, 20])] := by
  have hfull : toastPages.filter (·.length = pageSize) = toastPages := by
    refine List.filter_eq_self.mpr fun page hpage => decide_eq_true ?_
    simp only [toastPages, List.mem_cons, List.not_mem_nil, or_false] at hpage
    rcases hpage with rfl | rfl <;> exact onePage_length (by decide)
  rw [chunksOn, hfull]
  simp only [toastPages, List.flatMap_cons, List.flatMap_nil, onePage_offnums, chunksAt, List.filterMap_cons,
    onePage_chunk, List.filterMap_nil, Except.toOption]
  rfl

/-- A source that has these pages of any relation. -/
def toastSource : PageSource where
  db := 5
  relNblocks _ := .ok 2
  getPage _ _ := bail "not asked for"
  relPages _ := .ok toastPages

end Sample

theorem preloadToast_reads_swapped :
    ∃ cache, preloadToast .pglzOnly Sample.toastSource 16390 .empty = .ok (cache, 2) ∧
      decodeVarlena .pglzOnly cache Sample.outOfLine.pointer 0 = .ok (some [10, 20, 30], 18) := by
  have hpieces : piecesFor Sample.outOfLine.valueid (chunksOn .pglzOnly Sample.toastPages) =
      [(((1 : Nat) : Int), [30]), (((0 : Nat) : Int), [10, 20])] := by
    rw [Sample.chunksOn_toastPages]
    rfl
  have hgenuine : ∀ p ∈ piecesFor Sample.outOfLine.valueid (chunksOn .pglzOnly Sample.toastPages),
      Genuine Sample.outOfLine.chunks p := by
    simp only [hpieces, List.mem_cons, List.not_mem_nil, or_false]
    rintro p (rfl | rfl)
    · exact ⟨1, rfl, rfl⟩
    · exact ⟨0, rfl, rfl⟩
  have hrun : preloadToast .pglzOnly Sample.toastSource 16390 .empty =
      .ok (ToastCache.empty.addChunks (chunksOn .pglzOnly Sample.toastPages), 2) := by
    refine (preloadToast_ok_iff rfl).mpr ⟨?_, by rw [Sample.chunksOn_toastPages]; rfl⟩
    intro page hpage offnum hoffnum
    have hmem := (List.mem_filter.mp hpage).1
    simp only [Sample.toastPages, List.mem_cons, List.not_mem_nil, or_false] at hmem
    rcases hmem with rfl | rfl <;>
    · rw [Sample.onePage_offnums, List.mem_singleton] at hoffnum
      rw [hoffnum, Sample.onePage_chunk]
      rintro ⟨⟩
  refine ⟨_, hrun, ?_⟩
  have hreads := preloadToast_reads Sample.outOfLine rfl hrun (fun p hp => .inl (hgenuine p hp)) [] []
  rw [List.append_nil] at hreads
  refine hreads.mpr ⟨?_, ?_⟩
  · intro k hk
    rw [hpieces]
    have hk : k < 2 := hk
    interval_cases k <;> simp
  · intro p hp hextra
    obtain ⟨k, hk, hchunk⟩ := hgenuine p hp
    exact hextra.1 k (List.getElem?_eq_some_iff.mp hchunk).1 hk

end Ltap
