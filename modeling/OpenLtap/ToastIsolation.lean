-- SUMMARY: When the out-of-line values of one toast relation are read apart from those of others.
import OpenLtap.Engine.Moves
import OpenLtap.Recovery.RestartFloor
import OpenLtap.Wal.Encode
import OpenLtap.Wal.ToastReads

/-!
# Out-of-line values of several relations

Value ids are unique within one toast relation, and the cache is keyed by the value id alone.
Beside the cache stands what it would hold if only one relation wrote to it. The two agree on
the values of that relation as long as no other relation has chunks under the same value id.
-/

namespace Ltap

/-! ## What the cache sees of a run -/

/-- A change of the cache. -/
inductive ToastEvent where
  | chunk (rel : RelTag) (xid : Xid) (valueid : Oid) (seq : Int) (data : Bytes)
  /-- A transaction and its subtransactions are over. -/
  | ended (xids : List Xid)
  deriving DecidableEq, Repr

def ToastCache.apply (c : ToastCache) : ToastEvent → ToastCache
  | .chunk _ xid valueid seq data => c.addChunk xid valueid seq data
  | .ended xids => xids.foldl gcXid c

namespace Engine

variable (dec : TupleDecoder)

/-- What a record does to the cache, with the relation that a chunk was inserted into. -/
def toastEvents (e : Engine) (lsn : Lsn) (rec : Record) : List ToastEvent :=
  match e.effectOf dec lsn rec with
  | .toastChunk xid valueid seq data =>
    ((rec.blocks.find? (·.id = 0)).map fun block0 => .chunk block0.rel xid valueid seq data).toList
  | .commit xid subxids | .abort xid subxids => [.ended (xid :: subxids)]
  | .skip | .suspect _ | .ops .. | .drift _ => []

/-- A chunk comes with the block that it was inserted into. -/
theorem effectOf_toastChunk {e : Engine} {lsn : Lsn} {rec : Record} {xid : Xid} {valueid : Oid} {seq : Int}
    {data : Bytes} (h : e.effectOf dec lsn rec = .toastChunk xid valueid seq data) :
    ∃ block0, rec.blocks.find? (·.id = 0) = some block0 ∧ block0.rel.rel ∈ e.toastRels := by
  have hcatalog : catalogEffect rec ≠ .toastChunk xid valueid seq data := by
    unfold catalogEffect
    split <;> simp
  have htable : ∀ (ti : Nat) (r : Except DecodeError (List Op)),
      tableEffect rec.xid ti r ≠ .toastChunk xid valueid seq data := by
    intro ti r
    unfold tableEffect
    split <;> simp
  unfold effectOf at h
  split at h
  · cases h
  rename_i rmid op fmt _
  split_ifs at h
  · unfold smgrEffect at h
    repeat' split at h
    all_goals cases h
  · unfold heapEffect at h
    split at h
    · cases h
    rename_i block0 hblock
    split_ifs at h with hcat hinsert
    · exact absurd h hcatalog
    · exact ⟨block0, hblock, hinsert.2⟩
    · split at h
      · cases h
      · exact absurd h (htable _ _)
  · unfold heap2Effect at h
    repeat' split at h
    all_goals first | cases h | exact absurd h hcatalog | exact absurd h (htable _ _)
  · unfold xactEffect at h
    dsimp only at h
    split_ifs at h

theorem handleRecord_toast (e : Engine) (now : Instant) (lsn : Lsn) (rec : Record) :
    (e.handleRecord dec now lsn rec).toast = (e.toastEvents dec lsn rec).foldl ToastCache.apply e.toast := by
  unfold handleRecord toastEvents
  cases heff : e.effectOf dec lsn rec with
  | skip | suspect | ops | drift | commit | abort => rfl
  | toastChunk xid valueid seq data =>
    obtain ⟨block0, hblock, -⟩ := effectOf_toastChunk dec heff
    simp only [hblock]
    rfl

/-- A move that leaves the cache alone: a record is handled by `handle_record`, and outcomes that
the host reports are steps of their own. -/
def Move.Quiet : Move → Prop
  | .record _ _ (.suspect _) => True
  | .record .. | .forget => False
  | .applied _ | .flush .. | .compact | .remap .. | .resnapshot .. | .stop => True

theorem Move.Quiet.toast_eq {m : Move} (hm : m.Quiet) (e : Engine) : (e.move dec m).1.toast = e.toast := by
  cases m with
  | record now lsn eff =>
    cases eff with
    | suspect xid => rfl
    | skip | toastChunk | ops | drift | commit | abort => exact absurd hm not_false
  | forget => exact absurd hm not_false
  | applied | resnapshot | stop => rfl
  | flush env now persisted => exact (e.flushAll_sameVolatile env.appendOk now persisted).toast
  | compact => exact e.maybeCompact_sameVolatile.toast
  | remap env cfg now ddlLsn persisted => exact (remapCheck_sameVolatile dec _ env cfg now ddlLsn persisted).toast

/-- A process has come to this state with these events since its cache was last empty. -/
inductive Buffers : List ToastEvent → Engine → Prop where
  | start {e : Engine} : e.toast = .empty → Buffers [] e
  | record {w : List ToastEvent} {e : Engine} (now : Instant) (lsn : Lsn) (rec : Record) :
    Buffers w e → Buffers (w ++ e.toastEvents dec lsn rec) (e.handleRecord dec now lsn rec)
  /-- The embedding host reports an outcome. -/
  | commit {w : List ToastEvent} {e : Engine} (now : Instant) (lsn : Lsn) (xid : Xid) (subxids : List Xid) :
    Buffers w e → Buffers (w ++ [.ended (xid :: subxids)]) (e.handleCommit now lsn xid subxids)
  | abort {w : List ToastEvent} {e : Engine} (xid : Xid) (subxids : List Xid) :
    Buffers w e → Buffers (w ++ [.ended (xid :: subxids)]) (e.handleAbort xid subxids)
  | quiet {w : List ToastEvent} {e : Engine} {m : Move} : m.Quiet → Buffers w e → Buffers w (e.move dec m).1

theorem Buffers.toast_eq {w : List ToastEvent} {e : Engine} (h : Buffers dec w e) :
    e.toast = w.foldl ToastCache.apply .empty := by
  induction h with
  | start hempty => exact hempty
  | record now lsn rec _ ih => rw [handleRecord_toast, List.foldl_append, ih]
  | commit now lsn xid subxids _ ih | abort xid subxids _ ih =>
    rw [List.foldl_append, ← ih]
    rfl
  | quiet hm _ ih => rw [hm.toast_eq, ih]

end Engine

/-! ## The relations behind the buffered values -/

/-- The cache, with the relations that the chunks of each value came from. -/
structure Traced where
  cache : ToastCache
  sources : Oid → List RelTag

namespace Traced

def empty : Traced := ⟨.empty, fun _ => []⟩

def step (t : Traced) : ToastEvent → Traced
  | .chunk rel xid valueid seq data =>
    { cache := t.cache.addChunk xid valueid seq data
      sources := Function.update t.sources valueid (rel :: t.sources valueid) }
  | .ended xids =>
    -- A value keeps its sources as long as its owner is open.
    let cache := xids.foldl ToastCache.gcXid t.cache
    { cache, sources := fun v => if cache.contains v then t.sources v else [] }

def run (t : Traced) (w : List ToastEvent) : Traced := w.foldl step t

/-- The chunks under the value id of a new one belong to the relation if the new one does, and
only then. -/
def Separate (rel : RelTag) (t : Traced) : ToastEvent → Prop
  | .chunk rel' _ valueid _ _ => ∀ r ∈ t.sources valueid, r = rel ↔ rel' = rel
  | .ended _ => True

theorem run_cache (t : Traced) (w : List ToastEvent) : (t.run w).cache = w.foldl ToastCache.apply t.cache := by
  induction w generalizing t with
  | nil => rfl
  | cons ev w ih =>
    cases ev with
    | chunk rel xid valueid seq data => exact ih _
    | ended xids => exact ih _

/-- Every event of a run finds the values of the relation separate. -/
def Apart (rel : RelTag) : Traced → List ToastEvent → Prop
  | _, [] => True
  | t, ev :: w => t.Separate rel ev ∧ Apart rel (t.step ev) w

end Traced

/-! ## The events of one relation -/

/-- The chunks of a relation and the ends of transactions that have chunks there, with the
transactions that have some at first. -/
def eventsOf (rel : RelTag) : List Xid → List ToastEvent → List ToastEvent
  | _, [] => []
  | owners, .chunk rel' xid valueid seq data :: w =>
    if rel' = rel then .chunk rel' xid valueid seq data :: eventsOf rel (xid :: owners) w
    else eventsOf rel owners w
  | owners, .ended xids :: w =>
    let own := xids.filter (· ∈ owners)
    (if own = [] then [] else [.ended own]) ++ eventsOf rel (owners.filter (· ∉ xids)) w

/-- What the cache would hold if only this relation wrote to it. -/
def cacheOf (rel : RelTag) (w : List ToastEvent) : ToastCache := (eventsOf rel [] w).foldl ToastCache.apply .empty

theorem ToastCache.addChunk_lookup_self (c : ToastCache) (xid : Xid) (valueid : Oid) (seq : Int) (data : Bytes) :
    (c.addChunk xid valueid seq data).vals.lookup valueid =
      some (((c.vals.lookup valueid).getD (xid, [])).1,
        insertChunk seq data ((c.vals.lookup valueid).getD (xid, [])).2) :=
  AList.lookup_insert _

theorem ToastCache.addChunk_lookup_ne (c : ToastCache) (xid : Xid) {valueid v : Oid} (seq : Int) (data : Bytes)
    (hne : v ≠ valueid) : (c.addChunk xid valueid seq data).vals.lookup v = c.vals.lookup v :=
  AList.lookup_insert_ne hne

namespace Traced

@[simp]
theorem sources_chunk_self (t : Traced) (rel : RelTag) (xid : Xid) (valueid : Oid) (seq : Int) (data : Bytes) :
    (t.step (.chunk rel xid valueid seq data)).sources valueid = rel :: t.sources valueid :=
  Function.update_self _ _ _

theorem sources_chunk_ne (t : Traced) (rel : RelTag) (xid : Xid) {valueid v : Oid} (seq : Int) (data : Bytes)
    (hne : v ≠ valueid) : (t.step (.chunk rel xid valueid seq data)).sources v = t.sources v :=
  Function.update_of_ne hne _ _

end Traced

/-- The private cache of a relation agrees with the shared one, as far as the relation's values
go. Its entries belong to transactions that are still open. -/
structure Traced.Shows (rel : RelTag) (t : Traced) (c : ToastCache) (owners : List Xid) : Prop where
  sources : ∀ v, t.sources v = [] ↔ t.cache.vals.lookup v = none
  own : ∀ v, rel ∈ t.sources v → c.vals.lookup v = t.cache.vals.lookup v
  pure : ∀ v, rel ∈ t.sources v → ∀ r ∈ t.sources v, r = rel
  owned : ∀ v, rel ∈ t.sources v → ∀ x cs, t.cache.vals.lookup v = some (x, cs) → x ∈ owners
  other : ∀ v, rel ∉ t.sources v → c.vals.lookup v = none

namespace Traced.Shows

variable {rel : RelTag} {t : Traced} {c : ToastCache} {owners : List Xid}

theorem empty (rel : RelTag) : Shows rel .empty .empty [] where
  sources _ := iff_of_true rfl rfl
  own _ hv := absurd hv List.not_mem_nil
  pure _ hv := absurd hv List.not_mem_nil
  owned _ hv := absurd hv List.not_mem_nil
  other _ _ := rfl

/-- A value without chunks of other relations is the same in both. -/
theorem lookup_eq (h : Shows rel t c owners) {v : Oid} (hv : ∀ r ∈ t.sources v, r = rel) :
    c.vals.lookup v = t.cache.vals.lookup v := by
  by_cases hmem : rel ∈ t.sources v
  · exact h.own v hmem
  · have hnil : t.sources v = [] := by
      rw [List.eq_nil_iff_forall_not_mem]
      intro r hr
      exact hmem (hv r hr ▸ hr)
    rw [h.other v hmem, (h.sources v).mp hnil]

/-- A value has sources exactly while chunks of it are buffered. -/
theorem sources_chunk (h : Shows rel t c owners) (rel' : RelTag) (xid : Xid) (valueid : Oid) (seq : Int) (data : Bytes)
    (v : Oid) :
    (t.step (.chunk rel' xid valueid seq data)).sources v = [] ↔
      (t.cache.addChunk xid valueid seq data).vals.lookup v = none := by
  by_cases hv : v = valueid
  · rw [hv, sources_chunk_self, ToastCache.addChunk_lookup_self]
    simp
  · rw [sources_chunk_ne t rel' xid seq data hv, ToastCache.addChunk_lookup_ne _ xid seq data hv]
    exact h.sources v

/-- A chunk of the relation goes into both. -/
theorem chunk (h : Shows rel t c owners) {xid : Xid} {valueid : Oid} {seq : Int} {data : Bytes}
    (hsep : ∀ r ∈ t.sources valueid, r = rel) :
    Shows rel (t.step (.chunk rel xid valueid seq data)) (c.addChunk xid valueid seq data) (xid :: owners) := by
  have hcache : (t.step (.chunk rel xid valueid seq data)).cache = t.cache.addChunk xid valueid seq data := rfl
  constructor
  · exact h.sources_chunk rel xid valueid seq data
  · intro v hmem
    by_cases hv : v = valueid
    · rw [hv, hcache, ToastCache.addChunk_lookup_self, ToastCache.addChunk_lookup_self, h.lookup_eq hsep]
    · rw [sources_chunk_ne t rel xid seq data hv] at hmem
      rw [hcache, ToastCache.addChunk_lookup_ne _ xid seq data hv, ToastCache.addChunk_lookup_ne _ xid seq data hv]
      exact h.own v hmem
  · intro v hmem
    by_cases hv : v = valueid
    · rw [hv, sources_chunk_self]
      exact List.forall_mem_cons.mpr ⟨rfl, hsep⟩
    · rw [sources_chunk_ne t rel xid seq data hv] at hmem ⊢
      exact h.pure v hmem
  · intro v hmem x cs hlook
    rw [hcache] at hlook
    by_cases hv : v = valueid
    · rw [hv, ToastCache.addChunk_lookup_self] at hlook
      obtain ⟨rfl, -⟩ := Prod.mk.inj (Option.some.inj hlook)
      -- The first chunk of a value makes its transaction the owner; a later one finds an owner.
      cases hold : t.cache.vals.lookup valueid with
      | none => exact List.mem_cons_self
      | some entry =>
        have hne : t.sources valueid ≠ [] := fun hnil => by simp [(h.sources valueid).mp hnil] at hold
        obtain ⟨r, hr⟩ := List.exists_mem_of_ne_nil _ hne
        exact List.mem_cons_of_mem _ (h.owned valueid (hsep r hr ▸ hr) entry.1 entry.2 hold)
    · rw [sources_chunk_ne t rel xid seq data hv] at hmem
      rw [ToastCache.addChunk_lookup_ne _ xid seq data hv] at hlook
      exact List.mem_cons_of_mem _ (h.owned v hmem x cs hlook)
  · intro v hmem
    by_cases hv : v = valueid
    · rw [hv, sources_chunk_self] at hmem
      exact absurd List.mem_cons_self hmem
    · rw [sources_chunk_ne t rel xid seq data hv] at hmem
      rw [ToastCache.addChunk_lookup_ne _ xid seq data hv]
      exact h.other v hmem

/-- A chunk of another relation goes into the shared cache only, under a value id that the
relation has no chunks of. -/
theorem foreign (h : Shows rel t c owners) {rel' : RelTag} {xid : Xid} {valueid : Oid} {seq : Int} {data : Bytes}
    (hne : rel' ≠ rel) (hsep : rel ∉ t.sources valueid) :
    Shows rel (t.step (.chunk rel' xid valueid seq data)) c owners := by
  have hcache : (t.step (.chunk rel' xid valueid seq data)).cache = t.cache.addChunk xid valueid seq data := rfl
  have hself : rel ∉ (t.step (.chunk rel' xid valueid seq data)).sources valueid := by
    rw [sources_chunk_self]
    exact List.not_mem_cons_of_ne_of_not_mem hne.symm hsep
  have hmoved : ∀ v, rel ∈ (t.step (.chunk rel' xid valueid seq data)).sources v →
      v ≠ valueid ∧ rel ∈ t.sources v := by
    intro v hmem
    have hv : v ≠ valueid := fun hv => hself (hv ▸ hmem)
    exact ⟨hv, sources_chunk_ne t rel' xid seq data hv ▸ hmem⟩
  constructor
  · exact h.sources_chunk rel' xid valueid seq data
  · intro v hmem
    obtain ⟨hv, hmem⟩ := hmoved v hmem
    rw [hcache, ToastCache.addChunk_lookup_ne _ xid seq data hv]
    exact h.own v hmem
  · intro v hmem
    obtain ⟨hv, hmem⟩ := hmoved v hmem
    rw [sources_chunk_ne t rel' xid seq data hv]
    exact h.pure v hmem
  · intro v hmem x cs hlook
    obtain ⟨hv, hmem⟩ := hmoved v hmem
    rw [hcache, ToastCache.addChunk_lookup_ne _ xid seq data hv] at hlook
    exact h.owned v hmem x cs hlook
  · intro v hmem
    by_cases hv : v = valueid
    · exact h.other v (hv ▸ hsep)
    · rw [sources_chunk_ne t rel' xid seq data hv] at hmem
      exact h.other v hmem

/-- The end of transactions drops the same values of the relation from both. -/
theorem ended (h : Shows rel t c owners) (xids : List Xid) :
    Shows rel (t.step (.ended xids)) ((xids.filter (· ∈ owners)).foldl ToastCache.gcXid c)
      (owners.filter (· ∉ xids)) := by
  have hcache : ∀ v, (t.step (.ended xids)).cache.vals.lookup v =
      (t.cache.vals.lookup v).filter (·.1 ∉ xids) := fun v => ToastCache.gc_lookup t.cache xids v
  have hsources : ∀ v, (t.step (.ended xids)).sources v =
      if (t.step (.ended xids)).cache.contains v then t.sources v else [] := fun _ => rfl
  have hkept : ∀ v, rel ∈ (t.step (.ended xids)).sources v →
      rel ∈ t.sources v ∧ (t.step (.ended xids)).sources v = t.sources v := by
    intro v hmem
    rw [hsources] at hmem ⊢
    split at hmem
    · exact ⟨hmem, if_pos ‹_›⟩
    · exact absurd hmem List.not_mem_nil
  have hboth : ∀ v, rel ∈ t.sources v →
      ((xids.filter (· ∈ owners)).foldl ToastCache.gcXid c).vals.lookup v =
        (t.step (.ended xids)).cache.vals.lookup v := by
    intro v hmem
    rw [ToastCache.gc_lookup, hcache, h.own v hmem]
    cases hlook : t.cache.vals.lookup v with
    | none => rfl
    | some entry =>
      -- The owner wrote to the relation, so it is among the ended ones in both or in neither.
      have howner := h.owned v hmem entry.1 entry.2 hlook
      simp [Option.filter_some, howner]
  constructor
  · intro v
    rw [hsources]
    cases hlook : (t.step (.ended xids)).cache.vals.lookup v with
    | none => simp [ToastCache.contains, hlook]
    | some entry =>
      have hold := hlook
      rw [hcache, Option.filter_eq_some_iff] at hold
      have hne : t.sources v ≠ [] := fun hnil => by simp [(h.sources v).mp hnil] at hold
      simp [ToastCache.contains, hlook, hne]
  · intro v hmem
    exact hboth v (hkept v hmem).1
  · intro v hmem
    obtain ⟨hmem, heq⟩ := hkept v hmem
    rw [heq]
    exact h.pure v hmem
  · intro v hmem x cs hlook
    obtain ⟨hmem, heq⟩ := hkept v hmem
    rw [hcache, Option.filter_eq_some_iff] at hlook
    exact List.mem_filter.mpr ⟨h.owned v hmem x cs hlook.1, hlook.2⟩
  · intro v hmem
    -- No source is left either because the entry was dropped or because it was never the relation's.
    by_cases hold : rel ∈ t.sources v
    · rw [hboth v hold]
      by_contra hlook
      have hcontains : (t.step (.ended xids)).cache.contains v = true := Option.isSome_iff_ne_none.mpr hlook
      refine hmem ?_
      rw [hsources, if_pos hcontains]
      exact hold
    · rw [ToastCache.gc_lookup, h.other v hold]
      rfl

/-- Along a run whose events find the values of the relation separate, the caches agree on them. -/
theorem run (h : Shows rel t c owners) {w : List ToastEvent} (hapart : t.Apart rel w) :
    ∃ owners', Shows rel (t.run w) ((eventsOf rel owners w).foldl ToastCache.apply c) owners' := by
  induction w generalizing t c owners with
  | nil => exact ⟨owners, h⟩
  | cons ev w ih =>
    obtain ⟨hsep, hapart⟩ := hapart
    cases ev with
    | chunk rel' xid valueid seq data =>
      by_cases hrel : rel' = rel
      · rw [eventsOf, if_pos hrel]
        subst hrel
        exact ih (h.chunk fun r hr => (hsep r hr).mpr rfl) hapart
      · rw [eventsOf, if_neg hrel]
        exact ih (h.foreign hrel fun hmem => hrel ((hsep rel hmem).mp rfl)) hapart
    | ended xids =>
      have hnext := ih (h.ended xids) hapart
      rw [eventsOf]
      -- The end of foreign transactions only is no event of the relation.
      split
      · rename_i hnone
        rw [hnone] at hnext
        exact hnext
      · exact hnext

end Traced.Shows

/-- The cache of a process holds the values of the relation that its private cache holds, unless
another relation has chunks under the value id. -/
theorem Engine.Buffers.lookup_eq {dec : TupleDecoder} {w : List ToastEvent} {e : Engine} (h : Engine.Buffers dec w e)
    {rel : RelTag} (hapart : Traced.Apart rel .empty w) {v : Oid}
    (hv : ∀ r ∈ (Traced.empty.run w).sources v, r = rel) :
    e.toast.vals.lookup v = (cacheOf rel w).vals.lookup v := by
  obtain ⟨owners, hshows⟩ := (Traced.Shows.empty rel).run hapart
  rw [cacheOf, hshows.lookup_eq hv, Traced.run_cache, h.toast_eq]
  rfl

/-! ## Two runs -/

/-- No chunk of the run meets one of another relation under its value id, with the relation on
either side. And no pointer of the tuple names a value of another relation, as far as the
tuple is decoded with the relation's own chunks. -/
structure KeptApart (z : Codecs) (rel : RelTag) (w : List ToastEvent) (t : PageTuple) (desc : TableDesc)
    (oldRow : Option Row) : Prop where
  chunks : Traced.Apart rel .empty w
  pointers : ∀ valueid, (t.body oldRow).LooksUp z (cacheOf rel w) 0 0 0 desc.phys valueid →
    ∀ r ∈ (Traced.empty.run w).sources valueid, r = rel

theorem KeptApart.decodeTuplePayload_eq {z : Codecs} {dec : TupleDecoder} {rel : RelTag} {w : List ToastEvent}
    {e : Engine} {t : PageTuple} {desc : TableDesc} {oldRow : Option Row} (hw : KeptApart z rel w t desc oldRow)
    (h : Engine.Buffers dec w e) :
    decodeTuplePayload z e.toast t.payload t.infomask2 t.infomask t.hoff desc oldRow =
      decodeTuplePayload z (cacheOf rel w) t.payload t.infomask2 t.infomask t.hoff desc oldRow :=
  decodeTuplePayload_cache fun valueid hlook => h.lookup_eq hw.chunks (hw.pointers valueid hlook)

namespace Sample

/-- The toast relations of two tables. -/
def toastA : RelTag := ⟨1663, 5, 16390⟩
def toastB : RelTag := ⟨1663, 5, 16400⟩

def pointerDesc : TableDesc :=
  { desc "a" 16384 with
    toastRelNode := some 16390, cols := [⟨"doc", .bytea⟩], phys := [.live ⟨"doc", .bytea⟩] }

def toastEngine : Engine :=
  { engine [pointerDesc, desc "b" 16394] with
    relToTable := AList.singleton 16384 0, toastRels := {16390, 16400} }

/-- The insert of a chunk of three bytes. -/
def chunkRecord (xid : Xid) (rel : RelTag) (valueid : Oid) (data : Bytes) : Record where
  xid := xid
  rmid := Rmgr.heap
  info := xlogHeapInsert
  blocks := [{
    id := 0, rel, blkno := 0, image := none
    data := [3, 0, 2, 8, 24] ++ ([0] ++ (toLe 4 valueid ++ (toLe 4 0 ++ (0x09 :: data)))) }]
  mainData := toLe 2 1 ++ [0]

/-- A row of table `a` with a pointer to value 99 of its toast relation. -/
def pointerTuple : PageTuple where
  payload := [0] ++ ([0x01, 18] ++ (toLe 4 7 ++ (toLe 4 3 ++ (toLe 4 99 ++ toLe 4 16390))))
  infomask2 := 1
  infomask := 0x0802
  hoff := 24

def pointerInsert : Record where
  xid := 7
  rmid := Rmgr.heap
  info := xlogHeapInsert
  blocks := [{
    id := 0, rel := ⟨1663, 5, 16384⟩, blkno := 0, image := none
    data := [1, 0, 2, 8, 24] ++ pointerTuple.payload }]
  mainData := toLe 2 1 ++ [0]

def endRecord (xid : Xid) : Record where
  xid := xid
  rmid := Rmgr.xact
  info := xlogXactCommit
  blocks := []
  mainData := []

/-- The records in turn, with what they do to the cache. -/
def toastRun (recs : List Record) : List ToastEvent × Engine :=
  recs.foldl (fun (w, e) rec => (w ++ e.toastEvents (heapDecoder .pglzOnly) 10 rec,
    e.handleRecord (heapDecoder .pglzOnly) 0 10 rec)) ([], toastEngine)

theorem toastRun_buffers (recs : List Record) :
    Engine.Buffers (heapDecoder .pglzOnly) (toastRun recs).1 (toastRun recs).2 := by
  induction recs using List.reverseRecOn with
  | nil => exact .start rfl
  | append_singleton recs rec ih =>
    rw [toastRun, List.foldl_append]
    exact .record 0 10 rec ih

def chunkA : Record := chunkRecord 7 toastA 99 [10, 20, 30]
def chunkB (valueid : Oid) : Record := chunkRecord 8 toastB valueid [40, 50, 60]

theorem toastRun_alone : (toastRun [chunkA]).1 = [.chunk toastA 7 99 0 [10, 20, 30]] := by decide +kernel

theorem toastRun_beside : (toastRun [chunkB 55, chunkA, endRecord 8]).1 =
    [.chunk toastB 8 55 0 [40, 50, 60], .chunk toastA 7 99 0 [10, 20, 30], .ended [8]] := by decide +kernel

/-- The tuple has one pointer. -/
theorem pointerTuple_looksUp {z : Codecs} {toast : ToastCache} {valueid : Oid} {oldRow : Option Row}
    (h : (pointerTuple.body oldRow).LooksUp z toast 0 0 0 pointerDesc.phys valueid) : valueid = 99 := by
  obtain ⟨j, offj, pc, harrives, -, -, -, -, -, s, hslice, rfl⟩ := h
  cases harrives with
  | here =>
    rw [← Option.some.inj hslice]
    rfl
  | next _ hrest => cases hrest

end Sample

/-- With the values of a relation kept apart, a tuple decodes to the same result in two runs
with the same chunks of the relation and the same ends of the transactions that wrote them. -/
theorem toast_isolated (z : Codecs) (dec : TupleDecoder) (rel : RelTag) {w w' : List ToastEvent} {e e' : Engine}
    (h : Engine.Buffers dec w e) (h' : Engine.Buffers dec w' e') (hown : eventsOf rel [] w = eventsOf rel [] w')
    (t : PageTuple) (desc : TableDesc) (oldRow : Option Row) (hw : KeptApart z rel w t desc oldRow)
    (hw' : KeptApart z rel w' t desc oldRow) :
    decodeTuplePayload z e.toast t.payload t.infomask2 t.infomask t.hoff desc oldRow =
      decodeTuplePayload z e'.toast t.payload t.infomask2 t.infomask t.hoff desc oldRow := by
  rw [hw.decodeTuplePayload_eq h, hw'.decodeTuplePayload_eq h', cacheOf, cacheOf, hown]

theorem toast_isolated_other_value :
    decodeTuplePayload .pglzOnly (Sample.toastRun [Sample.chunkA]).2.toast Sample.pointerTuple.payload 1 0x0802 24
        Sample.pointerDesc none = .ok ([some (.bytes [10, 20, 30])], Sample.pointerTuple.payload.drop 1) ∧
      decodeTuplePayload .pglzOnly (Sample.toastRun [Sample.chunkA]).2.toast Sample.pointerTuple.payload 1 0x0802 24
          Sample.pointerDesc none =
        decodeTuplePayload .pglzOnly
          (Sample.toastRun [Sample.chunkB 55, Sample.chunkA, Sample.endRecord 8]).2.toast
          Sample.pointerTuple.payload 1 0x0802 24 Sample.pointerDesc none := by
  refine ⟨by rfl, ?_⟩
  refine toast_isolated .pglzOnly _ Sample.toastA (Sample.toastRun_buffers [Sample.chunkA])
    (Sample.toastRun_buffers [Sample.chunkB 55, Sample.chunkA, Sample.endRecord 8]) ?_ Sample.pointerTuple
    Sample.pointerDesc none ⟨?_, ?_⟩ ⟨?_, ?_⟩
  · decide +kernel
  · rw [Sample.toastRun_alone]
    exact ⟨by simp [Traced.Separate, Traced.empty], trivial⟩
  · intro valueid hlook
    rw [Sample.toastRun_alone, Sample.pointerTuple_looksUp hlook]
    decide
  · rw [Sample.toastRun_beside]
    exact ⟨by simp [Traced.Separate, Traced.empty], by simp [Traced.Separate, Traced.empty, Traced.step], trivial,
      trivial⟩
  · intro valueid hlook
    rw [Sample.toastRun_beside, Sample.pointerTuple_looksUp hlook]
    decide

/-- A chunk of another relation under the same value id replaces the one of the row. If it comes
first, the end of its transaction takes the row's chunk with it, and the row is lost. -/
theorem toast_values_mix :
    let alone := Sample.toastRun [Sample.chunkA]
    let replaced := Sample.toastRun [Sample.chunkA, Sample.chunkB 99]
    let dropped := Sample.toastRun [Sample.chunkB 99, Sample.chunkA, Sample.endRecord 8]
    Engine.Buffers (heapDecoder .pglzOnly) alone.1 alone.2 ∧
      Engine.Buffers (heapDecoder .pglzOnly) replaced.1 replaced.2 ∧
      Engine.Buffers (heapDecoder .pglzOnly) dropped.1 dropped.2 ∧
      eventsOf Sample.toastA [] replaced.1 = eventsOf Sample.toastA [] alone.1 ∧
      eventsOf Sample.toastA [] dropped.1 = eventsOf Sample.toastA [] alone.1 ∧
      alone.2.effectOf (heapDecoder .pglzOnly) 20 Sample.pointerInsert =
        .ops 7 0 [.insert (0, 1) ⟨[some (.bytes [10, 20, 30])], some (Sample.pointerTuple.payload.drop 1)⟩] ∧
      replaced.2.effectOf (heapDecoder .pglzOnly) 20 Sample.pointerInsert =
        .ops 7 0 [.insert (0, 1) ⟨[some (.bytes [40, 50, 60])], some (Sample.pointerTuple.payload.drop 1)⟩] ∧
      dropped.2.effectOf (heapDecoder .pglzOnly) 20 Sample.pointerInsert = .skip := by
  refine ⟨Sample.toastRun_buffers _, Sample.toastRun_buffers _, Sample.toastRun_buffers _, ?_⟩
  decide +kernel

end Ltap
