-- SUMMARY: When compaction keeps exactly the newest live row of every primary key.
import OpenLtap.Engine.Columns
import OpenLtap.Engine.Startup

/-!
# Compaction

Compaction groups the rows of the change log by a string made of their key cells, and
keeps the newest row of every group. Rows of different keys may share a string, a date
has no string, and row indices are cut to 32 bits. The current-state view survives
exactly when none of this touches a newest live row.
-/

namespace Ltap

/-- What a stored row says, whatever file it is in. -/
def StoredRow.contents (r : DeltaSink.StoredRow) : Lsn × Nat × Bool × Ctid × List (Option Value) :=
  (r.entry.lsn, r.entry.seq, r.entry.deleted, r.entry.ctid, r.cells)

namespace DeltaSink

/-- A stored row and its index in the change log. -/
abbrev IndexedRow := StoredRow × Nat

/-! ## Keys -/

/-- The cell of a stored row under a column name. -/
def cellOf (s : DeltaSink) (r : StoredRow) (n : String) : Option Value :=
  Row.get (s.deltaCols.map (·.col)) r.cells n

/-- The primary-key tuple of a stored row. -/
def keyTuple (s : DeltaSink) (desc : TableDesc) (r : StoredRow) : List (Option Value) :=
  desc.pk.map (s.cellOf r)

/-- The string under which compaction groups a stored row. -/
def keyString (s : DeltaSink) (desc : TableDesc) (r : StoredRow) : Option String :=
  rowKey ((s.pkIdx desc).zip ((pkTypes desc).getD [])) r

/-- No row with the same key is newer, or as new and earlier in the log. -/
def IsNewest {κ : Type} (s : DeltaSink) (key : StoredRow → κ) (x : IndexedRow) : Prop :=
  ∀ y ∈ s.storedRows.zipIdx, key y.1 = key x.1 →
    y.1.entry.version < x.1.entry.version ∨ y.1.entry.version = x.1.entry.version ∧ x.2 ≤ y.2

instance {κ : Type} [DecidableEq κ] (s : DeltaSink) (key : StoredRow → κ) (x : IndexedRow) :
    Decidable (s.IsNewest key x) :=
  inferInstanceAs (Decidable (∀ y ∈ s.storedRows.zipIdx, key y.1 = key x.1 →
    y.1.entry.version < x.1.entry.version ∨ y.1.entry.version = x.1.entry.version ∧ x.2 ≤ y.2))

/-- A change log that conforms to its schema, for a table with a primary key. -/
structure Conforms (s : DeltaSink) (desc : TableDesc) : Prop where
  names : (s.deltaCols.map (·.col.name)).Nodup
  pk : ∀ n ∈ desc.pk, ∃ c ∈ desc.cols, c.name = n
  columns : s.Matches desc.cols
  types : ∀ b ∈ s.table.files, ∀ dc ∈ s.deltaCols, ∀ dc' ∈ b.cols,
    dc'.col.name = dc.col.name → deltaType dc'.col.ty = deltaType dc.col.ty
  /-- Every append stamps the filenode. -/
  stamped : s.table.files ≠ [] → s.table.watermarks.filenode.isSome
  versions : s.storedRows.Pairwise fun a b =>
    s.keyTuple desc a = s.keyTuple desc b → a.entry.version ≠ b.entry.version

/-- The cell at a resolved key column. -/
private def cellAt (r : StoredRow) (p : Nat × PgType) : Option Value := (r.cells[p.1]?).join

theorem rowKey_cons (p : Nat × PgType) (pk : List (Nat × PgType)) (r : StoredRow) (acc : String) :
    ((p :: pk).foldlM (fun key (ci, ty) => do
      return key ++ (← arrowCellKey ty (r.cells[ci]?).join) ++ "\x1f") acc : Option String) =
      (arrowCellKey p.2 (cellAt r p)).bind fun c =>
        pk.foldlM (fun key (ci, ty) => do
          return key ++ (← arrowCellKey ty (r.cells[ci]?).join) ++ "\x1f") (acc ++ c ++ "\x1f") := by
  simp [List.foldlM_cons, cellAt, Option.bind_assoc]

theorem arrowCellKey_eq_none_iff {ty : PgType} {cell : Option Value} :
    arrowCellKey ty cell = none ↔ ty = .date ∧ cell ≠ none := by
  cases cell with
  | none => simp [arrowCellKey]
  | some v =>
    cases ty <;> cases v <;> simp [arrowCellKey]

/-- Rows with one key tuple have one key string. -/
theorem rowKey_congr {pk : List (Nat × PgType)} {r r' : StoredRow}
    (h : pk.map (cellAt r) = pk.map (cellAt r')) : rowKey pk r = rowKey pk r' := by
  have hfold : ∀ acc : String, (pk.foldlM (fun key (ci, ty) => do
      return key ++ (← arrowCellKey ty (r.cells[ci]?).join) ++ "\x1f") acc : Option String) =
      pk.foldlM (fun key (ci, ty) => do
        return key ++ (← arrowCellKey ty (r'.cells[ci]?).join) ++ "\x1f") acc := by
    induction pk with
    | nil => exact fun acc => rfl
    | cons p pk ih =>
      intro acc
      simp only [List.map_cons, List.cons.injEq] at h
      rw [rowKey_cons, rowKey_cons, h.1]
      exact congrArg (Option.bind _) (funext fun c => ih h.2 _)
  exact hfold ""

/-- Only dates have no key. -/
theorem rowKey_isSome_iff {pk : List (Nat × PgType)} {r : StoredRow} :
    (rowKey pk r).isSome ↔ ∀ p ∈ pk, p.2 = .date → cellAt r p = none := by
  have hfold : ∀ acc : String, (pk.foldlM (fun key (ci, ty) => do
      return key ++ (← arrowCellKey ty (r.cells[ci]?).join) ++ "\x1f") acc : Option String).isSome ↔
      ∀ p ∈ pk, p.2 = .date → cellAt r p = none := by
    induction pk with
    | nil => simp
    | cons p pk ih =>
      intro acc
      rw [rowKey_cons]
      simp only [List.mem_cons, forall_eq_or_imp]
      cases hkey : arrowCellKey p.2 (cellAt r p) with
      | none =>
        obtain ⟨hdate, hcell⟩ := arrowCellKey_eq_none_iff.mp hkey
        simp [hdate, hcell]
      | some c =>
        rw [Option.bind_some, ih]
        have hcell : p.2 = .date → cellAt r p = none := by
          intro hdate
          by_contra hcell
          rw [arrowCellKey_eq_none_iff.mpr ⟨hdate, hcell⟩] at hkey
          cases hkey
        exact ⟨fun h => ⟨hcell, h⟩, fun h => h.2⟩
  exact hfold ""

/-! ## Resolving the key columns -/

section Conforming

variable {s : DeltaSink} {desc : TableDesc}

/-- Position and type of a key column. -/
private def resolve (s : DeltaSink) (desc : TableDesc) (n : String) : Nat × PgType :=
  ((s.deltaCols.findIdx? (·.col.name = n)).getD 0,
    ((desc.cols.find? (·.name = n)).map (·.ty)).getD .bool)

private theorem Conforms.position (h : s.Conforms desc) {n : String} (hn : n ∈ desc.pk) :
    s.deltaCols.findIdx? (·.col.name = n) = some (resolve s desc n).1 := by
  obtain ⟨c, hc, rfl⟩ := h.pk n hn
  obtain ⟨i, hi⟩ := List.mem_iff_getElem?.mp hc
  obtain ⟨dc, hdc, -⟩ := h.columns i c hi
  have hsome : (s.deltaCols.findIdx? (·.col.name = c.name)).isSome := by
    rw [List.findIdx?_isSome, List.any_eq_true]
    exact ⟨dc, List.mem_of_find?_eq_some hdc, by simpa using List.find?_some hdc⟩
  obtain ⟨k, hk⟩ := Option.isSome_iff_exists.mp hsome
  rw [resolve, hk, Option.getD_some]

private theorem Conforms.type (h : s.Conforms desc) {n : String} (hn : n ∈ desc.pk) :
    (desc.cols.find? (·.name = n)).map (·.ty) = some (resolve s desc n).2 := by
  obtain ⟨c, hc, rfl⟩ := h.pk n hn
  have hsome : (desc.cols.find? (·.name = c.name)).isSome :=
    List.find?_isSome.mpr ⟨c, hc, by simp⟩
  obtain ⟨c', hc'⟩ := Option.isSome_iff_exists.mp hsome
  rw [resolve, hc', Option.map_some, Option.getD_some]

theorem Conforms.pkIdx_eq (h : s.Conforms desc) :
    s.pkIdx desc = desc.pk.map fun n => (resolve s desc n).1 := by
  rw [pkIdx, List.filterMap_eq_map_iff_forall_eq_some]
  exact fun n hn => h.position hn

theorem Conforms.pkTypes_eq (h : s.Conforms desc) :
    pkTypes desc = some (desc.pk.map fun n => (resolve s desc n).2) := by
  have hmap : ∀ pk : List String, (∀ n ∈ pk, n ∈ desc.pk) →
      (pk.mapM fun n => (desc.cols.find? (·.name = n)).map (·.ty)) =
        some (pk.map fun n => (resolve s desc n).2) := by
    intro pk hpk
    induction pk with
    | nil => rfl
    | cons n pk ih =>
      simp only [List.mem_cons, forall_eq_or_imp] at hpk
      rw [List.mapM_cons, h.type hpk.1, ih hpk.2]
      rfl
  exact hmap desc.pk fun n hn => hn

/-- The resolved key columns. -/
private def keyCols (s : DeltaSink) (desc : TableDesc) : List (Nat × PgType) :=
  desc.pk.map (resolve s desc)

private theorem Conforms.zip_eq (h : s.Conforms desc) :
    (s.pkIdx desc).zip (desc.pk.map fun n => (resolve s desc n).2) = keyCols s desc := by
  rw [h.pkIdx_eq, List.zip_map', keyCols]

private theorem Conforms.keyString_eq (h : s.Conforms desc) (r : StoredRow) :
    s.keyString desc r = rowKey (keyCols s desc) r := by
  rw [keyString, h.pkTypes_eq, Option.getD_some, h.zip_eq]

private theorem Conforms.cellOf_eq (h : s.Conforms desc) {n : String} (hn : n ∈ desc.pk)
    (r : StoredRow) : s.cellOf r n = cellAt r (resolve s desc n) := by
  rw [cellOf, Row.get, List.findIdx?_map]
  have hpos := h.position hn
  rw [Function.comp_def, hpos]
  rfl

private theorem Conforms.keyTuple_eq (h : s.Conforms desc) (r : StoredRow) :
    s.keyTuple desc r = (keyCols s desc).map (cellAt r) := by
  rw [keyTuple, keyCols, List.map_map]
  exact List.map_congr_left fun n hn => h.cellOf_eq hn r

theorem Conforms.keyString_congr (h : s.Conforms desc) {r r' : StoredRow}
    (heq : s.keyTuple desc r = s.keyTuple desc r') :
    s.keyString desc r = s.keyString desc r' := by
  rw [h.keyTuple_eq, h.keyTuple_eq] at heq
  rw [h.keyString_eq, h.keyString_eq, rowKey_congr heq]

/-- No date in the key of a row. -/
def KeyUsable (s : DeltaSink) (desc : TableDesc) (r : StoredRow) : Prop :=
  ∀ n ∈ desc.pk, (desc.cols.find? (·.name = n)).map (·.ty) = some .date → s.cellOf r n = none

theorem Conforms.keyString_isSome_iff (h : s.Conforms desc) {r : StoredRow} :
    (s.keyString desc r).isSome ↔ s.KeyUsable desc r := by
  rw [h.keyString_eq, rowKey_isSome_iff, keyCols]
  simp only [List.mem_map, forall_exists_index, and_imp, forall_apply_eq_imp_iff₂]
  refine forall₂_congr fun n hn => ?_
  rw [h.type hn, h.cellOf_eq hn, Option.some.injEq]

end Conforming

/-! ## The loop -/

section Loop

variable (pk : List (Nat × PgType))

private def groupKey (x : IndexedRow) : String := (rowKey pk x.1).getD ""

private def bestEntry (x : IndexedRow) : (Lsn ×ₗ Nat) × Nat × Bool :=
  (x.1.entry.version, x.2 % 2 ^ 32, x.1.entry.deleted)

private theorem bestStep_eq {best : BestByKey} {x : IndexedRow} (h : (rowKey pk x.1).isSome) :
    bestStep pk best x = some (LatestPerKey.collect (groupKey pk) bestEntry (·.1) best x) := by
  obtain ⟨key, hkey⟩ := Option.isSome_iff_exists.mp h
  have hgroup : groupKey pk x = key := by rw [groupKey, hkey, Option.getD_some]
  rw [bestStep, LatestPerKey.collect, hgroup, hkey]
  cases hold : best.lookup key with
  | none => simp [hold, bestEntry]
  | some old =>
    by_cases hle : x.1.entry.version ≤ old.1
    · simp [hold, bestEntry, hle]
    · simp [hold, bestEntry, hle]

private theorem bestFold_eq {l : List IndexedRow} (h : ∀ x ∈ l, (rowKey pk x.1).isSome)
    (best : BestByKey) :
    l.foldlM (bestStep pk) best =
      some (l.foldl (LatestPerKey.collect (groupKey pk) bestEntry (·.1)) best) := by
  induction l generalizing best with
  | nil => rfl
  | cons x l ih =>
    simp only [List.mem_cons, forall_eq_or_imp] at h
    rw [List.foldlM_cons, bestStep_eq pk h.1, List.foldl_cons]
    exact ih h.2 _

private theorem bestFold_none {l : List IndexedRow} (h : ∃ x ∈ l, rowKey pk x.1 = none)
    (best : BestByKey) : l.foldlM (bestStep pk) best = none := by
  induction l generalizing best with
  | nil =>
    obtain ⟨x, hx, -⟩ := h
    cases hx
  | cons x l ih =>
    rw [List.foldlM_cons]
    cases hstep : bestStep pk best x with
    | none => rfl
    | some best' =>
      obtain ⟨y, hy, hnone⟩ := h
      rcases List.mem_cons.mp hy with rfl | hy
      · rw [bestStep, hnone] at hstep
        cases hstep
      · exact ih ⟨y, hy, hnone⟩ best'

end Loop

/-- The newest live rows under a notion of key, in log order. -/
def newestBy {κ : Type} [DecidableEq κ] (s : DeltaSink) (key : StoredRow → κ) : List IndexedRow :=
  s.storedRows.zipIdx.filter fun x => s.IsNewest key x ∧ x.1.entry.deleted = false

theorem mem_newestBy {κ : Type} [DecidableEq κ] {s : DeltaSink} {key : StoredRow → κ}
    {x : IndexedRow} : x ∈ s.newestBy key ↔
      x ∈ s.storedRows.zipIdx ∧ s.IsNewest key x ∧ x.1.entry.deleted = false := by
  simp [newestBy, List.mem_filter]

theorem zipIdx_pairwise {α : Type*} (l : List α) : l.zipIdx.Pairwise (·.2 < ·.2) := by
  have hrange : (l.zipIdx.map Prod.snd).Pairwise (· < ·) := by
    rw [List.zipIdx_map_snd]
    exact List.pairwise_lt_range'
  exact List.pairwise_map.mp hrange

theorem zipIdx_getElem? {α : Type*} {l : List α} {x : α × Nat} (hx : x ∈ l.zipIdx) :
    l[x.2]? = some x.1 := by
  obtain ⟨i, hi⟩ := List.mem_iff_getElem?.mp hx
  rw [List.getElem?_zipIdx] at hi
  obtain ⟨a, ha, rfl⟩ := Option.map_eq_some_iff.mp hi
  simpa using ha

section Kept

variable {s : DeltaSink} {desc : TableDesc}

/-- What the loop keeps: the newest live row of every key string, by its cut index. -/
private theorem keep_perm (h : s.Conforms desc) (husable : ∀ r ∈ s.storedRows, s.KeyUsable desc r) :
    ((s.storedRows.zipIdx.foldl (LatestPerKey.collect (groupKey (keyCols s desc)) bestEntry (·.1))
        (∅ : BestByKey)).entries.filterMap fun e => if e.2.2.2 then none else some e.2.2.1).Perm
      ((s.newestBy (s.keyString desc)).map (·.2 % 2 ^ 32)) := by
  have hpairwise := zipIdx_pairwise s.storedRows
  have hnodup : s.storedRows.zipIdx.Nodup := hpairwise.imp fun hlt heq => by
    rw [heq] at hlt
    exact lt_irrefl _ hlt
  have hsome : ∀ x ∈ s.storedRows.zipIdx, ∃ k, rowKey (keyCols s desc) x.1 = some k := by
    intro x hx
    have := h.keyString_isSome_iff.mpr (husable x.1 (List.mem_of_getElem? (zipIdx_getElem? hx)))
    rw [h.keyString_eq] at this
    exact Option.isSome_iff_exists.mp this
  have hkey : ∀ x ∈ s.storedRows.zipIdx, ∀ y ∈ s.storedRows.zipIdx,
      (groupKey (keyCols s desc) y = groupKey (keyCols s desc) x ↔
        s.keyString desc y.1 = s.keyString desc x.1) := by
    intro x hx y hy
    obtain ⟨k, hk⟩ := hsome x hx
    obtain ⟨k', hk'⟩ := hsome y hy
    simp [groupKey, h.keyString_eq, hk, hk']
  have hnewest : ∀ x ∈ s.storedRows.zipIdx,
      (LatestPerKey.latest (groupKey (keyCols s desc)) ((·.1) ∘ bestEntry)
        (groupKey (keyCols s desc) x) s.storedRows.zipIdx = some x ↔
        s.IsNewest (s.keyString desc) x) := by
    intro x hx
    rw [LatestPerKey.latest_eq_some_iff _ _ hpairwise]
    constructor
    · rintro ⟨-, -, hall⟩ y hy heq
      exact hall y hy ((hkey x hx y hy).mpr heq)
    · intro hall
      exact ⟨hx, rfl, fun y hy heq => hall y hy ((hkey x hx y hy).mp heq)⟩
  have hperm := LatestPerKey.collect_perm (groupKey (keyCols s desc)) bestEntry (·.1) hnodup
  have hlive := hperm.filterMap fun v : (Lsn ×ₗ Nat) × Nat × Bool =>
    if v.2.2 then none else some v.2.1
  rw [List.filterMap_map, List.filterMap_map] at hlive
  refine hlive.trans (.of_eq ?_)
  have hfilter : (s.storedRows.zipIdx.filter fun x => LatestPerKey.latest (groupKey (keyCols s desc))
      ((·.1) ∘ bestEntry) (groupKey (keyCols s desc) x) s.storedRows.zipIdx = some x) =
      s.storedRows.zipIdx.filter fun x => s.IsNewest (s.keyString desc) x :=
    List.filter_congr fun x hx => decide_eq_decide.mpr (hnewest x hx)
  rw [newestBy, hfilter, ← List.filterMap_eq_map, List.filterMap_filter, List.filterMap_filter]
  refine List.filterMap_congr fun x _ => ?_
  by_cases hnew : s.IsNewest (s.keyString desc) x
  · cases hdel : x.1.entry.deleted with
    | true => simp [bestEntry, hnew, hdel]
    | false => simp [bestEntry, hnew, hdel]
  · simp [hnew]

/-- A row that is newest of its string is newest of its key. -/
theorem Conforms.newestBy_sublist (h : s.Conforms desc) :
    (s.newestBy (s.keyString desc)).Sublist (s.newestBy (s.keyTuple desc)) := by
  refine List.monotone_filter_right _ fun x hx => ?_
  simp only [decide_eq_true_eq] at hx ⊢
  exact ⟨fun y hy heq => hx.1 y hy (h.keyString_congr heq), hx.2⟩

/-! ## The rewritten file -/

theorem storedRows_mem {r : StoredRow} (hr : r ∈ s.storedRows) : ∃ b ∈ s.table.files, ∃ e ∈ b.rows,
    r = { entry := e, cells := s.deltaCols.map fun dc => b.cell e dc.col.name } := by
  simp only [storedRows, List.mem_flatMap, List.mem_map] at hr
  obtain ⟨b, hb, e, he, rfl⟩ := hr
  exact ⟨b, hb, e, he, rfl⟩

/-- A stored cell is a value of its column. -/
theorem Conforms.accepts (h : s.Conforms desc) {b : RecordBatch} (hb : b ∈ s.table.files)
    (e : EmitRow) {dc : DeltaCol} (hdc : dc ∈ s.deltaCols) :
    (b.cell e dc.col.name).filter dc.col.ty.accepts = b.cell e dc.col.name := by
  rw [RecordBatch.cell]
  cases hfind : b.cols.find? (·.col.name = dc.col.name) with
  | none => rfl
  | some dc' =>
    have hname : dc'.col.name = dc.col.name := by simpa using List.find?_some hfind
    have htype := h.types b hb dc hdc dc' (List.mem_of_find?_eq_some hfind) hname
    rw [Option.bind_some, DeltaCol.cell]
    cases hli : dc'.live with
    | none => rfl
    | some li =>
      rw [Option.bind_some]
      cases hv : (e.row[li]?).join with
      | none => rfl
      | some v =>
        rw [Option.filter_some]
        split
        · rename_i hok
          rw [Option.filter_some, ← PgType.accepts_congr htype, if_pos hok]
        · rfl

theorem Conforms.compactedFile_cell (h : s.Conforms desc) {r : StoredRow} (hr : r ∈ s.storedRows)
    (rows : List StoredRow) :
    (s.deltaCols.map fun dc => (s.compactedFile rows).cell { r.entry with row := r.cells } dc.col.name) =
      r.cells := by
  obtain ⟨b, hb, e, -, rfl⟩ := storedRows_mem hr
  refine List.map_congr_left fun dc hdc => ?_
  obtain ⟨i, hi⟩ := List.mem_iff_getElem?.mp hdc
  have hfind : (s.compactedFile rows).cols.find? (·.col.name = dc.col.name) =
      some { dc with live := some i } := by
    have hget : (s.compactedFile rows).cols[i]? = some { dc with live := some i } := by
      simp [compactedFile, List.getElem?_mapIdx, hi]
    refine List.find?_eq_some_iff_getElem.mpr ?_
    obtain ⟨hlt, heq⟩ := List.getElem?_eq_some_iff.mp hget
    refine ⟨by simp, i, hlt, heq, fun j hj => ?_⟩
    have hjlt : j < s.deltaCols.length := lt_trans hj (List.getElem?_eq_some_iff.mp hi).1
    obtain ⟨hilt, rfl⟩ := List.getElem?_eq_some_iff.mp hi
    have hne := List.pairwise_iff_getElem.mp h.names j i (by simpa using hjlt) (by simpa using hilt) hj
    simpa [compactedFile] using hne
  rw [RecordBatch.cell, hfind, Option.bind_some, DeltaCol.cell, Option.bind_some]
  simp only [List.getElem?_map, hi, Option.map_some, Option.join_some]
  exact h.accepts hb e hdc

/-- The compacted file says of its rows what the old files said. -/
theorem Conforms.rewrite_contents (h : s.Conforms desc) {rows : List StoredRow}
    (hrows : ∀ r ∈ rows, r ∈ s.storedRows) :
    (s.rewrite desc rows).storedRows.map StoredRow.contents = rows.map StoredRow.contents := by
  by_cases hnil : rows = []
  · simp [rewrite, storedRows, hnil]
  · have hfiles : (s.rewrite desc rows).table.files = [s.compactedFile rows] := by
      simp [rewrite, hnil]
    have hcols : (s.rewrite desc rows).deltaCols = s.deltaCols := rfl
    rw [storedRows, hfiles, hcols, List.flatMap_singleton]
    simp only [compactedFile, List.map_map]
    refine List.map_congr_left fun r hr => ?_
    simp only [Function.comp_apply, StoredRow.contents, Prod.mk.injEq, true_and]
    exact h.compactedFile_cell (hrows r hr) rows

end Kept

/-! ## The outcome -/

/-- What compaction is for: the newest live row of every key, and the watermarks. -/
structure Compacted (s : DeltaSink) (desc : TableDesc) (s' : DeltaSink) : Prop where
  rows : (s'.storedRows.map StoredRow.contents).Perm
    ((s.newestBy (s.keyTuple desc)).map fun x => StoredRow.contents x.1)
  watermarks : s'.table.watermarks = s.table.watermarks

/-- Compaction does not panic, and what it commits is right. -/
def CompactsWell (s : DeltaSink) (desc : TableDesc) : Prop :=
  s.compact desc ≠ .panicked ∧
    ∀ s' before after, s.compact desc = .done s' before after → s.Compacted desc s'

/-- No newest live row is older than a row of another key with the same string. -/
def KeysApart (s : DeltaSink) (desc : TableDesc) : Prop :=
  ∀ x ∈ s.newestBy (s.keyTuple desc), s.IsNewest (s.keyString desc) x

/-- The newest live rows have 32-bit indices. -/
def IndicesFit (s : DeltaSink) (desc : TableDesc) : Prop :=
  ∀ x ∈ s.newestBy (s.keyTuple desc), x.2 < 2 ^ 32

/-- One file, and every row in it is the newest of its key and live. -/
def Settled (s : DeltaSink) (desc : TableDesc) : Prop :=
  (∀ x ∈ s.storedRows.zipIdx, x ∈ s.newestBy (s.keyTuple desc)) ∧ s.table.files.length ≤ 1

section Outcome

variable {s : DeltaSink} {desc : TableDesc}

/-- The loop decides the outcome. -/
private theorem Conforms.compact_of_loop (h : s.Conforms desc) (hpk : desc.pk ≠ [])
    (hall : s.storedRows ≠ []) {best : Option BestByKey}
    (hbest : s.storedRows.zipIdx.foldlM (bestStep (keyCols s desc)) (∅ : BestByKey) = best) :
    s.compact desc = best.elim .panicked fun best =>
      let keep := best.entries.filterMap fun e => if e.2.2.2 then none else some e.2.2.1
      let survivors := keep.insertionSort (· ≤ ·)
      if survivors.length = s.storedRows.length ∧ s.table.files.length ≤ 1 then .skipped
      else .done (s.rewrite desc (survivors.filterMap (s.storedRows[·]?))) s.storedRows.length
        survivors.length := by
  have hlen : (s.pkIdx desc).length = desc.pk.length := by rw [h.pkIdx_eq, List.length_map]
  rw [compact, if_neg (by simp [hpk, hlen])]
  simp only [if_neg hall, h.pkTypes_eq, Option.bind_some, h.zip_eq, hbest]
  cases best with
  | none => rfl
  | some best => rfl

theorem Conforms.compact_panicked (h : s.Conforms desc) (hpk : desc.pk ≠ []) {r : StoredRow}
    (hr : r ∈ s.storedRows) (hbad : ¬ s.KeyUsable desc r) : s.compact desc = .panicked := by
  have hnone : rowKey (keyCols s desc) r = none := by
    rw [← h.keyString_eq, ← Option.not_isSome_iff_eq_none, h.keyString_isSome_iff]
    exact hbad
  obtain ⟨i, hi⟩ := List.mem_iff_getElem?.mp hr
  have hmem : (r, i) ∈ s.storedRows.zipIdx := by
    rw [List.mem_iff_getElem?]
    exact ⟨i, by simp [List.getElem?_zipIdx, hi]⟩
  exact h.compact_of_loop hpk (List.ne_nil_of_mem hr) (bestFold_none _ ⟨(r, i), hmem, hnone⟩ ∅)

/-- Without dates in keys the outcome is decided by the rows that are newest of their string. -/
theorem Conforms.compact_cases (h : s.Conforms desc) (hpk : desc.pk ≠ [])
    (hall : s.storedRows ≠ []) (husable : ∀ r ∈ s.storedRows, s.KeyUsable desc r) :
    ∃ survivors : List Nat,
      survivors.Perm ((s.newestBy (s.keyString desc)).map (·.2 % 2 ^ 32)) ∧
      s.compact desc =
        if survivors.length = s.storedRows.length ∧ s.table.files.length ≤ 1 then .skipped
        else .done (s.rewrite desc (survivors.filterMap (s.storedRows[·]?))) s.storedRows.length
          survivors.length := by
  have hsome : ∀ x ∈ s.storedRows.zipIdx, (rowKey (keyCols s desc) x.1).isSome := by
    intro x hx
    rw [← h.keyString_eq, h.keyString_isSome_iff]
    exact husable x.1 (List.mem_of_getElem? (zipIdx_getElem? hx))
  refine ⟨_, (List.perm_insertionSort (· ≤ ·) _).trans (keep_perm h husable), ?_⟩
  exact h.compact_of_loop hpk hall (bestFold_eq _ hsome ∅)

theorem compact_of_empty (hall : s.storedRows = []) : s.compact desc = .skipped := by
  rw [compact]
  split
  · rfl
  · simp [hall]

theorem Conforms.stamped_of_rows (h : s.Conforms desc) (hall : s.storedRows ≠ []) :
    s.table.watermarks.filenode.isSome := by
  refine h.stamped fun hnil => hall ?_
  simp [storedRows, hnil]

theorem compact_rewrites {s' : DeltaSink} {before after : Nat}
    (hdone : s.compact desc = .done s' before after) : ∃ rows, s' = s.rewrite desc rows := by
  simp only [compact] at hdone
  split at hdone
  · cases hdone
  · split at hdone
    · cases hdone
    · split at hdone
      · cases hdone
      · split at hdone
        · cases hdone
        · cases hdone
          exact ⟨_, rfl⟩

theorem rewrite_watermarks (hstamped : s.table.watermarks.filenode.isSome) (rows : List StoredRow) :
    (s.rewrite desc rows).table.watermarks = s.table.watermarks := by
  obtain ⟨f, hf⟩ := Option.isSome_iff_exists.mp hstamped
  have hw : s.table.watermarks = ⟨s.table.watermarks.commitLsn, s.table.watermarks.restartLsn, some f⟩ := by
    rw [← hf]
  rw [rewrite]
  simp only [hf, Option.getD_some]
  exact hw.symm

theorem mem_filterMap_getElem? {α : Type*} {l : List α} {is : List Nat} {a : α}
    (ha : a ∈ is.filterMap (l[·]?)) : a ∈ l := by
  obtain ⟨i, -, hi⟩ := List.mem_filterMap.mp ha
  exact List.mem_of_getElem? hi

/-- Version and key are part of a row's contents. -/
theorem keyed_of_contents (s : DeltaSink) (desc : TableDesc) {a b : StoredRow}
    (h : StoredRow.contents a = StoredRow.contents b) :
    a.entry.version = b.entry.version ∧ s.keyTuple desc a = s.keyTuple desc b ∧
      a.entry.deleted = b.entry.deleted := by
  simp only [StoredRow.contents, Prod.mk.injEq] at h
  refine ⟨by simp only [EmitRow.version, h.1, h.2.1], ?_, h.2.2.1⟩
  exact List.map_congr_left fun n _ => by rw [cellOf, cellOf, h.2.2.2.2]

/-- Two rows with the same contents are one row of the log. -/
theorem Conforms.eq_of_contents (h : s.Conforms desc) {i j : Nat} {a b : StoredRow}
    (ha : s.storedRows[i]? = some a) (hb : s.storedRows[j]? = some b)
    (heq : StoredRow.contents a = StoredRow.contents b) : i = j := by
  obtain ⟨hver, hkey, -⟩ := keyed_of_contents s desc heq
  obtain ⟨hi, rfl⟩ := List.getElem?_eq_some_iff.mp ha
  obtain ⟨hj, rfl⟩ := List.getElem?_eq_some_iff.mp hb
  have hpair := List.pairwise_iff_getElem.mp h.versions
  rcases lt_trichotomy i j with hij | hij | hij
  · exact absurd hver (hpair i j hi hj hij hkey)
  · exact hij
  · exact absurd hver.symm (hpair j i hj hi hij hkey.symm)

/-- The newest live rows of the log have different contents. -/
theorem Conforms.contents_nodup (h : s.Conforms desc) :
    ((s.newestBy (s.keyTuple desc)).map fun x => StoredRow.contents x.1).Nodup := by
  have hpairwise : (s.newestBy (s.keyTuple desc)).Pairwise (·.2 < ·.2) :=
    (zipIdx_pairwise s.storedRows).filter _
  refine List.pairwise_map.mpr (hpairwise.imp_of_mem fun {x y} hx hy hlt heq => ?_)
  have hxy := h.eq_of_contents (zipIdx_getElem? (mem_newestBy.mp hx).1)
    (zipIdx_getElem? (mem_newestBy.mp hy).1) heq
  exact absurd hxy hlt.ne

/-- The rows at cut indices are the newest live rows only if no index was cut and no row is
missing. -/
theorem Conforms.fit_of_perm (h : s.Conforms desc) {survivors : List Nat}
    (hsurvivors : survivors.Perm ((s.newestBy (s.keyString desc)).map (·.2 % 2 ^ 32)))
    (hperm : ((survivors.filterMap (s.storedRows[·]?)).map StoredRow.contents).Perm
      ((s.newestBy (s.keyTuple desc)).map fun x => StoredRow.contents x.1)) :
    s.KeysApart desc ∧ s.IndicesFit desc := by
  -- Every survivor is an index of the log, so none is lost when the rows are taken.
  have hbound : ∀ j ∈ survivors, (s.storedRows[j]?).isSome := by
    intro j hj
    obtain ⟨x, hx, rfl⟩ := List.mem_map.mp (hsurvivors.mem_iff.mp hj)
    have hlt := (List.getElem?_eq_some_iff.mp (zipIdx_getElem? (mem_newestBy.mp hx).1)).1
    rw [List.getElem?_eq_getElem (lt_of_le_of_lt (Nat.mod_le x.2 (2 ^ 32)) hlt)]
    rfl
  have htaken : (survivors.filterMap (s.storedRows[·]?)).length = survivors.length := by
    rw [List.filterMap_length_eq_length]
    exact hbound
  have hlen : survivors.length = (s.newestBy (s.keyTuple desc)).length := by
    have hlength := hperm.length_eq
    rwa [List.length_map, List.length_map, htaken] at hlength
  have hsame : s.newestBy (s.keyString desc) = s.newestBy (s.keyTuple desc) := by
    refine h.newestBy_sublist.eq_of_length ?_
    rw [← hlen, hsurvivors.length_eq, List.length_map]
  refine ⟨fun x hx => ?_, fun x hx => ?_⟩
  · rw [← hsame] at hx
    exact (mem_newestBy.mp hx).2.1
  · have hindices : survivors.Nodup := by
      have hnodup := (hperm.nodup_iff.mpr h.contents_nodup).of_map
      refine List.Nodup.of_map (s.storedRows[·]?) ?_
      have hmap : survivors.map (s.storedRows[·]?) =
          (survivors.filterMap (s.storedRows[·]?)).map some := by
        rw [List.map_filterMap]
        refine (List.filterMap_eq_map_iff_forall_eq_some.mpr fun j hj => ?_).symm
        obtain ⟨r, hr⟩ := Option.isSome_iff_exists.mp (hbound j hj)
        rw [hr]
        rfl
      rw [hmap]
      exact hnodup.map (Option.some_injective _)
    have hsub : survivors ⊆ (s.newestBy (s.keyTuple desc)).map (·.2) := by
      intro j hj
      obtain ⟨r, hr⟩ := Option.isSome_iff_exists.mp (hbound j hj)
      have hmem : StoredRow.contents r ∈
          (s.newestBy (s.keyTuple desc)).map fun x => StoredRow.contents x.1 :=
        hperm.mem_iff.mp (List.mem_map_of_mem (List.mem_filterMap.mpr ⟨j, hj, hr⟩))
      obtain ⟨y, hy, heq⟩ := List.mem_map.mp hmem
      have hij := h.eq_of_contents hr (zipIdx_getElem? (mem_newestBy.mp hy).1) heq.symm
      exact List.mem_map.mpr ⟨y, hy, hij.symm⟩
    have hall : survivors.Perm ((s.newestBy (s.keyTuple desc)).map (·.2)) :=
      (hindices.subperm hsub).perm_of_length_le (by rw [List.length_map, hlen])
    have hin : x.2 ∈ survivors := hall.mem_iff.mpr (List.mem_map_of_mem hx)
    obtain ⟨y, -, hy⟩ := List.mem_map.mp (hsurvivors.mem_iff.mp hin)
    have hmod : y.2 % 2 ^ 32 = x.2 := hy
    rw [← hmod]
    exact Nat.mod_lt _ (by decide)

/-- Rows of different keys that share a string, and cut indices, are all that can go wrong
with what is committed. -/
theorem Conforms.compacted (h : s.Conforms desc) (hpk : desc.pk ≠ []) (hapart : s.KeysApart desc)
    (hfit : s.Settled desc ∨ s.IndicesFit desc) {s' : DeltaSink} {before after : Nat}
    (hdone : s.compact desc = .done s' before after) : s.Compacted desc s' := by
  have hall : s.storedRows ≠ [] := by
    intro hnil
    rw [compact_of_empty hnil] at hdone
    cases hdone
  have husable : ∀ r ∈ s.storedRows, s.KeyUsable desc r := by
    intro r hr
    by_contra hbad
    rw [h.compact_panicked hpk hr hbad] at hdone
    cases hdone
  obtain ⟨survivors, hsurvivors, hcompact⟩ := h.compact_cases hpk hall husable
  have hlen : survivors.length = (s.newestBy (s.keyString desc)).length := by
    rw [hsurvivors.length_eq, List.length_map]
  rw [hdone] at hcompact
  split at hcompact
  · cases hcompact
  rename_i hgain
  cases hcompact
  have hsame : s.newestBy (s.keyString desc) = s.newestBy (s.keyTuple desc) := by
    refine List.filter_congr fun x hx => decide_eq_decide.mpr ?_
    refine and_congr_left fun hlive => ⟨fun hnew y hy heq => hnew y hy (h.keyString_congr heq), ?_⟩
    exact fun hnew => hapart x (mem_newestBy.mpr ⟨hx, hnew, hlive⟩)
  have hfit : s.IndicesFit desc := by
    refine hfit.resolve_left fun hsettled => hgain ⟨?_, hsettled.2⟩
    have hfull : s.newestBy (s.keyTuple desc) = s.storedRows.zipIdx :=
      List.filter_eq_self.mpr fun x hx => by
        simpa using (mem_newestBy.mp (hsettled.1 x hx)).2
    rw [hlen, hsame, hfull, List.length_zipIdx]
  -- No index is cut, so the rows taken are the newest live ones.
  have hindices : (s.newestBy (s.keyString desc)).map (·.2 % 2 ^ 32) =
      (s.newestBy (s.keyTuple desc)).map (·.2) := by
    rw [hsame]
    exact List.map_congr_left fun x hx => Nat.mod_eq_of_lt (hfit x hx)
  rw [hindices] at hsurvivors
  have htaken : ((s.newestBy (s.keyTuple desc)).map (·.2)).filterMap (s.storedRows[·]?) =
      (s.newestBy (s.keyTuple desc)).map (·.1) := by
    rw [List.filterMap_map, List.filterMap_eq_map_iff_forall_eq_some]
    exact fun x hx => zipIdx_getElem? (mem_newestBy.mp hx).1
  have hrows := (hsurvivors.filterMap (s.storedRows[·]?)).map StoredRow.contents
  rw [htaken, List.map_map] at hrows
  refine ⟨?_, rewrite_watermarks (h.stamped_of_rows hall) _⟩
  rw [h.rewrite_contents fun r hr => mem_filterMap_getElem? hr]
  exact hrows

/-- Compaction keeps the current-state view exactly when no key has a date, no newest live
row shares its string with a newer row of another key, and the kept indices fit 32 bits. -/
theorem compactsWell_iff (hpk : desc.pk ≠ []) (h : s.Conforms desc) :
    s.CompactsWell desc ↔ (∀ r ∈ s.storedRows, s.KeyUsable desc r) ∧ s.KeysApart desc ∧
      (s.Settled desc ∨ s.IndicesFit desc) := by
  constructor
  · rintro ⟨hrun, hdone⟩
    by_cases hall : s.storedRows = []
    · have hnone : s.newestBy (s.keyTuple desc) = [] := by simp [newestBy, hall]
      simp [KeysApart, IndicesFit, hall, hnone]
    have husable : ∀ r ∈ s.storedRows, s.KeyUsable desc r := by
      intro r hr
      by_contra hbad
      exact hrun (h.compact_panicked hpk hr hbad)
    refine ⟨husable, ?_⟩
    obtain ⟨survivors, hsurvivors, hcompact⟩ := h.compact_cases hpk hall husable
    split at hcompact
    · -- Nothing to gain: every row is the newest of its string.
      rename_i hgain
      have hsublist : (s.newestBy (s.keyString desc)).Sublist s.storedRows.zipIdx :=
        List.filter_sublist
      have heq : s.newestBy (s.keyString desc) = s.storedRows.zipIdx := by
        refine hsublist.eq_of_length ?_
        rw [List.length_zipIdx, ← hgain.1, hsurvivors.length_eq, List.length_map]
      refine ⟨fun x hx => ?_, .inl ⟨fun x hx => ?_, hgain.2⟩⟩
      · have hmem := (mem_newestBy.mp hx).1
        rw [← heq] at hmem
        exact (mem_newestBy.mp hmem).2.1
      · rw [← heq] at hx
        exact h.newestBy_sublist.subset hx
    · have hrows := (hdone _ _ _ hcompact).rows
      rw [h.rewrite_contents fun r hr => mem_filterMap_getElem? hr] at hrows
      obtain ⟨hapart, hfit⟩ := h.fit_of_perm hsurvivors hrows
      exact ⟨hapart, .inr hfit⟩
  · rintro ⟨husable, hapart, hfit⟩
    refine ⟨fun hpanic => ?_, fun s' before after hdone => h.compacted hpk hapart hfit hdone⟩
    by_cases hall : s.storedRows = []
    · rw [compact_of_empty hall] at hpanic
      cases hpanic
    · obtain ⟨survivors, -, hcompact⟩ := h.compact_cases hpk hall husable
      rw [hpanic] at hcompact
      split at hcompact
      · cases hcompact
      · cases hcompact

end Outcome

/-! ## The view -/

/-- What readers see: the newest row of every key, unless it is a tombstone. -/
def view (s : DeltaSink) (desc : TableDesc) : Set (Lsn × Nat × Bool × Ctid × List (Option Value)) :=
  { c | ∃ x ∈ s.newestBy (s.keyTuple desc), StoredRow.contents x.1 = c }

section View

variable {s s' : DeltaSink} {desc : TableDesc}

/-- Two newest rows of one key have one version. -/
theorem IsNewest.version_eq {κ : Type} {key : StoredRow → κ} {x y : IndexedRow}
    (hx : s.IsNewest key x) (hy : s.IsNewest key y) (hxmem : x ∈ s.storedRows.zipIdx)
    (hymem : y ∈ s.storedRows.zipIdx) (hkey : key x.1 = key y.1) :
    x.1.entry.version = y.1.entry.version := by
  rcases hx y hymem hkey.symm with hlt | ⟨heq, -⟩
  · rcases hy x hxmem hkey with hlt' | ⟨heq, -⟩
    · exact absurd hlt' hlt.not_gt
    · exact heq
  · exact heq.symm

theorem Conforms.newest_versions (h : s.Conforms desc) :
    (s.newestBy (s.keyTuple desc)).Pairwise fun x y =>
      s.keyTuple desc x.1 ≠ s.keyTuple desc y.1 := by
  have hpairwise : (s.newestBy (s.keyTuple desc)).Pairwise (·.2 < ·.2) :=
    (zipIdx_pairwise s.storedRows).filter _
  refine hpairwise.imp_of_mem fun {x y} hx hy hlt hkey => ?_
  obtain ⟨hxmem, hxnew, -⟩ := mem_newestBy.mp hx
  obtain ⟨hymem, hynew, -⟩ := mem_newestBy.mp hy
  have hver := hxnew.version_eq hynew hxmem hymem hkey
  obtain ⟨hi, hxi⟩ := List.getElem?_eq_some_iff.mp (zipIdx_getElem? hxmem)
  obtain ⟨hj, hyj⟩ := List.getElem?_eq_some_iff.mp (zipIdx_getElem? hymem)
  refine List.pairwise_iff_getElem.mp h.versions x.2 y.2 hi hj hlt ?_ ?_
  · rw [hxi, hyj]
    exact hkey
  · rw [hxi, hyj]
    exact hver

/-- What is left after a compaction has one row a key. -/
theorem Compacted.keys (h : s.Conforms desc) (hc : s.Compacted desc s')
    (hcols : s'.deltaCols = s.deltaCols) :
    s'.storedRows.Pairwise fun a b => s'.keyTuple desc a ≠ s'.keyTuple desc b := by
  have hkey : ∀ r, s'.keyTuple desc r = s.keyTuple desc r := by
    intro r
    exact List.map_congr_left fun n _ => by rw [cellOf, cellOf, hcols]
  let R : Lsn × Nat × Bool × Ctid × List (Option Value) →
      Lsn × Nat × Bool × Ctid × List (Option Value) → Prop := fun c c' =>
    desc.pk.map (Row.get (s.deltaCols.map (·.col)) c.2.2.2.2) ≠
      desc.pk.map (Row.get (s.deltaCols.map (·.col)) c'.2.2.2.2)
  have hnewest : ((s.newestBy (s.keyTuple desc)).map fun x => StoredRow.contents x.1).Pairwise R :=
    List.pairwise_map.mpr h.newest_versions
  have hrows : (s'.storedRows.map StoredRow.contents).Pairwise R :=
    (hc.rows.pairwise_iff fun {c c'} hne => Ne.symm hne).mpr hnewest
  refine (List.pairwise_map.mp hrows).imp fun {a b} hne => ?_
  rw [hkey, hkey]
  exact hne

/-- A compaction that went well shows what was shown before. -/
theorem Compacted.view_eq (h : s.Conforms desc) (hc : s.Compacted desc s')
    (hcols : s'.deltaCols = s.deltaCols) : s'.view desc = s.view desc := by
  have hkeys := hc.keys h hcols
  -- All rows left are newest and live.
  have hall : ∀ x ∈ s'.storedRows.zipIdx, x ∈ s'.newestBy (s'.keyTuple desc) := by
    intro x hx
    have hmem : StoredRow.contents x.1 ∈ s'.storedRows.map StoredRow.contents :=
      List.mem_map_of_mem (List.mem_of_getElem? (zipIdx_getElem? hx))
    obtain ⟨y, hy, heq⟩ := List.mem_map.mp (hc.rows.mem_iff.mp hmem)
    have hlive := (keyed_of_contents s desc heq).2.2
    refine mem_newestBy.mpr ⟨hx, fun z hz hkey => ?_, hlive.symm.trans (mem_newestBy.mp hy).2.2⟩
    obtain ⟨hi, hxi⟩ := List.getElem?_eq_some_iff.mp (zipIdx_getElem? hx)
    obtain ⟨hj, hzj⟩ := List.getElem?_eq_some_iff.mp (zipIdx_getElem? hz)
    have hget := List.pairwise_iff_getElem.mp hkeys
    rcases lt_trichotomy x.2 z.2 with hlt | heq | hlt
    · refine absurd hkey.symm ?_
      rw [← hxi, ← hzj]
      exact hget x.2 z.2 hi hj hlt
    · have hsame : x.1 = z.1 := by
        rw [← hxi, ← hzj]
        simp only [heq]
      exact .inr ⟨by rw [hsame], heq.le⟩
    · refine absurd hkey ?_
      rw [← hxi, ← hzj]
      exact hget z.2 x.2 hj hi hlt
  ext c
  have hrows := hc.rows.mem_iff (a := c)
  rw [List.mem_map, List.mem_map] at hrows
  refine Iff.trans ?_ hrows
  constructor
  · rintro ⟨x, hx, rfl⟩
    exact ⟨x.1, List.mem_of_getElem? (zipIdx_getElem? (mem_newestBy.mp hx).1), rfl⟩
  · rintro ⟨r, hr, rfl⟩
    obtain ⟨i, hi⟩ := List.mem_iff_getElem?.mp hr
    have hmem : (r, i) ∈ s'.storedRows.zipIdx :=
      List.mem_iff_getElem?.mpr ⟨i, by simp [List.getElem?_zipIdx, hi]⟩
    exact ⟨(r, i), hall _ hmem, rfl⟩

/-- A compacted log conforms as the old one did. -/
theorem Conforms.of_compacted (h : s.Conforms desc) (hpk : desc.pk ≠ []) (hapart : s.KeysApart desc)
    (hfit : s.Settled desc ∨ s.IndicesFit desc) {before after : Nat}
    (hdone : s.compact desc = .done s' before after) : s'.Conforms desc := by
  have hc := h.compacted hpk hapart hfit hdone
  obtain ⟨rows, rfl⟩ := compact_rewrites hdone
  refine ⟨h.names, h.pk, h.columns, ?_, fun _ => rfl, ?_⟩
  · intro b hb dc hdc dc' hdc' hname
    by_cases hnil : rows = []
    · simp [rewrite, hnil] at hb
    · obtain rfl : b = s.compactedFile rows := by simpa [rewrite, hnil] using hb
      obtain ⟨i, hi⟩ := List.mem_iff_getElem?.mp hdc'
      simp only [compactedFile, List.getElem?_mapIdx, Option.map_eq_some_iff] at hi
      obtain ⟨dc₀, hdc₀, rfl⟩ := hi
      have hdc : dc ∈ s.deltaCols := hdc
      have heq : dc₀ = dc :=
        List.inj_on_of_nodup_map h.names (List.mem_of_getElem? hdc₀) hdc hname
      rw [heq]
  · exact (hc.keys h rfl).imp fun hne heq => absurd heq hne

end View

end DeltaSink

/-! ## Keys that compact and keys that do not -/

namespace Sample

/-- A table whose columns are its primary key. -/
def keyed (cols : List Col) : TableDesc where
  name := "t"
  oid := 16384
  dbOid := 5
  relNode := 16384
  toastRelNode := none
  cols := cols
  phys := cols.map .live
  hasFastDefaults := false
  pk := cols.map (·.name)

/-- Its change log after one file for each list of rows. -/
def keyedLog (cols : List Col) (files : List (List EmitRow)) : DeltaSink :=
  files.foldl (fun s rows => s.append rows 200 200 16384) (sink (keyed cols))

def intKey : List Col := [⟨"id", .int4⟩]

/-- Row `id = 1` was moved, row `id = 2` was deleted. -/
def intLog : DeltaSink := keyedLog intKey
  [[⟨150, 1, false, (0, 1), [some (.i32 1)]⟩, ⟨150, 2, false, (0, 2), [some (.i32 2)]⟩],
   [⟨160, 1, false, (0, 3), [some (.i32 1)]⟩, ⟨160, 2, true, (0, 2), [some (.i32 2)]⟩]]

def textKey : List Col := [⟨"a", .text⟩, ⟨"b", .text⟩]

/-- Two rows with different keys, both `x␟␟y␟` to compaction. -/
def textLog : DeltaSink := keyedLog textKey
  [[⟨150, 1, false, (0, 1), [some (.text "x\x1f"), some (.text "y")]⟩,
    ⟨150, 2, false, (0, 2), [some (.text "x"), some (.text "\x1fy")]⟩]]

def dateKey : List Col := [⟨"day", .date⟩]

def dateLog : DeltaSink := keyedLog dateKey [[⟨150, 1, false, (0, 1), [some (.i32 19000)]⟩]]

private theorem keyed_matches {cols : List Col} (hnodup : (cols.map (·.name)).Nodup) {s : DeltaSink}
    (hs : s.deltaCols = DeltaSink.addColumns 0 cols []) : s.Matches (keyed cols).cols :=
  DeltaSink.matches_of_addColumns hnodup (by simp) hs

theorem intLog_conforms : intLog.Conforms (keyed intKey) where
  names := by decide
  pk := by decide
  columns := keyed_matches (by decide) rfl
  types := by decide
  stamped := by decide
  versions := by decide

theorem textLog_conforms : textLog.Conforms (keyed textKey) where
  names := by decide
  pk := by decide
  columns := keyed_matches (by decide) rfl
  types := by decide
  stamped := by decide
  versions := by decide

theorem dateLog_conforms : dateLog.Conforms (keyed dateKey) where
  names := by decide
  pk := by decide
  columns := keyed_matches (by decide) rfl
  types := by decide
  stamped := by decide
  versions := by decide

end Sample

namespace DeltaSink

theorem compactsWell_iff_int :
    Sample.intLog.CompactsWell (Sample.keyed Sample.intKey) ∧
      ∃ s', Sample.intLog.compact (Sample.keyed Sample.intKey) = .done s' 4 1 := by
  refine ⟨?_, _, rfl⟩
  refine (compactsWell_iff (by decide) Sample.intLog_conforms).mpr ⟨?_, ?_, .inr ?_⟩
  · unfold KeyUsable
    decide
  · unfold KeysApart
    decide
  · unfold IndicesFit
    decide

/-- A row with a key of its own is dropped, and a date key stops the process. -/
theorem compact_drops_row_and_panics :
    (Sample.textLog.Conforms (Sample.keyed Sample.textKey) ∧
      ¬ Sample.textLog.CompactsWell (Sample.keyed Sample.textKey)) ∧
    Sample.dateLog.Conforms (Sample.keyed Sample.dateKey) ∧
      Sample.dateLog.compact (Sample.keyed Sample.dateKey) = .panicked := by
  refine ⟨⟨Sample.textLog_conforms, fun h => ?_⟩, Sample.dateLog_conforms, rfl⟩
  obtain ⟨s', hdone⟩ : ∃ s', Sample.textLog.compact (Sample.keyed Sample.textKey) = .done s' 2 1 :=
    ⟨_, rfl⟩
  have hrows := (h.2 s' 2 1 hdone).rows.length_eq
  cases hdone
  exact absurd hrows (by decide)

end DeltaSink

end Ltap
