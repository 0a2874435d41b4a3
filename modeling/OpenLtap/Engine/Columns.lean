-- SUMMARY: How the Delta columns of a sink stand for the live columns of its table.
import OpenLtap.Driver.Main

/-!
# Columns

A sink keeps every column it ever had. `openOrCreate` and `evolve` point each one at
the live column of its name, if there is one, and add the live columns that are new.
A row of the right types then reads back as it was written.
-/

namespace Ltap

/-- Column names are unique in Postgres. -/
def TableDesc.WellFormed (desc : TableDesc) : Prop := (desc.cols.map (·.name)).Nodup

/-- What the binary COPY of a table yields: one value a column, of the column's type. -/
def Row.Typed (cols : List Col) (row : Row) : Prop :=
  row.length = cols.length ∧
    ∀ (i : Nat) (c : Col) (v : Value), cols[i]? = some c → row[i]? = some (some v) → c.ty.accepts v

/-! ## Types -/

@[simp] theorem deltaType_pgFromDelta (d : DeltaType) : deltaType (pgFromDelta d) = d := by
  cases d <;> rfl

/-- Which values a column takes depends on its Delta type only. -/
theorem PgType.accepts_pgFromDelta (ty : PgType) (v : Value) :
    (pgFromDelta (deltaType ty)).accepts v = ty.accepts v := by
  cases ty <;> cases v <;> rfl

theorem PgType.accepts_congr {ty ty' : PgType} (h : deltaType ty = deltaType ty') (v : Value) :
    ty.accepts v = ty'.accepts v := by
  rw [← accepts_pgFromDelta ty, h, accepts_pgFromDelta]

/-! ## Pointing at live columns -/

theorem findIdx?_name {cols : List Col} (hnodup : (cols.map (·.name)).Nodup) {i : Nat} {c : Col}
    (hc : cols[i]? = some c) : cols.findIdx? (·.name = c.name) = some i := by
  obtain ⟨hi, rfl⟩ := List.getElem?_eq_some_iff.mp hc
  refine List.findIdx?_eq_some_iff_getElem.mpr ⟨hi, by simp, fun j hj hname => ?_⟩
  have hlt : j < cols.length := lt_trans hj hi
  have hne := List.pairwise_iff_getElem.mp hnodup j i (by simpa using hlt) (by simpa using hi) hj
  exact hne (by simpa using hname)

/-- The column points at the live column of its name, which has the same Delta type. -/
structure DeltaCol.Points (cols : List Col) (dc : DeltaCol) : Prop where
  live : dc.live = cols.findIdx? (·.name = dc.col.name)
  type : ∀ c, dc.live.bind (cols[·]?) = some c → deltaType c.ty = deltaType dc.col.ty

namespace DeltaSink

/-- Every live column has its Delta column. -/
def Matches (s : DeltaSink) (cols : List Col) : Prop :=
  ∀ i c, cols[i]? = some c → ∃ dc, s.deltaCols.find? (·.col.name = c.name) = some dc ∧
    dc.live = some i ∧ deltaType dc.col.ty = deltaType c.ty

theorem matchColumns_points {cols fields : List Col} {dcs : List DeltaCol}
    (h : matchColumns cols fields = .ok dcs) : ∀ dc ∈ dcs, dc.Points cols := by
  induction fields generalizing dcs with
  | nil =>
    simp only [matchColumns, Except.ok.injEq] at h
    subst h
    simp
  | cons field fields ih =>
    simp only [matchColumns] at h
    split at h
    · exact ih h
    · cases hrest : matchColumns cols fields with
      | error msg =>
        rw [hrest] at h
        split at h
        · split at h
          · cases h
          · cases h
        · cases h
      | ok rest =>
        rw [hrest] at h
        split at h
        · rename_i c hc
          split at h
          · cases h
          · rename_i htype
            obtain rfl := Except.ok.inj h
            simp only [List.mem_cons, forall_eq_or_imp]
            refine ⟨⟨rfl, fun c' hc' => ?_⟩, ih hrest⟩
            obtain rfl := Option.some.inj (hc.symm.trans hc')
            simpa using htype
        · rename_i hc
          obtain rfl := Except.ok.inj h
          simp only [List.mem_cons, forall_eq_or_imp]
          refine ⟨⟨rfl, fun c' hc' => ?_⟩, ih hrest⟩
          rw [hc] at hc'
          cases hc'

theorem repoint_points {cols : List Col} {dcs dcs' : List DeltaCol}
    (h : repoint cols dcs = (dcs', true)) : ∀ dc ∈ dcs', dc.Points cols := by
  induction dcs generalizing dcs' with
  | nil =>
    simp only [repoint, Prod.mk.injEq, and_true] at h
    subst h
    simp
  | cons dc dcs ih =>
    cases hlive : (cols.findIdx? (·.name = dc.col.name)).bind (cols[·]?) with
    | none =>
      simp only [repoint, hlive, Bool.false_eq_true, if_false, Prod.mk.injEq] at h
      obtain ⟨rfl, hok⟩ := h
      simp only [List.mem_cons, forall_eq_or_imp]
      refine ⟨⟨rfl, fun c hc => ?_⟩, ih (Prod.ext rfl hok)⟩
      rw [hlive] at hc
      cases hc
    | some c =>
      simp only [repoint, hlive] at h
      split at h
      · cases h
      · rename_i htype
        simp only [Prod.mk.injEq] at h
        obtain ⟨rfl, hok⟩ := h
        simp only [List.mem_cons, forall_eq_or_imp]
        refine ⟨⟨rfl, fun c' hc' => ?_⟩, ih (Prod.ext rfl hok)⟩
        obtain rfl := Option.some.inj (hlive.symm.trans hc')
        simpa using htype

/-- Adding the live columns from position `li` on. -/
theorem addColumns_points {cols rest : List Col} {li : Nat} {dcs : List DeltaCol}
    (hnodup : (cols.map (·.name)).Nodup) (hrest : cols.drop li = rest)
    (hpoints : ∀ dc ∈ dcs, dc.Points cols) :
    (∀ dc ∈ addColumns li rest dcs, dc.Points cols) ∧
      (∀ dc ∈ dcs, dc ∈ addColumns li rest dcs) ∧
      ∀ c ∈ rest, ∃ dc ∈ addColumns li rest dcs, dc.col.name = c.name := by
  induction rest generalizing li dcs with
  | nil => exact ⟨hpoints, fun _ h => h, by simp⟩
  | cons c rest ih =>
    have hli : cols[li]? = some c := by
      rw [← List.head?_drop, hrest, List.head?_cons]
    have hrest' : cols.drop (li + 1) = rest := by
      rw [← List.drop_drop, hrest, List.drop_one, List.tail_cons]
    have hidx := findIdx?_name hnodup hli
    simp only [addColumns]
    split
    · rename_i hany
      obtain ⟨hall, hkeep, hnames⟩ := ih hrest' hpoints
      refine ⟨hall, hkeep, ?_⟩
      simp only [List.mem_cons, forall_eq_or_imp]
      obtain ⟨dc, hdc, hname⟩ := List.any_eq_true.mp hany
      exact ⟨⟨dc, hkeep dc hdc, by simpa using hname⟩, hnames⟩
    · have hnew : ∀ dc ∈ dcs ++ [{ col := c, live := some li }], dc.Points cols := by
        intro dc hdc
        rcases List.mem_append.mp hdc with hdc | hdc
        · exact hpoints dc hdc
        · obtain rfl := List.mem_singleton.mp hdc
          refine ⟨hidx.symm, fun c' hc' => ?_⟩
          simp only [Option.bind_some, hli, Option.some.injEq] at hc'
          rw [hc']
      obtain ⟨hall, hkeep, hnames⟩ := ih hrest' hnew
      refine ⟨hall, fun dc hdc => hkeep dc (by simp [hdc]), ?_⟩
      simp only [List.mem_cons, forall_eq_or_imp]
      exact ⟨⟨_, hkeep { col := c, live := some li } (by simp), rfl⟩, hnames⟩

theorem matches_of_addColumns {cols : List Col} {dcs : List DeltaCol} {s : DeltaSink}
    (hnodup : (cols.map (·.name)).Nodup) (hpoints : ∀ dc ∈ dcs, dc.Points cols)
    (hs : s.deltaCols = addColumns 0 cols dcs) : s.Matches cols := by
  obtain ⟨hall, -, hnames⟩ := addColumns_points hnodup List.drop_zero hpoints
  intro i c hc
  obtain ⟨dc, hdc, hname⟩ := hnames c (List.mem_of_getElem? hc)
  cases hfind : s.deltaCols.find? (·.col.name = c.name) with
  | none =>
    have hnone := List.find?_eq_none.mp hfind dc (hs ▸ hdc)
    simp [hname] at hnone
  | some dc' =>
    have hname' : dc'.col.name = c.name := by simpa using List.find?_some hfind
    have hpoint := hall dc' (hs ▸ List.mem_of_find?_eq_some hfind)
    have hlive : dc'.live = some i := by
      rw [hpoint.live, hname']
      exact findIdx?_name hnodup hc
    exact ⟨dc', rfl, hlive, (hpoint.type c (by simpa [hlive] using hc)).symm⟩

theorem openOrCreate_matches {uri : String} {existing : Option DeltaTable} {desc : TableDesc}
    {s : DeltaSink} (hdesc : desc.WellFormed) (h : openOrCreate uri existing desc = .ok s) :
    s.Matches desc.cols := by
  simp only [openOrCreate, bind, Except.bind] at h
  split at h
  · cases h
  · rename_i known hknown
    cases h
    exact matches_of_addColumns hdesc (matchColumns_points hknown) rfl

theorem evolve_matches {s s' : DeltaSink} {cols : List Col} (hnodup : (cols.map (·.name)).Nodup)
    (h : s.evolve cols = (s', true)) : s'.Matches cols := by
  simp only [evolve] at h
  split at h
  · rename_i hok
    obtain rfl := (Prod.ext_iff.mp h).1
    exact matches_of_addColumns hnodup (repoint_points (Prod.ext rfl hok)) rfl
  · cases h

/-! ## Reading back -/

/-- A row as it reads back after it was written to this sink. -/
def stored (s : DeltaSink) (desc : TableDesc) (row : Row) : Row :=
  desc.cols.map fun c => (s.deltaCols.find? (·.col.name = c.name)).bind (·.cell row)

/-- The change log, with every row read under the live columns. -/
def readLog (s : DeltaSink) (desc : TableDesc) : List EmitRow :=
  s.table.files.flatMap fun b => b.rows.map fun e =>
    { e with row := desc.cols.map fun c => b.cell e c.name }

/-- A change row as it reads back. -/
def storedRow (s : DeltaSink) (desc : TableDesc) (e : EmitRow) : EmitRow :=
  { e with row := s.stored desc e.row }

theorem append_readLog (s : DeltaSink) (rows : List EmitRow) (c r : Lsn) (f : Oid)
    (desc : TableDesc) :
    (s.append rows c r f).readLog desc = s.readLog desc ++ rows.map (s.storedRow desc) := by
  simp only [append, readLog, List.flatMap_append, List.flatMap_singleton]
  rfl

theorem stored_eq {s : DeltaSink} {desc : TableDesc} {row : Row} (hs : s.Matches desc.cols)
    (hrow : row.Typed desc.cols) : s.stored desc row = row := by
  refine List.ext_getElem? fun i => ?_
  rw [stored, List.getElem?_map]
  cases hc : desc.cols[i]? with
  | none =>
    have hi : row.length ≤ i := by
      rw [hrow.1]
      exact List.getElem?_eq_none_iff.mp hc
    simp [List.getElem?_eq_none hi]
  | some c =>
    obtain ⟨dc, hfind, hlive, htype⟩ := hs i c hc
    have hi : i < row.length := by
      rw [hrow.1]
      exact (List.getElem?_eq_some_iff.mp hc).1
    simp only [Option.map_some, hfind, Option.bind_some, DeltaCol.cell, hlive]
    rw [List.getElem?_eq_getElem hi, Option.some.injEq, Option.join_some]
    cases hv : row[i] with
    | none => rfl
    | some v =>
      have hok := hrow.2 i c v hc (by rw [List.getElem?_eq_getElem hi, hv])
      rw [Option.filter_some, PgType.accepts_congr htype, if_pos hok]

end DeltaSink

theorem Table.adopt_matches {t t' : Table} {fresh : TableDesc} (hfresh : fresh.WellFormed)
    (ht : t.sink.Matches t.desc.cols) (h : t.adopt fresh = (t', true)) :
    t'.sink.Matches t'.desc.cols ∧ t'.desc = fresh := by
  simp only [adopt] at h
  split at h
  · split at h
    · rename_i hok
      obtain rfl := (Prod.ext_iff.mp h).1
      exact ⟨DeltaSink.evolve_matches hfresh (Prod.ext rfl hok), rfl⟩
    · cases h
  · rename_i hcols
    obtain rfl := (Prod.ext_iff.mp h).1
    have hcols : fresh.cols = t.desc.cols := by simpa [colsChanged] using hcols
    exact ⟨hcols ▸ ht, rfl⟩

end Ltap
