-- SUMMARY: The table descriptor that SQL gives (`schema.rs`), and when the page-derived catalog agrees with it.
import OpenLtap.Catalog.Rows

/-!
# Descriptors by SQL

`discover` asks the server for a table of `public` by name. The page-derived catalog takes
the first ordinary table of the name, in whatever namespace. Both read the same rows.
-/

namespace Ltap

open Keyed

/-! ## The queries -/

/-- `query_opt`. -/
def queryOpt {α : Type} : List α → Except Fault (Option α)
  | [] => .ok none
  | [a] => .ok (some a)
  | _ => bail "query returned an unexpected number of rows"

def alignText (c : UInt8) : Except Fault Nat :=
  if c = 0x63 then .ok 1 else if c = 0x73 then .ok 2 else if c = 0x69 then .ok 4 else .ok 8

def attType (a : AttRow) : Except Fault PgType := withContext s!"column '{a.name}'" (PgType.fromOid a.typid)

/-- The relation has this name in `public`. -/
def ClassRow.InPublic (c : ClassRow) (table : String) : Prop := c.name = table ∧ c.nspOid = publicNamespaceOid

instance (c : ClassRow) (table : String) : Decidable (c.InPublic table) := inferInstanceAs (Decidable (_ ∧ _))

/-- An ordinary table of this name, in whatever namespace. -/
def ClassRow.Named (c : ClassRow) (table : String) : Prop := c.name = table ∧ c.relkind = relkindTable

namespace PgRows

variable (rows : PgRows)

/-- The table and the relation its values are toasted to. -/
def tableQuery (table : String) : List (ClassRow × Option ClassRow) :=
  leftJoin (fun c tc => tc.oid = c.toastrelid)
    (rows.classes.filter fun c => c.InPublic table ∧ c.relkind = relkindTable) rows.classes

/-- `format('public.%I', $1)::regclass`. -/
def regclass (table : String) : Except Fault Oid :=
  match rows.classes.find? (·.InPublic table) with
  | none => bail s!"relation public.{table} does not exist"
  | some c => .ok c.oid

/-- Key columns and included columns alike. -/
def pkQuery (oid : Oid) : List String :=
  let joined := join (fun i a => a.attrelid = i.indrelid ∧ a.attnum ∈ i.indkey) rows.indexes rows.atts
  let chosen := joined.filter fun r => r.1.indrelid = oid ∧ r.1.indisprimary
  (orderBy (fun r => r.1.indkey.idxOf r.2.attnum) chosen).map (·.2.name)

def attsQuery (table : String) : List AttRow :=
  let joined := join (fun a c => a.attrelid = c.oid ∧ c.InPublic table) rows.atts rows.classes
  (orderBy (fun r => r.1.attnum) (joined.filter (·.1.attnum > 0))).map (·.1)

/-- What `discover` reads in the database with this oid. -/
def sqlDescriptor (db : Oid) (table : String) : Except Fault TableDesc := do
  match ← queryOpt (rows.tableQuery table) with
  | none => bail s!"table '{table}' not found"
  | some (c, tc) =>
    let pk := rows.pkQuery (← rows.regclass table)
    let columns ← columnsOf alignText attType (rows.attsQuery table)
    return {
      name := table, oid := c.oid, dbOid := db, relNode := c.filenode, toastRelNode := tc.map (·.filenode)
      cols := columns.1, phys := columns.2.1, hasFastDefaults := columns.2.2, pk }

/-- `schema::discover`. -/
def discover (db : Oid) (table : String) : Except Fault TableDesc := do
  let desc ← rows.sqlDescriptor db table
  if desc.cols = [] then bail s!"table '{table}' has no columns?" else return desc

/-- The same rows in another order. -/
structure Reorders (rows' rows : PgRows) : Prop where
  classes : rows'.classes.Perm rows.classes
  atts : rows'.atts.Perm rows.atts
  indexes : rows'.indexes.Perm rows.indexes

end PgRows

/-! ## Well-formed catalogs -/

/-- The attributes of a table that a descriptor covers. -/
def PgRows.attsOf (rows : PgRows) (c : ClassRow) : List AttRow :=
  rows.atts.filter fun a => a.attrelid = c.oid ∧ a.attnum ≥ 1

/-- The visible rows of a database, as the server keeps them. -/
structure PgCatalog extends PgRows where
  oids : KeyOn (·.oid) classes
  oid_ne_zero : ∀ c ∈ classes, c.oid ≠ 0
  names : KeyOn (fun c => (c.name, c.nspOid)) classes
  attnums : KeyOn (fun a => (a.attrelid, a.attnum)) atts
  natts : ∀ c ∈ classes, c.relkind = relkindTable → c.natts = (toPgRows.attsOf c).length
  attalign : ∀ a ∈ atts, a.attalign ∈ ([0x63, 0x73, 0x69, 0x64] : List UInt8)
  /-- A table has one primary key. -/
  primaries : KeyOn (·.indrelid) (indexes.filter (·.indisprimary))
  /-- Its key columns are different ones, and all its columns are there. -/
  keyColumns : ∀ i ∈ indexes, i.indisprimary → i.keyColumns.Nodup
  indkey : ∀ i ∈ indexes, i.indisprimary → ∀ k ∈ i.indkey, 1 ≤ k ∧
    ∃ a ∈ atts, a.attrelid = i.indrelid ∧ a.attnum = k ∧ ¬ a.isdropped

/-! ## Columns -/

section Columns

variable {align align' : UInt8 → Except Fault Nat} {type type' : AttRow → Except Fault PgType} {atts : List AttRow}

theorem columnsOf_cons_toOption (a : AttRow) :
    (columnsOf align type (a :: atts)).toOption =
      if a.isdropped then (align a.attalign).toOption.bind fun al =>
        (columnsOf align type atts).toOption.map fun rest =>
          (rest.1, .dropped a.attlen al :: rest.2.1, rest.2.2)
      else (type a).toOption.bind fun ty => (columnsOf align type atts).toOption.map fun rest =>
        (⟨a.name, ty⟩ :: rest.1, .live ⟨a.name, ty⟩ :: rest.2.1, a.hasmissing || rest.2.2) := by
  rw [columnsOf]
  split
  · cases align a.attalign with
    | error => rfl
    | ok => cases columnsOf align type atts <;> rfl
  · cases type a with
    | error => rfl
    | ok => cases columnsOf align type atts <;> rfl

theorem columnsOf_congr (halign : ∀ a ∈ atts, (align a.attalign).toOption = (align' a.attalign).toOption)
    (htype : ∀ a ∈ atts, (type a).toOption = (type' a).toOption) :
    (columnsOf align type atts).toOption = (columnsOf align' type' atts).toOption := by
  induction atts with
  | nil => rfl
  | cons a atts ih =>
    rw [List.forall_mem_cons] at halign htype
    rw [columnsOf_cons_toOption, columnsOf_cons_toOption, halign.1, htype.1, ih halign.2 htype.2]

/-- Columns can be described if every live one has a type. -/
theorem columnsOf_isSome (halign : ∀ a ∈ atts, (align a.attalign).toOption.isSome) :
    (columnsOf align type atts).toOption.isSome ↔
      ∀ a ∈ atts, ¬ a.isdropped → (type a).toOption.isSome := by
  induction atts with
  | nil => exact iff_of_true rfl (by simp)
  | cons a atts ih =>
    rw [List.forall_mem_cons] at halign
    obtain ⟨al, hal⟩ := Option.isSome_iff_exists.mp halign.1
    rw [columnsOf_cons_toOption, List.forall_mem_cons, ← ih halign.2, hal]
    by_cases hdropped : a.isdropped = true
    · simp [hdropped]
    · cases (type a).toOption <;> simp [hdropped]

end Columns

theorem withContext_toOption {α : Type} (what : String) (r : Except Fault α) :
    (withContext what r).toOption = r.toOption := by
  rcases r with ((_ | _) | _) | _ <;> rfl

namespace PgCatalog

variable {s : PgCatalog} {rows : PgRows} {db : Oid} {table : String} {c : ClassRow}

/-! ## Lookups in any order -/

theorem attsOf_key (s : PgCatalog) (c : ClassRow) : KeyOn (·.attnum) (s.attsOf c) := by
  refine (s.attnums.filter _).of_determines fun a ha b hb heq => ?_
  have ha := (List.mem_filter.mp ha).2
  have hb := (List.mem_filter.mp hb).2
  simp only [ge_iff_le, decide_eq_true_eq] at ha hb
  rw [Prod.mk.injEq]
  exact ⟨ha.1.trans hb.1.symm, heq⟩

/-- The attributes of a table in order. -/
def sortedAtts (s : PgCatalog) (c : ClassRow) : List AttRow := orderBy (·.attnum) (s.attsOf c)

theorem mem_sortedAtts {a : AttRow} : a ∈ s.sortedAtts c ↔ a ∈ s.atts ∧ a.attrelid = c.oid ∧ 1 ≤ a.attnum := by
  simp [sortedAtts, PgRows.attsOf]

theorem sortedAtts_key (s : PgCatalog) (c : ClassRow) : KeyOn (·.attnum) (s.sortedAtts c) :=
  (s.attsOf_key c).perm (orderBy_perm_self _ _)

/-- The row of the relation that holds the table's toasted values. -/
def toastOf (s : PgCatalog) (c : ClassRow) : Option ClassRow := s.classes.find? (·.oid = c.toastrelid)

def primaryOf (s : PgCatalog) (c : ClassRow) : Option PgIndexRow :=
  s.indexes.find? fun i => i.indrelid = c.oid ∧ i.indisprimary

theorem primary_unique (s : PgCatalog) (oid : Oid) :
    AtMostOne (fun i => i.indrelid = oid ∧ i.indisprimary = true) s.indexes := by
  rintro i hi j hj ⟨hirel, hiprimary⟩ ⟨hjrel, hjprimary⟩
  exact s.primaries.inj (List.mem_filter.mpr ⟨hi, hiprimary⟩) (List.mem_filter.mpr ⟨hj, hjprimary⟩)
    (hirel.trans hjrel.symm)

theorem primaryOf_eq_some {i : PgIndexRow} :
    s.primaryOf c = some i ↔ i ∈ s.indexes ∧ i.indrelid = c.oid ∧ i.indisprimary = true := by
  rw [primaryOf, find?_eq_some_iff]
  · simp
  · simpa using s.primary_unique c.oid

/-- A live column of a table. -/
def column (s : PgCatalog) (oid : Oid) (k : Int) : Option AttRow :=
  s.atts.find? fun a => a.attrelid = oid ∧ a.attnum = k

theorem column_eq_some {oid : Oid} {k : Int} {a : AttRow} :
    s.column oid k = some a ↔ a ∈ s.atts ∧ a.attrelid = oid ∧ a.attnum = k := by
  rw [column, find?_eq_some_iff]
  · simp
  · exact s.attnums.atMostOne (k := (oid, k)) fun a _ ha => by simpa using ha

def columnName (s : PgCatalog) (oid : Oid) (k : Int) : String := ((s.column oid k).map (·.name)).getD ""

theorem columnName_eq {a : AttRow} (ha : a ∈ s.atts) : s.columnName a.attrelid a.attnum = a.name := by
  rw [columnName, column_eq_some.mpr ⟨ha, rfl, rfl⟩]
  rfl

section Reordered

variable (h : rows.Reorders s.toPgRows)
include h

theorem atts_eq (c : ClassRow) : (rows.catalog db).atts c = s.sortedAtts c := by
  have hperm : (rows.attsOf c).Perm (s.attsOf c) := h.atts.filter _
  have horder : orderBy (·.attnum) (rows.attsOf c) = s.sortedAtts c := orderBy_perm (s.attsOf_key c) hperm
  have hdedup := destutter_orderBy (s.attsOf_key c)
  exact (congrArg (List.destutter fun a b : AttRow => a.attnum ≠ b.attnum) horder).trans hdedup

theorem toastRelNode_eq (c : ClassRow) : (rows.catalog db).toastRelNode c = (s.toastOf c).map (·.filenode) := by
  have hunique : AtMostOne (fun r : ClassRow => r.oid = c.toastrelid) s.classes :=
    s.oids.atMostOne fun _ _ heq => heq
  have hfind : rows.classes.find? (·.oid = c.toastrelid) = s.toastOf c :=
    find?_perm (by simpa using hunique) h.classes
  rw [PageCatalog.toastRelNode, ← hfind]
  split
  · rfl
  · rename_i hzero
    rw [hfind]
    have hnone : s.toastOf c = none := by
      rw [toastOf, List.find?_eq_none]
      intro r hr
      simpa [not_not.mp hzero] using s.oid_ne_zero r hr
    rw [hnone]
    rfl

theorem primary_eq (c : ClassRow) :
    ((rows.catalog db).indexRows.find? fun i => i.indrelid = c.oid ∧ i.isprimary) =
      (s.primaryOf c).map PgIndexRow.onPage := by
  have hfind : (rows.indexes.find? fun i => i.indrelid = c.oid ∧ i.indisprimary) = s.primaryOf c :=
    find?_perm (by simpa using s.primary_unique c.oid) h.indexes
  rw [PgRows.catalog, List.find?_map, ← hfind]
  rfl

end Reordered

/-! ## The descriptor from the pages -/

theorem pkName_eq {i : PgIndexRow} (hi : i ∈ s.indexes) (hprimary : i.indisprimary = true)
    (hrelid : i.indrelid = c.oid) {k : Int} (hk : k ∈ i.indkey) :
    PageCatalog.pkName table (s.sortedAtts c) k = .ok (s.columnName c.oid k) := by
  obtain ⟨hpos, a, ha, harelid, rfl, hlive⟩ := s.indkey i hi hprimary k hk
  have hmem : a ∈ s.sortedAtts c := mem_sortedAtts.mpr ⟨ha, harelid.trans hrelid, hpos⟩
  have hfind : ((s.sortedAtts c).find? fun b => b.attnum = a.attnum ∧ ¬ b.isdropped) = some a := by
    rw [find?_eq_some_iff]
    · simpa [hmem] using hlive
    · refine (s.sortedAtts_key c).atMostOne (k := a.attnum) fun b _ hb => ?_
      simp only [decide_eq_true_eq] at hb
      exact hb.1
  rw [PageCatalog.pkName, hfind, ← hrelid, ← harelid, columnName_eq ha]

/-- The key columns of the primary key in order. -/
def keyNames (s : PgCatalog) (c : ClassRow) : List String :=
  ((s.primaryOf c).map fun i => i.keyColumns.map (s.columnName c.oid)).getD []

/-- The columns of a table, if all of them have a type. -/
def columns (s : PgCatalog) (c : ClassRow) : Option (List Col × List PhysCol × Bool) :=
  (columnsOf attalignOf (PgType.fromOid ·.typid) (s.sortedAtts c)).toOption

def descriptor (s : PgCatalog) (db : Oid) (table : String) (c : ClassRow) (pk : List String)
    (columns : List Col × List PhysCol × Bool) : TableDesc where
  name := table
  oid := c.oid
  dbOid := db
  relNode := c.filenode
  toastRelNode := (s.toastOf c).map (·.filenode)
  cols := columns.1
  phys := columns.2.1
  hasFastDefaults := columns.2.2
  pk := pk

/-- From every order of the rows the table has one descriptor. -/
theorem descOf_eq (h : rows.Reorders s.toPgRows) (hc : c ∈ s.classes) (hkind : c.relkind = relkindTable) :
    ((rows.catalog db).descOf table c).toOption = (s.columns c).map (s.descriptor db table c (s.keyNames c)) := by
  have hcount : ((s.sortedAtts c).length : Int) = c.natts := by
    rw [s.natts c hc hkind, sortedAtts, (orderBy_perm_self _ _).length_eq]
  have hpk : (rows.catalog db).pk table c (s.sortedAtts c) = .ok (s.keyNames c) := by
    rw [PageCatalog.pk, primary_eq h, keyNames]
    cases hprimary : s.primaryOf c with
    | none => rfl
    | some i =>
      obtain ⟨hi, hrelid, hiprimary⟩ := primaryOf_eq_some.mp hprimary
      exact mapM_eq_pure fun k hk => pkName_eq hi hiprimary hrelid (List.mem_of_mem_take hk)
  rw [PageCatalog.descOf, atts_eq h, if_neg (not_not.mpr hcount), hpk, toastRelNode_eq h, columns]
  cases columnsOf attalignOf (PgType.fromOid ·.typid) (s.sortedAtts c) <;> rfl

/-! ## The descriptor by SQL -/

section Public

variable (hc : c ∈ s.classes) (hpublic : c.InPublic table)
include hc hpublic

theorem inPublic_iff {r : ClassRow} (hr : r ∈ s.classes) : r.InPublic table ↔ r = c := by
  constructor
  · intro h
    exact s.names.inj hr hc (Prod.ext (h.1.trans hpublic.1.symm) (h.2.trans hpublic.2.symm))
  · rintro rfl
    exact hpublic

theorem tableQuery_eq (hkind : c.relkind = relkindTable) : s.tableQuery table = [(c, s.toastOf c)] := by
  have hone : (s.classes.filter fun r => r.InPublic table ∧ r.relkind = relkindTable) = [c] := by
    refine filter_eq_of_iff s.oids.nodup hc fun r hr => ?_
    rw [decide_eq_true_iff, inPublic_iff hc hpublic hr, and_iff_left_iff_imp]
    rintro rfl
    exact hkind
  have htoast : AtMostOne (fun r : ClassRow => r.oid = c.toastrelid) s.classes :=
    s.oids.atMostOne fun _ _ heq => heq
  rw [PgRows.tableQuery, hone]
  exact leftJoin_singleton (filter_eq_find? (s.oids.nodup.filter _) (by simpa using htoast))

theorem regclass_eq : s.regclass table = .ok c.oid := by
  have hfind : s.classes.find? (·.InPublic table) = some c :=
    find?_eq_of_iff hc fun r hr => by rw [decide_eq_true_iff, inPublic_iff hc hpublic hr]
  rw [PgRows.regclass, hfind]

theorem attsQuery_eq : s.attsQuery table = s.sortedAtts c := by
  have hjoin : join (fun a r => a.attrelid = r.oid ∧ r.InPublic table) s.atts s.classes =
      (s.atts.filter (·.attrelid = c.oid)).map (·, c) := by
    refine join_single fun a _ => ?_
    by_cases hrelid : a.attrelid = c.oid
    · rw [if_pos (decide_eq_true hrelid)]
      refine filter_eq_of_iff s.oids.nodup hc fun r hr => ?_
      rw [decide_eq_true_iff, inPublic_iff hc hpublic hr, and_iff_right_iff_imp]
      rintro rfl
      exact hrelid
    · rw [if_neg (by simpa using hrelid), List.filter_eq_nil_iff]
      intro r hr
      rw [decide_eq_true_iff, inPublic_iff hc hpublic hr]
      rintro ⟨hrelid', rfl⟩
      exact hrelid hrelid'
  have hfilter : (s.atts.filter (·.attrelid = c.oid)).filter (·.attnum > 0) = s.attsOf c := by
    rw [List.filter_filter, PgRows.attsOf]
    refine List.filter_congr fun a _ => ?_
    rw [← Bool.decide_and, decide_eq_decide]
    exact and_comm
  simp only [PgRows.attsQuery, hjoin, List.filter_map, Function.comp_def, hfilter, orderBy_map, List.map_map,
    List.map_id', sortedAtts]

end Public

/-! ## Primary keys -/

/-- The columns of an index, in the order of the attributes. -/
def indexAtts (s : PgCatalog) (i : PgIndexRow) : List AttRow :=
  s.atts.filter fun a => a.attrelid = i.indrelid ∧ a.attnum ∈ i.indkey

def indexAttnums (s : PgCatalog) (i : PgIndexRow) : List Int := (s.indexAtts i).map (·.attnum)

theorem pkQuery_of_none (h : s.primaryOf c = none) : s.pkQuery c.oid = [] := by
  have hnone : s.indexes.filter (fun i => i.indrelid = c.oid ∧ i.indisprimary) = [] := by
    rw [List.filter_eq_nil_iff]
    exact fun i hi => List.find?_eq_none.mp h i hi
  have hjoin := filter_join (fun i a => decide (a.attrelid = i.indrelid ∧ a.attnum ∈ i.indkey)) s.indexes s.atts
    (fun i => decide (i.indrelid = c.oid ∧ i.indisprimary = true))
  rw [hnone] at hjoin
  simp only [PgRows.pkQuery, hjoin]
  rfl

section Primary

variable {i : PgIndexRow} (h : s.primaryOf c = some i)
include h

theorem mem_indexAttnums {k : Int} : k ∈ s.indexAttnums i ↔ k ∈ i.indkey := by
  obtain ⟨hi, -, hprimary⟩ := primaryOf_eq_some.mp h
  simp only [indexAttnums, indexAtts, List.mem_map, List.mem_filter, decide_eq_true_eq]
  constructor
  · rintro ⟨a, ⟨-, -, ha⟩, rfl⟩
    exact ha
  · intro hk
    obtain ⟨-, a, ha, hrelid, rfl, -⟩ := s.indkey i hi hprimary k hk
    exact ⟨a, ⟨ha, hrelid, hk⟩, rfl⟩

omit h in
theorem indexAttnums_nodup (s : PgCatalog) (i : PgIndexRow) : (s.indexAttnums i).Nodup := by
  refine (s.attnums.filter _).of_determines fun a ha b hb heq => ?_
  have ha := (List.mem_filter.mp ha).2
  have hb := (List.mem_filter.mp hb).2
  simp only [decide_eq_true_eq] at ha hb
  rw [Prod.mk.injEq]
  exact ⟨ha.1.trans hb.1.symm, heq⟩

theorem pkQuery_eq :
    s.pkQuery c.oid = (orderBy (i.indkey.idxOf ·) (s.indexAttnums i)).map (s.columnName c.oid) := by
  obtain ⟨-, hrelid, -⟩ := primaryOf_eq_some.mp h
  have hone : s.indexes.filter (fun i => i.indrelid = c.oid ∧ i.indisprimary) = [i] := by
    have hunique : AtMostOne (fun i : PgIndexRow => i.indrelid = c.oid ∧ i.indisprimary = true) s.indexes :=
      s.primary_unique c.oid
    have hnodup : (s.indexes.filter fun i => i.indrelid = c.oid ∧ i.indisprimary).Nodup := by
      have heq : (s.indexes.filter fun i => i.indrelid = c.oid ∧ i.indisprimary) =
          (s.indexes.filter (·.indisprimary)).filter (·.indrelid = c.oid) := by
        rw [List.filter_filter]
        exact List.filter_congr fun i _ => by simp
      rw [heq]
      exact s.primaries.nodup.filter _
    have hfind : (s.indexes.find? fun i => i.indrelid = c.oid ∧ i.indisprimary) = some i := h
    rw [filter_eq_find? hnodup (by simpa using hunique), hfind]
    rfl
  have hjoin := filter_join (fun i a => decide (a.attrelid = i.indrelid ∧ a.attnum ∈ i.indkey)) s.indexes s.atts
    (fun i => decide (i.indrelid = c.oid ∧ i.indisprimary = true))
  have hnames : ∀ a ∈ orderBy (fun a => i.indkey.idxOf a.attnum) (s.indexAtts i),
      a.name = s.columnName c.oid a.attnum := by
    intro a ha
    obtain ⟨hmem, ha⟩ := List.mem_filter.mp (mem_orderBy.mp ha)
    rw [decide_eq_true_iff] at ha
    rw [← hrelid, ← ha.1, columnName_eq hmem]
  have hsingle : join (fun i a => decide (a.attrelid = i.indrelid ∧ a.attnum ∈ i.indkey)) [i] s.atts =
      (s.indexAtts i).map (i, ·) := List.flatMap_singleton ..
  rw [hone, hsingle] at hjoin
  simp only [PgRows.pkQuery, hjoin, orderBy_map, List.map_map, Function.comp_def, indexAttnums]
  exact List.map_congr_left hnames

/-- The two readings of the primary key agree if the index has no columns besides the key. -/
theorem pkQuery_eq_keyNames : s.pkQuery c.oid = s.keyNames c ↔ i.indkey ⊆ i.keyColumns := by
  obtain ⟨hi, -, hprimary⟩ := primaryOf_eq_some.mp h
  have hnodup := s.keyColumns i hi hprimary
  have hnames : s.keyNames c = i.keyColumns.map (s.columnName c.oid) := by
    rw [keyNames, h]
    rfl
  rw [pkQuery_eq h, hnames]
  constructor
  · intro heq
    have hlength : (s.indexAttnums i).length = i.keyColumns.length := by
      have hlength := congrArg List.length heq
      rwa [List.length_map, List.length_map, (orderBy_perm_self _ _).length_eq] at hlength
    have hsub : i.keyColumns ⊆ s.indexAttnums i :=
      fun k hk => (mem_indexAttnums h).mpr (List.mem_of_mem_take hk)
    have hperm := (List.subperm_of_subset hnodup hsub).perm_of_length_le hlength.le
    exact fun k hk => hperm.mem_iff.mpr ((mem_indexAttnums h).mpr hk)
  · intro hsub
    have hkey : KeyOn (i.indkey.idxOf ·) (s.indexAttnums i) := by
      rw [KeyOn, List.nodup_map_iff_inj_on (s.indexAttnums_nodup i)]
      exact fun k hk k' _ heq => (List.idxOf_inj ((mem_indexAttnums h).mp hk)).mp heq
    have hperm : i.keyColumns.Perm (s.indexAttnums i) := by
      rw [List.perm_ext_iff_of_nodup hnodup (s.indexAttnums_nodup i)]
      intro k
      rw [mem_indexAttnums h]
      exact ⟨fun hk => List.mem_of_mem_take hk, fun hk => hsub hk⟩
    rw [orderBy_eq hkey hperm (take_pairwise_idxOf hnodup)]

end Primary

/-- The two paths know the same alignments. -/
theorem alignText_sorted {a : AttRow} (ha : a ∈ s.sortedAtts c) :
    (alignText a.attalign).toOption = (attalignOf a.attalign).toOption := by
  have halign := s.attalign a (mem_sortedAtts.mp ha).1
  simp only [List.mem_cons, List.not_mem_nil, or_false] at halign
  rcases halign with h | h | h | h <;> rw [h] <;> rfl

variable (db) in
theorem sqlDescriptor_eq (hc : c ∈ s.classes) (hpublic : c.InPublic table) (hkind : c.relkind = relkindTable) :
    (s.sqlDescriptor db table).toOption =
      (s.columns c).map (s.descriptor db table c (s.pkQuery c.oid)) := by
  have hcolumns : (columnsOf alignText attType (s.sortedAtts c)).toOption = s.columns c := by
    exact columnsOf_congr (fun a ha => alignText_sorted ha) fun a _ => withContext_toOption _ _
  rw [← hcolumns]
  simp only [PgRows.sqlDescriptor, tableQuery_eq hc hpublic hkind, regclass_eq hc hpublic, attsQuery_eq hc hpublic,
    queryOpt, bind, Except.bind]
  cases columnsOf alignText attType (s.sortedAtts c) <;> rfl

/-! ## Agreement -/

/-- A live column of the table has a type that is not supported. -/
def Untyped (s : PgCatalog) (c : ClassRow) : Prop :=
  ∃ a ∈ s.atts, a.attrelid = c.oid ∧ 1 ≤ a.attnum ∧ ¬ a.isdropped ∧ (PgType.fromOid a.typid).toOption = none

/-- The primary key of the table includes no columns besides its key. -/
def NoIncluded (s : PgCatalog) (c : ClassRow) : Prop :=
  ∀ i ∈ s.indexes, i.indrelid = c.oid → i.indisprimary → i.indkey ⊆ i.keyColumns

/-- In whatever order the pages hold the rows, the table is described as SQL describes it. -/
def Describes (s : PgCatalog) (db : Oid) (table : String) : Prop :=
  ∀ rows : PgRows, rows.Reorders s.toPgRows →
    ((rows.catalog db).desc table).toOption = (s.sqlDescriptor db table).toOption

/-- The pages that hold the rows are read, and then the table is described as SQL describes it. -/
theorem Describes.of_pages {s : PgCatalog} {rows : PgRows} {src : PageSource} {clog : ClogSource}
    {mapped : MappedRels} {indexNode : Oid} {table : String} (h : s.Describes src.db table)
    (hscan : rows.Scanned src clog mapped indexNode) (hrows : rows.Reorders s.toPgRows) :
    ∃ catalog, PageCatalog.load src clog mapped = .ok catalog ∧
      (catalog.desc table).toOption = (s.sqlDescriptor src.db table).toOption :=
  ⟨rows.catalog src.db, PgRows.load_eq hscan, h rows hrows⟩

theorem columns_eq_none : s.columns c = none ↔ s.Untyped c := by
  have halign : ∀ a ∈ s.sortedAtts c, (attalignOf a.attalign).toOption.isSome := by
    intro a ha
    rw [← alignText_sorted ha, alignText]
    split_ifs <;> rfl
  rw [← Option.not_isSome_iff_eq_none, columns, columnsOf_isSome halign, Untyped]
  simp only [mem_sortedAtts, Bool.not_eq_true, and_imp, not_forall, exists_prop, Option.isSome_eq_false_iff,
    Option.isNone_iff_eq_none]

theorem pkQuery_eq_of_noIncluded (h : s.NoIncluded c) : s.pkQuery c.oid = s.keyNames c := by
  cases hprimary : s.primaryOf c with
  | none =>
    rw [pkQuery_of_none hprimary, keyNames, hprimary]
    rfl
  | some i =>
    obtain ⟨hi, hrelid, hiprimary⟩ := primaryOf_eq_some.mp hprimary
    exact (pkQuery_eq_keyNames hprimary).mpr (h i hi hrelid hiprimary)

theorem noIncluded_of_pkQuery (h : s.pkQuery c.oid = s.keyNames c) : s.NoIncluded c :=
  fun _ hi hrelid hprimary => (pkQuery_eq_keyNames (primaryOf_eq_some.mpr ⟨hi, hrelid, hprimary⟩)).mp h

variable (db) in
/-- The table that is described is the first one of its name. -/
theorem desc_eq (h : rows.Reorders s.toPgRows) (hc : c ∈ s.classes) (hnamed : c.Named table) :
    ∃ d ∈ s.classes, d.Named table ∧
      ((rows.catalog db).desc table).toOption = (s.columns d).map (s.descriptor db table d (s.keyNames d)) := by
  have hsome : (rows.classes.find? fun r => r.name = table ∧ r.relkind = relkindTable).isSome := by
    rw [List.find?_isSome]
    exact ⟨c, h.classes.mem_iff.mpr hc, decide_eq_true hnamed⟩
  obtain ⟨d, hfind⟩ := Option.isSome_iff_exists.mp hsome
  have hd : d ∈ s.classes := h.classes.mem_iff.mp (List.mem_of_find?_eq_some hfind)
  have hdnamed : d.Named table := by simpa [ClassRow.Named] using List.find?_some hfind
  refine ⟨d, hd, hdnamed, ?_⟩
  rw [← descOf_eq h hd hdnamed.2, PageCatalog.desc]
  simp only [PgRows.catalog, hfind]

variable (db) in
/-- Any table of the name can stand first. -/
theorem desc_front (hc : c ∈ s.classes) (hnamed : c.Named table) :
    ∃ rows : PgRows, rows.Reorders s.toPgRows ∧
      ((rows.catalog db).desc table).toOption = (s.columns c).map (s.descriptor db table c (s.keyNames c)) := by
  let rows : PgRows := { s.toPgRows with classes := c :: s.classes.erase c }
  have hrows : rows.Reorders s.toPgRows := ⟨(List.perm_cons_erase hc).symm, List.Perm.refl _, List.Perm.refl _⟩
  refine ⟨rows, hrows, ?_⟩
  rw [← descOf_eq hrows hc hnamed.2, PageCatalog.desc]
  have hfind : (rows.classes.find? fun r => r.name = table ∧ r.relkind = relkindTable) = some c :=
    List.find?_cons_of_pos (decide_eq_true hnamed)
  simp only [PgRows.catalog, hfind]

/-- Descriptors tell tables apart, and their keys. -/
theorem descriptor_inj {p : ClassRow} (hc : c ∈ s.classes) (hp : p ∈ s.classes) (htyped : ¬ s.Untyped c)
    {pk pk' : List String} (h : (s.columns c).map (s.descriptor db table c pk) =
      (s.columns p).map (s.descriptor db table p pk')) : c = p ∧ pk = pk' := by
  obtain ⟨columns, hcolumns⟩ := Option.ne_none_iff_exists'.mp (mt columns_eq_none.mp htyped)
  rw [hcolumns, Option.map_some] at h
  obtain ⟨columns', -, heq⟩ := Option.map_eq_some_iff.mp h.symm
  exact ⟨s.oids.inj hc hp (congrArg TableDesc.oid heq).symm, (congrArg TableDesc.pk heq).symm⟩

/-- The catalog describes a listed table as SQL does, in every order of its rows, exactly if no
table of that name can be described at all, or it is the only ordinary table of that name and its
primary key includes no further columns. -/
theorem describes_iff (s : PgCatalog) (db : Oid) (table : String) (h : table ∈ (s.catalog db).tableNames) :
    s.Describes db table ↔
      (∀ c ∈ s.classes, c.Named table → s.Untyped c) ∨
        ∀ c ∈ s.classes, c.Named table → c.nspOid = publicNamespaceOid ∧ s.NoIncluded c := by
  obtain ⟨p, hp, hpname⟩ := List.mem_map.mp h
  obtain ⟨hp, hpublic⟩ := List.mem_filter.mp hp
  rw [decide_eq_true_iff] at hpublic
  have hpin : p.InPublic table := ⟨hpname, hpublic.2⟩
  have hpnamed : p.Named table := ⟨hpname, hpublic.1⟩
  have hsql := sqlDescriptor_eq db hp hpin hpublic.1
  constructor
  · intro hdesc
    -- The table of the name that stands first is described like the public one.
    have hlike : ∀ c ∈ s.classes, c.Named table →
        (s.columns c).map (s.descriptor db table c (s.keyNames c)) =
          (s.columns p).map (s.descriptor db table p (s.pkQuery p.oid)) := by
      intro c hc hnamed
      obtain ⟨rows, hrows, hfront⟩ := desc_front db hc hnamed
      rw [← hfront, hdesc rows hrows, hsql]
    by_cases hnone : ∀ c ∈ s.classes, c.Named table → s.Untyped c
    · exact .inl hnone
    · refine .inr fun c hc hnamed => ?_
      push Not at hnone
      obtain ⟨c₁, hc₁, hnamed₁, htyped₁⟩ := hnone
      obtain ⟨rfl, -⟩ := descriptor_inj hc₁ hp htyped₁ (hlike c₁ hc₁ hnamed₁)
      obtain ⟨rfl, hkeys⟩ := descriptor_inj hp hc htyped₁ (hlike c hc hnamed).symm
      exact ⟨hpublic.2, noIncluded_of_pkQuery hkeys⟩
  · intro hcond rows hrows
    obtain ⟨d, hd, hdnamed, hdesc⟩ := desc_eq db hrows hp hpnamed
    rw [hdesc, hsql]
    rcases hcond with hnone | honly
    · rw [columns_eq_none.mpr (hnone d hd hdnamed), columns_eq_none.mpr (hnone p hp hpnamed)]
      rfl
    · obtain ⟨hdpublic, -⟩ := honly d hd hdnamed
      obtain rfl := (inPublic_iff hp hpin hd).mp ⟨hdnamed.1, hdpublic⟩
      rw [pkQuery_eq_of_noIncluded (honly d hd hdnamed).2]

end PgCatalog

namespace Sample

/-- A table with the key column `id` in a namespace. -/
def classRow (oid nspOid : Oid) : ClassRow := ⟨oid, "t", nspOid, oid, 0, relkindTable, 1⟩

def idColumn (oid : Oid) : AttRow := ⟨oid, "id", 23, 4, 1, 0x69, false, false⟩

def idIndex (oid : Oid) : PgIndexRow := ⟨oid, true, 1, [1]⟩

def publicTable : PgCatalog where
  classes := [classRow 16384 publicNamespaceOid]
  atts := [idColumn 16384]
  indexes := [idIndex 16384]
  oids := by decide
  oid_ne_zero := by decide
  names := by decide
  attnums := by decide
  natts := by decide
  attalign := by decide
  primaries := by decide
  keyColumns := by decide
  indkey := by decide

/-- `archive.t` stands on the pages before `public.t`. -/
def archived : PgCatalog where
  classes := [classRow 16500 16450, classRow 16384 publicNamespaceOid]
  atts := [idColumn 16500, idColumn 16384]
  indexes := [idIndex 16500, idIndex 16384]
  oids := by decide
  oid_ne_zero := by decide
  names := by decide
  attnums := by decide
  natts := by decide
  attalign := by decide
  primaries := by decide
  keyColumns := by decide
  indkey := by decide

end Sample

theorem PgCatalog.describes_iff_single : Sample.publicTable.Describes 5 "t" := by
  refine (describes_iff Sample.publicTable 5 "t" (by decide)).mpr (.inr ?_)
  simp only [Sample.publicTable, List.forall_mem_singleton, NoIncluded]
  exact fun _ => ⟨rfl, by decide⟩

/-- The listed table is `public.t`, and the descriptor is that of `archive.t`. In another order of
the rows it is not. -/
theorem archived_described :
    let s := Sample.archived
    let sorted : PgRows := { s.toPgRows with classes := s.classes.reverse }
    "t" ∈ (s.catalog 5).tableNames ∧ ¬ s.Describes 5 "t" ∧ sorted.Reorders s.toPgRows ∧
      ((s.sqlDescriptor 5 "t").toOption.map fun d => (d.oid, d.relNode)) = some (16384, 16384) ∧
      (((s.catalog 5).desc "t").toOption.map fun d => (d.oid, d.relNode)) = some (16500, 16500) ∧
      (((sorted.catalog 5).desc "t").toOption.map fun d => (d.oid, d.relNode)) = some (16384, 16384) := by
  refine ⟨by decide, fun h => ?_, ⟨List.reverse_perm _, List.Perm.refl _, List.Perm.refl _⟩, by decide, by decide,
    by decide⟩
  have hsame := h Sample.archived.toPgRows ⟨List.Perm.refl _, List.Perm.refl _, List.Perm.refl _⟩
  exact absurd (congrArg (Option.map TableDesc.oid) hsame) (by decide)

end Ltap
