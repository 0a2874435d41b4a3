-- SUMMARY: The columns of a sink over any sequence of schema evolutions.
import OpenLtap.InFlight
import OpenLtap.Wal.InsertPaths

/-!
# Sequences of schema evolutions

Columns are dropped, added again, reordered and mixed with new ones. Over all of it the
names of the Delta columns stay distinct, the list only grows at its end, and each column
points at the live one of its name.
-/

namespace Ltap

namespace DeltaSink

/-- The sink `s'` of the column list `cols'` comes from `s` by successful changes of the
column list, each to distinct names. -/
inductive Evolutions (s : DeltaSink) (cols : List Col) : DeltaSink → List Col → Prop where
  | refl : Evolutions s cols s cols
  | step {s' s'' : DeltaSink} {cols' fresh : List Col} (run : Evolutions s cols s' cols')
      (names : (fresh.map (·.name)).Nodup) (evolved : s'.evolve fresh = (s'', true)) :
      Evolutions s cols s'' fresh

/-- The three parallel structures of a sink agree with each other and with the column list. -/
structure Consistent (s : DeltaSink) (cols : List Col) : Prop where
  names : (s.deltaCols.map (·.col.name)).Nodup
  live : ∀ dc ∈ s.deltaCols, ∀ i, dc.live = some i ↔ (cols[i]?).map (·.name) = some dc.col.name
  type : ∀ dc ∈ s.deltaCols, ∀ i c, dc.live = some i → cols[i]? = some c → deltaType c.ty = deltaType dc.col.ty
  knows : s.Knows cols
  arrow : s.arrowSchema = s.deltaCols.map (fun dc => (dc.col.name, arrowType dc.col.ty)) ++
    [("_ltap_lsn", .int64), ("_ltap_seq", .int64), ("_ltap_deleted", .boolean), ("_ltap_ctid", .int64)]

/-! ## Adding columns -/

theorem addColumns_extends (li : Nat) (cols : List Col) (dcs : List DeltaCol) : dcs <+: addColumns li cols dcs := by
  induction cols generalizing li dcs with
  | nil => exact List.prefix_rfl
  | cons c cols ih =>
    simp only [addColumns]
    split
    · exact ih (li + 1) dcs
    · exact (List.prefix_append _ _).trans (ih (li + 1) _)

theorem addColumns_nodup {li : Nat} {cols : List Col} {dcs : List DeltaCol} (h : (dcs.map (·.col.name)).Nodup) :
    ((addColumns li cols dcs).map (·.col.name)).Nodup := by
  induction cols generalizing li dcs with
  | nil => exact h
  | cons c cols ih =>
    simp only [addColumns]
    -- A column is added only under a name that none has.
    split
    · exact ih h
    · rename_i hnew
      refine ih ?_
      rw [List.map_append, List.map_singleton]
      refine List.nodup_append'.mpr ⟨h, List.nodup_singleton _, ?_⟩
      rw [List.disjoint_singleton]
      intro hmem
      obtain ⟨dc, hdc, hname⟩ := List.mem_map.mp hmem
      exact hnew (List.any_eq_true.mpr ⟨dc, hdc, by simpa using hname⟩)

/-- Of the existing columns those of the log itself are left out. -/
theorem matchColumns_names {cols fields : List Col} {dcs : List DeltaCol}
    (h : matchColumns cols fields = .ok dcs) : (dcs.map (·.col.name)).Sublist (fields.map (·.name)) := by
  induction fields generalizing dcs with
  | nil =>
    cases h
    exact List.nil_sublist _
  | cons field fields ih =>
    simp only [matchColumns] at h
    split at h
    · exact (ih h).trans (List.sublist_cons_self _ _)
    · cases hrest : matchColumns cols fields with
      | error msg =>
        rw [hrest] at h
        split at h
        · split at h <;> cases h
        · cases h
      | ok rest =>
        rw [hrest] at h
        have hcons : ∀ dc : DeltaCol, dc.col.name = field.name →
            ((dc :: rest).map (·.col.name)).Sublist ((field :: fields).map (·.name)) := by
          intro dc hname
          rw [List.map_cons, List.map_cons, hname]
          exact (ih hrest).cons_cons _
        split at h
        · split at h
          · cases h
          · obtain rfl := Except.ok.inj h
            exact hcons _ rfl
        · obtain rfl := Except.ok.inj h
          exact hcons _ rfl

/-! ## One step -/

/-- A column that points by name points at exactly the position of its name. -/
theorem live_iff {cols : List Col} {dc : DeltaCol} (hnodup : (cols.map (·.name)).Nodup) (h : dc.Points cols) (i : Nat) :
    dc.live = some i ↔ (cols[i]?).map (·.name) = some dc.col.name := by
  rw [h.live]
  constructor
  · intro hidx
    obtain ⟨hlt, hname, -⟩ := List.findIdx?_eq_some_iff_getElem.mp hidx
    rw [List.getElem?_eq_getElem hlt, Option.map_some, Option.some.injEq]
    simpa using hname
  · intro hname
    obtain ⟨c, hc, hname⟩ := Option.map_eq_some_iff.mp hname
    rw [← hname]
    exact findIdx?_name hnodup hc

theorem consistent_of_points {s : DeltaSink} {cols : List Col} (hnodup : (cols.map (·.name)).Nodup)
    (hnames : (s.deltaCols.map (·.col.name)).Nodup) (hpoints : ∀ dc ∈ s.deltaCols, dc.Points cols)
    (hknows : s.Knows cols) (harrow : s.arrowSchema = buildArrowSchema s.deltaCols) : s.Consistent cols where
  names := hnames
  live := fun dc hdc => live_iff hnodup (hpoints dc hdc)
  type := fun dc hdc i c hlive hc => (hpoints dc hdc).type c (by rw [hlive]; exact hc)
  knows := hknows
  arrow := harrow

theorem openOrCreate_consistent {uri : String} {existing : Option DeltaTable} {desc : TableDesc} {s : DeltaSink}
    (hexisting : ∀ t ∈ existing, (t.cols.map (·.name)).Nodup) (hdesc : desc.WellFormed)
    (h : openOrCreate uri existing desc = .ok s) : s.Consistent desc.cols := by
  obtain ⟨hpoints, hknows⟩ := openOrCreate_columns hdesc h
  simp only [openOrCreate, bind, Except.bind] at h
  split at h
  · cases h
  · rename_i known hknown
    cases h
    refine consistent_of_points hdesc (addColumns_nodup ?_) hpoints hknows rfl
    refine (matchColumns_names hknown).nodup ?_
    cases existing with
    | none => exact hdesc
    | some t => exact hexisting t rfl

/-- A successful change of the column list keeps the sink consistent and the columns it had. -/
theorem evolve_consistent {s s' : DeltaSink} {cols fresh : List Col} (hs : s.Consistent cols)
    (hfresh : (fresh.map (·.name)).Nodup) (h : s.evolve fresh = (s', true)) :
    s'.Consistent fresh ∧ s.deltaCols.map (·.col) <+: s'.deltaCols.map (·.col) := by
  obtain ⟨hpoints, hknows, -, -⟩ := evolve_columns hfresh h
  simp only [evolve] at h
  split at h
  -- Pointing the columns anew leaves their names and types; only then are new ones added.
  · obtain rfl := (Prod.ext_iff.mp h).1
    have hcols := repoint_col fresh s.deltaCols
    constructor
    · have hnames : (repoint fresh s.deltaCols).1.map (·.col.name) = s.deltaCols.map (·.col.name) := by
        simpa only [List.map_map, Function.comp_def] using congrArg (List.map Col.name) hcols
      exact consistent_of_points hfresh (addColumns_nodup (hnames ▸ hs.names)) hpoints hknows rfl
    · rw [← hcols]
      exact (addColumns_extends 0 fresh _).map _
  · cases h

/-! ## Sequences -/

theorem Evolutions.consistent {s s' : DeltaSink} {cols cols' : List Col} (h : Evolutions s cols s' cols')
    (hs : s.Consistent cols) : s'.Consistent cols' ∧ s.deltaCols.map (·.col) <+: s'.deltaCols.map (·.col) := by
  induction h with
  | refl => exact ⟨hs, List.prefix_rfl⟩
  | step _ hnames hevolved ih =>
    obtain ⟨hconsistent, hextends⟩ := evolve_consistent ih.1 hnames hevolved
    exact ⟨hconsistent, ih.2.trans hextends⟩

section Batch

variable {s : DeltaSink} {cols : List Col} (h : s.Consistent cols)

include h

/-- A column is found by its name. -/
theorem Consistent.find?_eq {dc : DeltaCol} (hdc : dc ∈ s.deltaCols) :
    s.deltaCols.find? (·.col.name = dc.col.name) = some dc := by
  have hnames := h.names
  generalize s.deltaCols = dcs at hdc hnames
  induction dcs with
  | nil => cases hdc
  | cons d dcs ih =>
    rw [List.map_cons, List.nodup_cons] at hnames
    rcases List.mem_cons.mp hdc with rfl | hmem
    · simp
    · have hne : d.col.name ≠ dc.col.name := fun heq => hnames.1 (heq ▸ List.mem_map_of_mem hmem)
      rw [List.find?_cons_of_neg (by simpa using hne)]
      exact ih hmem hnames.2

/-- What `make_batch` writes for a row of the current columns. -/
theorem Consistent.makeBatch_cell {rows : List EmitRow} {e : EmitRow} (hrow : e.row.Typed cols) :
    (∀ (i : Nat) (c : Col), cols[i]? = some c → (s.makeBatch rows).cell e c.name = (e.row[i]?).join) ∧
      ∀ dc ∈ s.deltaCols, (∀ c ∈ cols, c.name ≠ dc.col.name) → (s.makeBatch rows).cell e dc.col.name = none := by
  have hcell : ∀ dc ∈ s.deltaCols, (s.makeBatch rows).cell e dc.col.name = dc.cell e.row := by
    intro dc hdc
    rw [RecordBatch.cell, makeBatch, h.find?_eq hdc, Option.bind_some]
  constructor
  · intro i c hc
    obtain ⟨dc, hdc, hname⟩ := h.knows c (List.mem_of_getElem? hc)
    -- The Delta column of the name points at the column of the name, so it takes this value.
    have hlive : dc.live = some i := (h.live dc hdc i).mpr (by rw [hc, hname]; rfl)
    have hi : i < e.row.length := by
      rw [hrow.1]
      exact (List.getElem?_eq_some_iff.mp hc).1
    rw [← hname, hcell dc hdc, DeltaCol.cell, hlive, Option.bind_some, List.getElem?_eq_getElem hi, Option.join_some]
    cases hv : e.row[i] with
    | none => rfl
    | some v =>
      have haccepts := hrow.2 i c v hc (by rw [List.getElem?_eq_getElem hi, hv])
      rw [Option.filter_some, PgType.accepts_congr (h.type dc hdc i c hlive hc).symm, if_pos haccepts]
  · intro dc hdc hgone
    -- Without a column of its name it points nowhere.
    have hnone : dc.live = none := by
      cases hlive : dc.live with
      | none => rfl
      | some i =>
        obtain ⟨c, hc, hname⟩ := Option.map_eq_some_iff.mp ((h.live dc hdc i).mp hlive)
        exact absurd hname (hgone c (List.mem_of_getElem? hc))
    rw [hcell dc hdc, DeltaCol.cell, hnone]
    rfl

end Batch

/-- After any sequence of successful evolutions from the opening on, the sink is consistent
with the current columns, has only grown at the end since any point of the sequence, and
writes rows of the current columns under their names. -/
theorem evolutions_consistent {uri : String} {existing : Option DeltaTable} {desc : TableDesc}
    {s₀ s₁ s : DeltaSink} {cols₁ cols : List Col} (hexisting : ∀ t ∈ existing, (t.cols.map (·.name)).Nodup)
    (hdesc : (desc.cols.map (·.name)).Nodup) (hopen : openOrCreate uri existing desc = .ok s₀)
    (hrun₁ : Evolutions s₀ desc.cols s₁ cols₁) (hrun : Evolutions s₁ cols₁ s cols) :
    s.Consistent cols ∧ s₁.deltaCols.map (·.col) <+: s.deltaCols.map (·.col) ∧
      ∀ (rows : List EmitRow) (e : EmitRow), e.row.Typed cols →
        (∀ (i : Nat) (c : Col), cols[i]? = some c → (s.makeBatch rows).cell e c.name = (e.row[i]?).join) ∧
        ∀ dc ∈ s.deltaCols, (∀ c ∈ cols, c.name ≠ dc.col.name) →
          (s.makeBatch rows).cell e dc.col.name = none := by
  have hconsistent₁ := (hrun₁.consistent (openOrCreate_consistent hexisting hdesc hopen)).1
  obtain ⟨hconsistent, hextends⟩ := hrun.consistent hconsistent₁
  exact ⟨hconsistent, hextends, fun rows e hrow => hconsistent.makeBatch_cell hrow⟩

/-- A Delta table of an integer and a text column. -/
def sampleTable : DeltaTable := { cols := [⟨"x", .int4⟩, ⟨"y", .text⟩], files := [], watermarks := ⟨none, none, none⟩ }

/-- The integer column is kept, the text one is dropped and a boolean one comes in front. -/
theorem evolutions_consistent_sample :
    ∃ s₀ s : DeltaSink,
      openOrCreate "t" (some sampleTable) .oneInt = .ok s₀ ∧
      s₀.evolve [⟨"z", .bool⟩, ⟨"x", .int4⟩] = (s, true) ∧ s.Consistent [⟨"z", .bool⟩, ⟨"x", .int4⟩] ∧
      s.deltaCols.map (·.live) = [some 1, none, some 0] := by
  refine ⟨_, _, rfl, rfl, ?_, by decide⟩
  have hopening : ∀ t ∈ some sampleTable, (t.cols.map (·.name)).Nodup := by
    intro t ht
    obtain rfl := Option.mem_some_iff.mp ht
    decide
  exact (@evolutions_consistent "t" (some sampleTable) .oneInt _ _ _ _ _ hopening (by decide) rfl .refl
    (.step .refl (by decide) rfl)).1

end DeltaSink

end Ltap
