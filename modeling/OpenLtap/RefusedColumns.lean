-- SUMMARY: What a schema change that Delta refuses leaves behind, for the sink and for the rows still in flight.
import OpenLtap.Detached
import OpenLtap.InFlight

/-!
# Refused columns

`evolve` points the Delta columns at their new places while it still checks their types, and
stops at the first column with another type. The table is detached with the sink as it is
then. Its transactions stay open, and their rows are written under these columns.
-/

namespace Ltap

/-- The column at its place in the live columns. -/
def DeltaCol.repointed (cols : List Col) (dc : DeltaCol) : DeltaCol :=
  { dc with live := cols.findIdx? (·.name = dc.col.name) }

/-- The live column of this name has another Delta type. -/
def DeltaCol.Retyped (cols : List Col) (dc : DeltaCol) : Prop :=
  ∃ c ∈ cols.find? (·.name = dc.col.name), deltaType c.ty ≠ deltaType dc.col.ty

theorem DeltaCol.repointed_eq_self {cols : List Col} {dc : DeltaCol} :
    dc.repointed cols = dc ↔ dc.live = cols.findIdx? (·.name = dc.col.name) := by
  obtain ⟨col, live⟩ := dc
  simp [repointed, eq_comm]

namespace DeltaSink

/-! ## The columns that are repointed -/

/-- No column before this one was retyped. -/
def ComesTo (cols : List Col) (dcs : List DeltaCol) (dc : DeltaCol) : Prop :=
  ∃ before after, dcs = before ++ dc :: after ∧ ∀ d ∈ before, ¬ d.Retyped cols

theorem comesTo_cons {cols : List Col} {dc : DeltaCol} {dcs : List DeltaCol} {d : DeltaCol} :
    ComesTo cols (dc :: dcs) d ↔ d = dc ∨ ¬ dc.Retyped cols ∧ ComesTo cols dcs d := by
  constructor
  · rintro ⟨before, after, heq, hbefore⟩
    cases before with
    | nil => exact .inl (List.cons.inj heq).1.symm
    | cons b before =>
      obtain ⟨rfl, rfl⟩ := List.cons.inj heq
      obtain ⟨hsame, hbefore⟩ := List.forall_mem_cons.mp hbefore
      exact .inr ⟨hsame, before, after, rfl, hbefore⟩
  · rintro (rfl | ⟨hsame, before, after, rfl, hbefore⟩)
    · exact ⟨[], dcs, rfl, by simp⟩
    · exact ⟨dc :: before, after, rfl, List.forall_mem_cons.mpr ⟨hsame, hbefore⟩⟩

theorem repoint_cons (cols : List Col) (dc : DeltaCol) (dcs : List DeltaCol) :
    (dc.Retyped cols ∧ repoint cols (dc :: dcs) = (dc.repointed cols :: dcs, false)) ∨
      (¬ dc.Retyped cols ∧
        repoint cols (dc :: dcs) = (dc.repointed cols :: (repoint cols dcs).1, (repoint cols dcs).2)) := by
  have hfind : (cols.findIdx? (·.name = dc.col.name)).bind (cols[·]?) = cols.find? (·.name = dc.col.name) :=
    List.find?_eq_bind_findIdx?_getElem?.symm
  unfold DeltaCol.Retyped
  simp only [repoint, hfind]
  cases cols.find? (·.name = dc.col.name) with
  | none => exact .inr ⟨by simp, rfl⟩
  | some c =>
    by_cases htype : deltaType c.ty = deltaType dc.col.ty
    · refine .inr ⟨by simp [htype], ?_⟩
      simp [htype, DeltaCol.repointed]
    · refine .inl ⟨⟨c, rfl, htype⟩, ?_⟩
      simp [htype, DeltaCol.repointed]

/-- Every column that `evolve` comes to, the retyped one included, is at its place already. -/
def InPlace (s : DeltaSink) (cols : List Col) : Prop :=
  ∀ dc, ComesTo cols s.deltaCols dc → dc.live = cols.findIdx? (·.name = dc.col.name)

theorem repoint_eq_self {cols : List Col} {dcs : List DeltaCol} :
    (repoint cols dcs).1 = dcs ↔
      ∀ dc, ComesTo cols dcs dc → dc.live = cols.findIdx? (·.name = dc.col.name) := by
  induction dcs with
  | nil =>
    refine iff_of_true rfl ?_
    rintro dc ⟨before, after, heq, -⟩
    simp at heq
  | cons dc dcs ih =>
    simp only [comesTo_cons, or_imp, forall_and, forall_eq, ← @DeltaCol.repointed_eq_self cols dc]
    rcases repoint_cons cols dc dcs with ⟨hretyped, heq⟩ | ⟨hsame, heq⟩
    · -- The walk stops here, and the columns behind stay.
      simp [heq, hretyped]
    · simp [heq, hsame, ih]

/-- A refusal touches the live indices only. -/
theorem evolve_refused {s : DeltaSink} {cols : List Col} (h : (s.evolve cols).2 = false) :
    (s.evolve cols).1 = { s with deltaCols := (repoint cols s.deltaCols).1 } := by
  simp only [evolve] at h ⊢
  split at h
  · cases h
  · rename_i hrefused
    rw [if_neg hrefused]

/-- The sink is the same but for what it stores. -/
structure SameColumns (s s' : DeltaSink) : Prop where
  deltaCols : s'.deltaCols = s.deltaCols
  arrowSchema : s'.arrowSchema = s.arrowSchema
  schemaDirty : s'.schemaDirty = s.schemaDirty

theorem sameColumns_of_refused {s : DeltaSink} {cols : List Col} (h : (s.evolve cols).2 = false) :
    SameColumns s (s.evolve cols).1 ↔ s.InPlace cols := by
  rw [evolve_refused h]
  constructor
  · intro hsame
    exact repoint_eq_self.mp hsame.deltaCols
  · intro hplace
    exact ⟨repoint_eq_self.mpr hplace, rfl, rfl⟩

end DeltaSink

/-! ## A detached table keeps its columns -/

namespace Table

variable {t : Table} {fresh : TableDesc}

/-- The table that a refusal leaves. -/
def refused (t : Table) (cols : List Col) : Table := { t with sink := (t.sink.evolve cols).1 }.detach

theorem remapStep_refused (dec : TupleDecoder) {env : PgEnv} (now : Instant) (ti : Nat) (ddlLsn restart : Lsn)
    (hnode : t.desc.relNode ≠ 0) (hfresh : env.discoverByOid t.desc.oid = some fresh)
    (hcols : t.colsChanged fresh = true) (h : (t.sink.evolve fresh.cols).2 = false) :
    (t.remapStep dec env now ti ddlLsn restart).table = t.refused fresh.cols := by
  have hadopt : t.adopt fresh = ({ t with sink := (t.sink.evolve fresh.cols).1 }, false) := by
    rw [adopt, if_pos hcols]
    simp only [h, Bool.false_eq_true, if_false]
  simp only [remapStep, if_neg hnode, hfresh, hcols, hadopt, not_true, and_false, if_false, Bool.false_eq_true,
    not_false_eq_true, if_true]
  rfl

end Table

namespace Engine

variable {dec : TupleDecoder} {i : Nat} {e : Engine} {c : TableDesc × List DeltaCol}

theorem remapCheck_detached (h : e.TableIs i fun t => t.columns = c) (hnode : c.1.relNode = 0) {env : PgEnv}
    {cfg : Config} {now : Instant} {ddlLsn persisted : Lsn} {t' : Table}
    (ht' : (e.remapCheck dec env cfg now ddlLsn persisted).1.tables[i]? = some t') : t'.columns = c := by
  generalize hremap : e.remapCheck dec env cfg now ddlLsn persisted = res at ht'
  obtain ⟨e', persisted', ok⟩ := res
  obtain ⟨e₁, flushed, hflush, hcase⟩ := remapCheck_cases hremap
  have hi : i < e₁.tables.length := by
    have hlen := e.flushAll_length env.appendOk now persisted
    rw [hflush] at hlen
    exact hlen ▸ h.1
  have hflushed : ∀ u, e₁.tables[i]? = some u → u.columns = c := by
    intro u hu
    have hu' : (e.flushAll env.appendOk now persisted).1.tables[i]? = some u := by rwa [hflush]
    obtain ⟨t, ht, hdesc, hcols⟩ := flushAll_shape hu'
    exact (Prod.ext hdesc hcols : u.columns = t.columns).trans (h.2 t ht)
  -- The catalog loop passes over the table, and new tables are attached behind it.
  have hget : ∃ u, e₁.tables[i]? = some u ∧ u.columns = c :=
    ⟨_, List.getElem?_eq_getElem hi, hflushed _ (List.getElem?_eq_getElem hi)⟩
  obtain ⟨u, hu, hcols⟩ := hget
  have hstep := remapTables_detached dec env now ddlLsn e₁.restartLsn hu
    ((congrArg (·.1.relNode) hcols).trans hnode)
  rcases hcase with ⟨-, -, rfl⟩ | ⟨-, nodes, tables, changed, done, htables, hcase⟩
  · exact hflushed t' ht'
  rw [htables] at hstep
  rcases hcase with ⟨-, -, rfl⟩ | ⟨-, -, e₂, rfl, hcase⟩
  · obtain rfl := Option.some.inj (hstep.symm.trans ht')
    exact hcols
  · obtain ⟨new, hnew, -⟩ := attachNew_tables dec env cfg { e₁ with catalogRels := nodes, tables }
    have hattached : (attachNew dec env cfg { e₁ with catalogRels := nodes, tables }).tables[i]? = some u := by
      rw [hnew, List.getElem?_append_left (List.getElem?_eq_some_iff.mp hstep).1]
      exact hstep
    have hsame : t' = u := by
      rcases hcase with rfl | rfl <;> exact Option.some.inj (ht'.symm.trans hattached)
    rw [hsame, hcols]

/-- No move changes the columns of a detached table. -/
theorem move_detached (h : e.TableIs i fun t => t.columns = c) (hnode : c.1.relNode = 0) (m : Move) :
    (e.move dec m).1.TableIs i fun t => t.columns = c := by
  refine ⟨h.1.trans_le (e.move_length dec m), fun t' ht' => ?_⟩
  by_cases hremap : m.IsRemap
  · cases m with
    | remap env cfg now ddlLsn persisted =>
      have h' : TableIs i (fun t => t.columns = c) { e with remapAt := none } := h
      exact remapCheck_detached h' hnode ht'
    | record | applied | flush | compact | forget | resnapshot | stop => cases hremap
  · obtain ⟨t, ht, hcols⟩ := move_columns hremap ht'
    exact hcols.trans (h.2 t ht)

variable (dec) in
theorem moves_detached {t : Table} (ht : e.tables[i]? = some t) (hnode : t.desc.relNode = 0) (ms : List Move) :
    ∃ t', (e.moves dec ms).1.tables[i]? = some t' ∧ t'.columns = t.columns := by
  have hstart : e.TableIs i fun u => u.columns = t.columns :=
    ⟨(List.getElem?_eq_some_iff.mp ht).1, fun u hu => Option.some.inj (hu.symm.trans ht) ▸ rfl⟩
  obtain ⟨hlt, hcols⟩ : (e.moves dec ms).1.TableIs i fun u => u.columns = t.columns :=
    moves_keep (fun (e : Engine) (m : Move) (h : e.TableIs i fun u => u.columns = t.columns) _ =>
      move_detached h hnode m) (along_true e ms) hstart
  exact ⟨_, List.getElem?_eq_getElem hlt, hcols _ (List.getElem?_eq_getElem hlt)⟩

end Engine

/-! ## Rows in flight -/

namespace DeltaSink

/-- Whatever the engine does after the refusal, the table writes its rows as the sink did before,
and rows that were decoded under matching columns column by column. -/
def RowsKept (s : DeltaSink) (cols : List Col) : Prop :=
  ∀ (dec : TupleDecoder) (e : Engine) (i : Nat) (t : Table), t.sink = s → e.tables[i]? = some (t.refused cols) →
    ∀ ms : List Engine.Move, ∃ t', (e.moves dec ms).1.tables[i]? = some t' ∧
      (∀ rows, t'.sink.makeBatch rows = s.makeBatch rows) ∧
      ∀ (desc : TableDesc) (row : Row), s.Matches desc.cols → row.Typed desc.cols → t'.sink.stored desc row = row

theorem rowsKept_of_sameColumns {s : DeltaSink} {cols : List Col} (h : SameColumns s (s.evolve cols).1) :
    s.RowsKept cols := by
  rintro dec e i t rfl ht ms
  obtain ⟨t', ht', hcols⟩ := Engine.moves_detached dec ht rfl ms
  have hsame : t'.sink.deltaCols = t.sink.deltaCols := (congrArg Prod.snd hcols).trans h.deltaCols
  refine ⟨t', ht', fun rows => ?_, fun desc row hs hrow => ?_⟩
  · rw [makeBatch, makeBatch, hsame]
  · have hstored : t'.sink.stored desc row = t.sink.stored desc row := by
      simp only [stored, hsame]
    rw [hstored, DeltaSink.stored_eq hs hrow]

/-- A refused column list leaves the sink as it was, and with it the rows in flight, exactly if
every column up to the first retyped one is at its place in the list already. -/
theorem evolve_refused_iff (s : DeltaSink) (cols : List Col) (h : (s.evolve cols).2 = false) :
    SameColumns s (s.evolve cols).1 ∧ s.RowsKept cols ↔ s.InPlace cols := by
  rw [← sameColumns_of_refused h]
  exact and_iff_left_of_imp rowsKept_of_sameColumns

/-- `alter table t alter column id type text`. -/
theorem evolve_refused_first :
    SameColumns (Sample.sink Sample.wideDesc)
        ((Sample.sink Sample.wideDesc).evolve [⟨"id", .text⟩, ⟨"n", .int4⟩]).1 ∧
      (Sample.sink Sample.wideDesc).RowsKept [⟨"id", .text⟩, ⟨"n", .int4⟩] := by
  refine (evolve_refused_iff _ _ (by decide)).mpr fun dc hdc => ?_
  rcases comesTo_cons.mp hdc with rfl | ⟨hsame, -⟩
  · rfl
  · exact absurd ⟨_, rfl, by decide⟩ hsame

end DeltaSink

namespace Sample

/-- `alter table t drop column id, alter column n type text`. -/
def retypedDesc : TableDesc :=
  { desc "t" 16384 with cols := [⟨"n", .text⟩], phys := [.dropped 4 4, .live ⟨"n", .text⟩] }

/-- The catalog is checked while transaction 7 is open, and then the transaction commits. -/
def refusedRun : List Engine.Move :=
  [.remap (env [retypedDesc] 200) cfg 0 20 0, .record 0 30 (.commit 7 []), .flush (env [retypedDesc] 200) 0 0]

end Sample

/-- The row (1, 7) is written with NULL for `id` and 1 for `n`. -/
theorem refused_row_shifted :
    let s := Sample.sink Sample.wideDesc
    (s.evolve Sample.retypedDesc.cols).2 = false ∧ (s.evolve Sample.retypedDesc.cols).1.deltaCols ≠ s.deltaCols ∧
      ∃ t t' b r, Sample.wideInserted.tables[0]? = some t ∧ t.sink = s ∧
        ((Sample.wideInserted.moves .reject Sample.refusedRun).1.tables[0]? = some t' ∧ t'.desc.relNode = 0 ∧
          t'.sink.table.files = [b] ∧ b.rows = [r] ∧ r.row = [some (.i32 1), some (.i32 7)]) ∧
        b.cell r "id" = none ∧ b.cell r "n" = some (.i32 1) := by
  refine ⟨by decide, by decide, _, _, _, _, rfl, rfl, ⟨rfl, rfl, rfl, rfl, rfl⟩, rfl, rfl⟩

end Ltap
