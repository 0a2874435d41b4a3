-- SUMMARY: Catalog steps that find new columns with fast defaults.
import OpenLtap.InFlight

/-!
# Fast defaults

`ADD COLUMN ... DEFAULT` does not rewrite the rows that are there: from the log they read
as NULL in the new column, and only a re-snapshot gives them the default. A catalog check
compares the numbers of columns. One statement that drops a column and one that adds a
column with a default, met by the same check, leave the number as it was.
-/

namespace Ltap

namespace DeltaSink

variable {s : DeltaSink} {cols : List Col}

/-- The column that Delta knows under the name of one of its columns has another type. -/
def Refuses (s : DeltaSink) (cols : List Col) : Prop :=
  ∃ dc ∈ s.deltaCols, ∃ c ∈ cols.find? (·.name = dc.col.name), deltaType c.ty ≠ deltaType dc.col.ty

theorem repoint_refuses (cols : List Col) (dcs : List DeltaCol) :
    (repoint cols dcs).2 = false ↔
      ∃ dc ∈ dcs, ∃ c ∈ cols.find? (·.name = dc.col.name), deltaType c.ty ≠ deltaType dc.col.ty := by
  induction dcs with
  | nil => simp [repoint]
  | cons dc dcs ih =>
    have hfind : (cols.findIdx? (·.name = dc.col.name)).bind (cols[·]?) = cols.find? (·.name = dc.col.name) :=
      List.find?_eq_bind_findIdx?_getElem?.symm
    simp only [repoint, hfind, List.exists_mem_cons_iff, ← ih]
    cases hc : cols.find? (·.name = dc.col.name) with
    | none => simp
    | some c =>
      -- The first column with another type stops the walk.
      by_cases htype : deltaType c.ty = deltaType dc.col.ty
      · simp [htype]
      · simp [htype]

theorem evolve_refuses : (s.evolve cols).2 = false ↔ s.Refuses cols := by
  rw [Refuses, ← repoint_refuses]
  simp only [evolve]
  split
  · rename_i hok
    simp [hok]
  · rename_i hrefused
    simp [hrefused]

end DeltaSink

namespace Table

variable {dec : TupleDecoder} {t : Table} {env : PgEnv} {now : Instant} {ti : Nat} {ddlLsn restart : Lsn}
  {fresh : TableDesc} {r : Remapped}

/-- `remap_table` is called on the table under the fresh descriptor, and `r` is what it leaves. -/
def RemapCalled (dec : TupleDecoder) (t : Table) (env : PgEnv) (now : Instant) (ti : Nat) (ddlLsn restart : Lsn)
    (fresh : TableDesc) (r : Remapped) : Prop :=
  ∃ t₁ t₂ done, t.adopt fresh = (t₁, true) ∧
    t₁.remapTable dec now (t.remapCheckArgs fresh ddlLsn restart) (env.snapshot fresh) (env.appendOk ti) =
      (t₂, done) ∧
    r = ⟨if done then { t₂ with needsResnapshot := false } else t₂, true, done⟩

/-- A call that goes through adds a file to the Delta table. -/
theorem remapTable_files {t' : Table} {args : RemapArgs} {snap : Option Snapshot} {ok : AppendSite → Bool}
    (h : t.remapTable dec now args snap ok = (t', true)) :
    t.sink.table.files.length < t'.sink.table.files.length := by
  simp only [remapTable] at h
  split at h
  · cases h
  · cases snap with
    | none => cases h
    | some s =>
      simp only at h
      split at h
      · obtain rfl := (Prod.ext_iff.mp h).1
        split
        · simp [appendSnapshot, takeSnapshot, drainMirror, DeltaSink.append]
        · simp [appendSnapshot, takeSnapshot, appendTombstones, drainMirror, DeltaSink.append]
      · cases h

theorem colsChanged_of_new (hnew : ∃ c ∈ fresh.cols, c.name ∉ t.desc.cols.map (·.name)) :
    t.colsChanged fresh = true := by
  obtain ⟨c, hc, hname⟩ := hnew
  refine decide_eq_true fun heq => hname ?_
  exact List.mem_map_of_mem (heq ▸ hc)

/-- With columns that changed, the table is adopted exactly when Delta can follow. -/
theorem adopt_refuses (hcols : t.colsChanged fresh = true) :
    (t.adopt fresh).2 = false ↔ t.sink.Refuses fresh.cols := by
  rw [← DeltaSink.evolve_refuses]
  simp only [adopt, if_pos hcols]
  split
  · rename_i hok
    simp [hok]
  · rename_i hrefused
    simp [hrefused]

/-- One step on a table that gained a column with a fast default. -/
theorem remapStep_fastDefaults (hfresh : env.discoverByOid t.desc.oid = some fresh)
    (hnode : fresh.relNode = t.desc.relNode) (hnew : ∃ c ∈ fresh.cols, c.name ∉ t.desc.cols.map (·.name))
    (hdefaults : fresh.hasFastDefaults = true) :
    ((t.remapStep dec env now ti ddlLsn restart).table.desc.relNode = 0 ∨
        t.RemapCalled dec env now ti ddlLsn restart fresh (t.remapStep dec env now ti ddlLsn restart)) ↔
      t.desc.relNode = 0 ∨ t.needsResnapshot = true ∨ t.desc.cols.length < fresh.cols.length ∨
        t.sink.Refuses fresh.cols := by
  have hcols := colsChanged_of_new hnew
  have hwants : t.wantsResnapshot fresh = true ↔
      t.needsResnapshot = true ∨ t.desc.cols.length < fresh.cols.length := by
    simp [wantsResnapshot, hcols, hdefaults]
  have hstep := t.remapStep_stepped dec env now ti ddlLsn restart
  -- The step ends in one of these ways; the number of columns decides between the last three.
  generalize t.remapStep dec env now ti ddlLsn restart = r at hstep ⊢
  cases hstep with
  | detached hzero => exact ⟨fun _ => .inl hzero, fun _ => .inl hzero⟩
  | vanished _ hgone =>
    rw [hfresh] at hgone
    cases hgone
  | quiet fresh' _ hfresh' _ _ hsame =>
    obtain rfl := Option.some.inj (hfresh.symm.trans hfresh')
    rw [hcols] at hsame
    cases hsame
  | refused fresh' t₁ _ hfresh' hadopt =>
    obtain rfl := Option.some.inj (hfresh.symm.trans hfresh')
    have hrefuses := (adopt_refuses hcols).mp (by rw [hadopt])
    exact ⟨fun _ => .inr (.inr (.inr hrefuses)), fun _ => .inl rfl⟩
  | evolved fresh' t₁ hattached hfresh' _ hquiet _ hadopt =>
    obtain rfl := Option.some.inj (hfresh.symm.trans hfresh')
    have hdesc : t₁.desc = fresh := by
      have hspec := (t.adopt_spec fresh).2.2.1
      rw [hadopt] at hspec
      exact hspec rfl
    constructor
    · rintro (hzero | hcalled)
      · have hzero : t₁.desc.relNode = 0 := hzero
        rw [hdesc, hnode] at hzero
        exact absurd hzero hattached
      · -- The files of the table are those it had.
        obtain ⟨t₁', t₂, done, hadopt', hcall, hr⟩ := hcalled
        obtain rfl : t₁ = t₁' := (Prod.ext_iff.mp (hadopt.symm.trans hadopt')).1
        obtain rfl : true = done := congrArg Remapped.ok hr
        have hsame : t₁.sink = t₂.sink := congrArg (fun r : Remapped => r.table.sink) hr
        have hfiles := remapTable_files hcall
        rw [hsame] at hfiles
        exact absurd hfiles (lt_irrefl _)
    · rintro (hzero | hneeds | hlonger | hrefuses)
      · exact absurd hzero hattached
      · rw [hwants.mpr (.inl hneeds)] at hquiet
        cases hquiet
      · rw [hwants.mpr (.inr hlonger)] at hquiet
        cases hquiet
      · have hfailed := (adopt_refuses hcols).mpr hrefuses
        rw [hadopt] at hfailed
        cases hfailed
  | remapped fresh' t₁ t₂ _ hfresh' hwhy hadopt hcall | failed fresh' t₁ t₂ _ hfresh' hwhy hadopt hcall =>
    obtain rfl := Option.some.inj (hfresh.symm.trans hfresh')
    have hwhy := hwants.mp (hwhy.resolve_left (not_not_intro hnode))
    exact ⟨fun _ => .inr (hwhy.imp_right .inl), fun _ => .inr ⟨t₁, t₂, _, hadopt, hcall, rfl⟩⟩

end Table

/-- The loop goes past a prefix of the tables only if each of their steps succeeds. -/
theorem remapTables_reached {dec : TupleDecoder} {env : PgEnv} {now : Instant} {ddlLsn restart : Lsn} {i k : Nat}
    {ts : List Table} {t : Table} (ht : ts[k]? = some t)
    (hbefore : ∀ (j : Nat) (u : Table), j < k → ts[j]? = some u →
      (u.remapStep dec env now (i + j) ddlLsn restart).ok = true) :
    (remapTables dec env now ddlLsn restart i ts).1[k]? =
      some (t.remapStep dec env now (i + k) ddlLsn restart).table := by
  induction ts generalizing i k with
  | nil => cases ht
  | cons u ts ih =>
    simp only [remapTables]
    cases k with
    -- The loop writes the table back whether its step succeeds or not.
    | zero =>
      obtain rfl := Option.some.inj ht
      split <;> rfl
    | succ k =>
      have hfirst : (u.remapStep dec env now i ddlLsn restart).ok = true := hbefore 0 u (Nat.succ_pos k) rfl
      rw [if_pos hfirst]
      have hrest := ih (i := i + 1) (k := k) ht fun j v hj hv => by
        have hok := hbefore (j + 1) v (Nat.succ_lt_succ hj) hv
        rwa [← Nat.add_assoc, Nat.add_right_comm] at hok
      rwa [Nat.add_right_comm, Nat.add_assoc] at hrest

namespace Engine

variable {dec : TupleDecoder} {e : Engine} {env : PgEnv} {now : Instant} {ddlLsn persisted : Lsn}

/-- The loop of a catalog check comes to table `k`: the flush before the loop and the steps of
the tables before this one go through. -/
def ComesTo (dec : TupleDecoder) (e : Engine) (env : PgEnv) (now : Instant) (ddlLsn persisted : Lsn) (k : Nat) : Prop :=
  let flushed := e.flushAll env.appendOk now persisted
  flushed.2.2 = true ∧ ∀ (j : Nat) (u : Table), j < k → flushed.1.tables[j]? = some u →
    (u.remapStep dec env now j ddlLsn flushed.1.restartLsn).ok = true

theorem ComesTo.remapCheck {k : Nat} {u : Table} (h : e.ComesTo dec env now ddlLsn persisted k) (cfg : Config)
    (hu : (e.flushAll env.appendOk now persisted).1.tables[k]? = some u) :
    (e.remapCheck dec env cfg now ddlLsn persisted).1.tables[k]? =
      some (u.remapStep dec env now k ddlLsn (e.flushAll env.appendOk now persisted).1.restartLsn).table := by
  generalize hcheck : e.remapCheck dec env cfg now ddlLsn persisted = res
  obtain ⟨e', persisted', ok⟩ := res
  obtain ⟨e₁, flushed, hflush, hcase⟩ := remapCheck_cases hcheck
  obtain ⟨hflushed, hbefore⟩ := h
  rw [hflush] at hu hflushed hbefore ⊢
  have hstep := remapTables_reached (i := 0) hu (fun j v hj hv => by simpa using hbefore j v hj hv)
  rw [Nat.zero_add] at hstep
  rcases hcase with ⟨hfailed, -, -⟩ | ⟨-, nodes, tables, changed, done, htables, hcase⟩
  · exact absurd hflushed (by simp [hfailed])
  · rw [htables] at hstep
    rcases hcase with ⟨-, -, rfl⟩ | ⟨-, -, e₂, rfl, hcase⟩
    · exact hstep
    · obtain ⟨new, hnew, -⟩ := attachNew_tables dec env cfg { e₁ with catalogRels := nodes, tables }
      have hk : k < tables.length := (List.getElem?_eq_some_iff.mp hstep).1
      -- Attached tables come behind the others.
      have hkept : ({ e₁ with catalogRels := nodes, tables }.attachNew dec env cfg).tables[k]? = tables[k]? := by
        rw [hnew, List.getElem?_append_left hk]
      rcases hcase with rfl | rfl
      · exact hkept.trans hstep
      · exact hkept.trans hstep

/-- A check that comes to a table with a new column that has a fast default handles it exactly
when the table is detached or marked already, its columns have become more, or Delta refuses them. -/
theorem fastDefaults_handled_iff (cfg : Config) {k : Nat} {t : Table} {fresh : TableDesc} (ht : e.tables[k]? = some t)
    (hcomes : e.ComesTo dec env now ddlLsn persisted k) (hfresh : env.discoverByOid t.desc.oid = some fresh)
    (hnode : fresh.relNode = t.desc.relNode) (hnew : ∃ c ∈ fresh.cols, c.name ∉ t.desc.cols.map (·.name))
    (hdefaults : fresh.hasFastDefaults = true) :
    ∃ u, (e.flushAll env.appendOk now persisted).1.tables[k]? = some u ∧
      let restart := (e.flushAll env.appendOk now persisted).1.restartLsn
      let r := u.remapStep dec env now k ddlLsn restart
      (e.remapCheck dec env cfg now ddlLsn persisted).1.tables[k]? = some r.table ∧
        (r.table.desc.relNode = 0 ∨ u.RemapCalled dec env now k ddlLsn restart fresh r ↔
          t.desc.relNode = 0 ∨ t.needsResnapshot = true ∨ t.desc.cols.length < fresh.cols.length ∨
            t.sink.Refuses fresh.cols) := by
  have hk : k < (e.flushAll env.appendOk now persisted).1.tables.length := by
    rw [flushAll_length]
    exact (List.getElem?_eq_some_iff.mp ht).1
  have hu := List.getElem?_eq_getElem hk
  generalize (e.flushAll env.appendOk now persisted).1.tables[k] = u at hu
  refine ⟨u, hu, hcomes.remapCheck cfg hu, ?_⟩
  -- The flush keeps what the condition looks at.
  obtain ⟨t', ht', hdesc, hcols⟩ := flushAll_shape hu
  obtain rfl := Option.some.inj (ht.symm.trans ht')
  have hneeds : u.needsResnapshot = t.needsResnapshot := by
    have hframe := congrArg (·[k]?) (e.flushAll_frame env.appendOk now persisted).2.2.2
    simp only [List.getElem?_map, hu, ht, Option.map_some, Option.some.injEq, Prod.mk.injEq] at hframe
    exact hframe.2
  have hrefuses : u.sink.Refuses fresh.cols ↔ t.sink.Refuses fresh.cols := by
    rw [DeltaSink.Refuses, DeltaSink.Refuses, hcols]
  rw [← hdesc] at hfresh hnode hnew ⊢
  rw [← hneeds, ← hrefuses]
  exact Table.remapStep_fastDefaults hfresh hnode hnew hdefaults

end Engine

namespace Sample

/-- A table with the row `(1, 7)`. -/
def wideTable : Table :=
  { Table.opened wideDesc (sink wideDesc) with
    mirror := AList.singleton (0, 1) ⟨[some (.i32 1), some (.i32 7)], none⟩ }

def wideRow : Engine := { engine [] with tables := [wideTable] }

/-- After `alter table t add column m int default 5`. -/
def widerDesc : TableDesc :=
  { wideDesc with
    cols := [⟨"id", .int4⟩, ⟨"n", .int4⟩, ⟨"m", .int4⟩]
    phys := [.live ⟨"id", .int4⟩, .live ⟨"n", .int4⟩, .live ⟨"m", .int4⟩]
    hasFastDefaults := true }

/-- After `alter table t drop column n` as well. -/
def swappedDesc : TableDesc :=
  { wideDesc with
    cols := [⟨"id", .int4⟩, ⟨"m", .int4⟩]
    phys := [.live ⟨"id", .int4⟩, .dropped 4 4, .live ⟨"m", .int4⟩]
    hasFastDefaults := true }

end Sample

namespace Engine

/-- The added column alone is seen. -/
theorem fastDefaults_handled_wider :
    ∃ u, (Sample.wideRow.flushAll (Sample.env [Sample.widerDesc] 200).appendOk 0 0).1.tables[0]? = some u ∧
      let r := u.remapStep .reject (Sample.env [Sample.widerDesc] 200) 0 0 20 0
      r.table.desc.relNode = 0 ∨
        u.RemapCalled .reject (Sample.env [Sample.widerDesc] 200) 0 0 20 0 Sample.widerDesc r := by
  have hcomes : Sample.wideRow.ComesTo .reject (Sample.env [Sample.widerDesc] 200) 0 20 0 0 :=
    ⟨rfl, fun j u hj => absurd hj (Nat.not_lt_zero j)⟩
  have hnew : ∃ c ∈ Sample.widerDesc.cols, c.name ∉ Sample.wideDesc.cols.map (·.name) :=
    ⟨⟨"m", .int4⟩, by decide, by decide⟩
  have hnode : Sample.widerDesc.relNode = Sample.wideTable.desc.relNode := rfl
  obtain ⟨u, hu, -, hiff⟩ := fastDefaults_handled_iff Sample.cfg rfl hcomes rfl hnode hnew rfl
  exact ⟨u, hu, hiff.mpr (.inr (.inr (.inl (by decide))))⟩

/-- With the dropped column the number stays two: the table is not snapshotted again, and the
row keeps NULL in the column that has the default. -/
theorem swapped_default_missed :
    let env := Sample.env [Sample.swappedDesc] 200
    (∃ c ∈ Sample.swappedDesc.cols, c.name ∉ Sample.wideDesc.cols.map (·.name)) ∧
      Sample.swappedDesc.hasFastDefaults = true ∧ Sample.swappedDesc.relNode = Sample.wideDesc.relNode ∧
      ∃ u t', (Sample.wideRow.flushAll env.appendOk 0 0).1.tables[0]? = some u ∧
        env.discoverByOid u.desc.oid = some Sample.swappedDesc ∧
        (Sample.wideRow.remapCheck .reject env Sample.cfg 0 20 0).1.tables[0]? = some t' ∧
        (Sample.wideRow.remapCheck .reject env Sample.cfg 0 20 0).2.2 = true ∧
        t'.desc.relNode ≠ 0 ∧
        ¬ u.RemapCalled .reject env 0 0 20 0 Sample.swappedDesc ⟨t', true, true⟩ ∧
        t'.mirror.lookup (0, 1) = some ⟨[some (.i32 1), none], none⟩ := by
  refine ⟨⟨⟨"m", .int4⟩, by decide, by decide⟩, rfl, rfl, _, _, rfl, rfl, rfl, rfl, by decide, ?_, rfl⟩
  rintro ⟨t₁, t₂, done, hadopt, hcall, hr⟩
  obtain rfl : true = done := congrArg Table.Remapped.ok hr
  obtain rfl := (Prod.ext_iff.mp hadopt).1
  have hfiles := Table.remapTable_files hcall
  have hsame := congrArg (fun r : Table.Remapped => r.table.sink.table.files.length) hr
  exact absurd (hsame ▸ hfiles) (lt_irrefl _)

end Engine

end Ltap
