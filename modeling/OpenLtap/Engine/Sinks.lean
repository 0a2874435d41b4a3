-- SUMMARY: What each engine operation does to the descriptor and the sink of a table.
import OpenLtap.Driver.Main

/-!
# Descriptors and sinks

Records change neither a descriptor nor a sink. Flush rounds and compactions change
what a sink stores, catalog checks and startup also the descriptors.
-/

namespace Ltap

/-- The restart position persisted with a table. -/
def Table.restartMark (t : Table) : Option Lsn := t.sink.resumeState.restartLsn

/-- What a table is called and where it is stored. -/
def Table.address (t : Table) : TableDesc × DeltaSink := (t.desc, t.sink)

/-! ## Records -/

theorem Table.commitOp_address (t : Table) (now : Instant) (lsn : Lsn) (op : Op) :
    (t.commitOp now lsn op).address = t.address := by
  unfold commitOp
  split
  · rfl
  · cases op with
    | insert | update | delete => rfl

theorem map_modify_of_same {α β : Type*} {f : α → β} {g : α → α} (h : ∀ a, f (g a) = f a)
    (l : List α) (i : Nat) : (l.modify i g).map f = l.map f := by
  refine List.ext_getElem? fun k => ?_
  rw [List.getElem?_map, List.getElem?_map, List.getElem?_modify]
  by_cases hk : i = k
  · simp [hk, Function.comp_def, h]
  · simp [hk]

/-- Lists with the same images have elements with the same image at the same place. -/
theorem exists_getElem?_of_map_eq {α β : Type*} {f : α → β} {l l' : List α} (h : l'.map f = l.map f) {i : Nat} {a' : α}
    (ha' : l'[i]? = some a') : ∃ a, l[i]? = some a ∧ f a' = f a := by
  have hi := congrArg (·[i]?) h
  simp only [List.getElem?_map, ha', Option.map_some] at hi
  obtain ⟨a, ha, heq⟩ := Option.map_eq_some_iff.mp hi.symm
  exact ⟨a, ha, heq.symm⟩

namespace Engine

theorem commitOps_addresses (now : Instant) (lsn : Lsn) (tables : List Table)
    (ops : List PendingOp) :
    (commitOps now lsn tables ops).map Table.address = tables.map Table.address := by
  induction ops generalizing tables with
  | nil => rfl
  | cons p ops ih =>
    rw [commitOps, List.foldl_cons, ← commitOps, ih]
    exact map_modify_of_same (fun t => t.commitOp_address now lsn p.op) _ _

theorem applyEffect_addresses (e : Engine) (now : Instant) (lsn : Lsn) (eff : Effect) :
    (e.applyEffect now lsn eff).tables.map Table.address = e.tables.map Table.address := by
  cases eff with
  | commit xid subxids => exact commitOps_addresses now lsn e.tables _
  | drift table =>
    have hsame : ∀ t : Table, Table.address { t with needsResnapshot := true } = t.address :=
      fun _ => rfl
    exact map_modify_of_same hsame e.tables table
  | skip | suspect | toastChunk | ops | abort => rfl

end Engine

theorem MainState.handleRecords_addresses (dec : TupleDecoder) (now : Instant)
    (recs : List (Lsn × Bytes)) (e : Engine) :
    (handleRecords dec now recs e).1.tables.map Table.address = e.tables.map Table.address := by
  induction recs generalizing e with
  | nil => rfl
  | cons rec recs ih =>
    simp only [handleRecords]
    split
    · rw [ih]
      exact e.applyEffect_addresses now _ _
    · rfl
    · exact ih e

theorem MainState.receive_addresses (dec : TupleDecoder) (s : MainState) (now : Instant)
    (startLsn walEnd : Lsn) (data : Bytes) :
    (s.receive dec now startLsn walEnd data).1.engine.tables.map Table.address =
      s.engine.tables.map Table.address := by
  simp only [receive]
  split
  · rfl
  · exact handleRecords_addresses dec now _ _

theorem MainState.handleRecords_attachFailed (dec : TupleDecoder) (now : Instant)
    (recs : List (Lsn × Bytes)) (e : Engine) :
    (handleRecords dec now recs e).1.attachFailed = e.attachFailed := by
  induction recs generalizing e with
  | nil => rfl
  | cons rec recs ih =>
    simp only [handleRecords]
    split
    · rw [ih, Engine.handleRecord]
      cases e.effectOf dec rec.1 _ with
      | skip | suspect | toastChunk | ops | drift | commit | abort => rfl
    · rfl
    · exact ih e

theorem MainState.receive_attachFailed (dec : TupleDecoder) (s : MainState) (now : Instant)
    (startLsn walEnd : Lsn) (data : Bytes) :
    (s.receive dec now startLsn walEnd data).1.engine.attachFailed = s.engine.attachFailed := by
  simp only [receive]
  split
  · rfl
  · exact handleRecords_attachFailed dec now _ _

/-! ## Compaction -/

theorem DeltaSink.compact_done {s s' : DeltaSink} {desc : TableDesc} {n m : Nat}
    (h : s.compact desc = .done s' n m) :
    s'.uri = s.uri ∧ s'.resumeState.restartLsn = s.resumeState.restartLsn ∧
      s'.deltaCols = s.deltaCols := by
  simp only [compact] at h
  split at h
  · cases h
  · split at h
    · cases h
    · split at h
      · cases h
      · split at h
        · cases h
        · cases h
          exact ⟨rfl, rfl, rfl⟩

/-- What a round of compactions does to a table: nothing, or its log was long enough and is
rewritten unless there was nothing to gain. -/
theorem Engine.compactTables_stepped {n k : Nat} {ts : List Table} {t' : Table}
    (h : (Engine.compactTables n ts).1[k]? = some t') :
    ∃ t, ts[k]? = some t ∧ (t' = t ∨ n ≤ t.rowsSinceCompaction ∧ t.desc.pk ≠ [] ∧
      (t' = { t with rowsSinceCompaction := 0 } ∨ ∃ sink before after,
        t.sink.compact t.desc = .done sink before after ∧
        t' = { t with sink, rowsSinceCompaction := 0 })) := by
  induction ts generalizing k with
  | nil => simp [compactTables] at h
  | cons t ts ih =>
    simp only [compactTables] at h
    split at h
    · cases k with
      | zero => exact ⟨t, rfl, .inl (by simpa using h.symm)⟩
      | succ k => exact ih (by simpa using h)
    · rename_i hdue
      obtain ⟨hrows, hpk⟩ : n ≤ t.rowsSinceCompaction ∧ t.desc.pk ≠ [] := by simpa using hdue
      split at h
      · exact ⟨t', h, .inl rfl⟩
      · cases k with
        | zero => exact ⟨t, rfl, .inr ⟨hrows, hpk, .inl (by simpa using h.symm)⟩⟩
        | succ k => exact ih (by simpa using h)
      · rename_i sink before after hdone
        cases k with
        | zero =>
          exact ⟨t, rfl, .inr ⟨hrows, hpk, .inr ⟨sink, before, after, hdone, by simpa using h.symm⟩⟩⟩
        | succ k => exact ih (by simpa using h)

/-- What a round of compactions leaves of table `i`. -/
theorem Engine.maybeCompact_stepped {e : Engine} {i : Nat} {t' : Table}
    (h : e.maybeCompact.1.tables[i]? = some t') :
    ∃ t, e.tables[i]? = some t ∧ (t' = t ∨ t' = { t with rowsSinceCompaction := 0 } ∨
      t.desc.pk ≠ [] ∧ ∃ sink before after, t.sink.compact t.desc = .done sink before after ∧
        t' = { t with sink, rowsSinceCompaction := 0 }) := by
  unfold maybeCompact at h
  split at h
  · exact ⟨t', h, .inl rfl⟩
  · obtain ⟨t, ht, rfl | ⟨-, hpk, rfl | hdone⟩⟩ := compactTables_stepped h
    · exact ⟨t', ht, .inl rfl⟩
    · exact ⟨t, ht, .inr (.inl rfl)⟩
    · exact ⟨t, ht, .inr (.inr ⟨hpk, hdone⟩)⟩

theorem Engine.compactTables_length (n : Nat) (ts : List Table) :
    (Engine.compactTables n ts).1.length = ts.length := by
  induction ts with
  | nil => rfl
  | cons t ts ih =>
    simp only [compactTables]
    split
    · simp [ih]
    · split
      · rfl
      · simp [ih]
      · simp [ih]

/-- A compaction keeps the descriptor, the URI, and the restart position. -/
theorem Engine.compactTables_cases {n k : Nat} {ts : List Table} {t' : Table}
    (h : (Engine.compactTables n ts).1[k]? = some t') :
    ∃ t, ts[k]? = some t ∧ t'.desc = t.desc ∧ t'.sink.uri = t.sink.uri ∧
      t'.restartMark = t.restartMark := by
  obtain ⟨t, ht, hcase⟩ := compactTables_stepped h
  refine ⟨t, ht, ?_⟩
  rcases hcase with rfl | ⟨-, -, rfl | ⟨sink, before, after, hdone, rfl⟩⟩
  · exact ⟨rfl, rfl, rfl⟩
  · exact ⟨rfl, rfl, rfl⟩
  · obtain ⟨huri, hmark, -⟩ := DeltaSink.compact_done hdone
    exact ⟨rfl, huri, hmark⟩

/-! ## Catalog checks -/

theorem DeltaSink.evolve_spec (s : DeltaSink) (cols : List Col) :
    (s.evolve cols).1.uri = s.uri ∧ (s.evolve cols).1.table = s.table := by
  simp only [evolve]
  split
  · exact ⟨rfl, rfl⟩
  · exact ⟨rfl, rfl⟩

namespace Table

theorem adopt_spec (t : Table) (fresh : TableDesc) :
    (t.adopt fresh).1.sink.uri = t.sink.uri ∧ (t.adopt fresh).1.restartMark = t.restartMark ∧
      ((t.adopt fresh).2 = true → (t.adopt fresh).1.desc = fresh) ∧
      ((t.adopt fresh).2 = false → (t.adopt fresh).1.desc = t.desc) := by
  obtain ⟨huri, htable⟩ := t.sink.evolve_spec fresh.cols
  simp only [adopt]
  split
  · split
    · refine ⟨huri, ?_, fun _ => rfl, fun h => by simp at h⟩
      simp [restartMark, DeltaSink.resumeState, htable]
    · refine ⟨huri, ?_, fun h => by simp at h, fun _ => rfl⟩
      simp [restartMark, DeltaSink.resumeState, htable]
  · exact ⟨rfl, rfl, fun _ => rfl, fun h => by simp at h⟩

/-- A re-snapshot, finished or not, keeps descriptor and URI. The restart position is the old
one or the one it was given. -/
theorem remapTable_spec (dec : TupleDecoder) (t : Table) (now : Instant) (args : RemapArgs)
    (snap : Option Snapshot) (ok : AppendSite → Bool) :
    (t.remapTable dec now args snap ok).1.desc = t.desc ∧
      (t.remapTable dec now args snap ok).1.sink.uri = t.sink.uri ∧
      ((t.remapTable dec now args snap ok).1.restartMark = t.restartMark ∨
        (t.remapTable dec now args snap ok).1.restartMark = some args.restartLsn) := by
  have hpre : ∀ u : Table, u = t.drainMirror now args.tombstoneLsn ∨
      u = (t.drainMirror now args.tombstoneLsn).appendTombstones args →
      u.desc = t.desc ∧ u.sink.uri = t.sink.uri ∧
        (u.restartMark = t.restartMark ∨ u.restartMark = some args.restartLsn) := by
    rintro u (rfl | rfl)
    · exact ⟨rfl, rfl, .inl rfl⟩
    · exact ⟨rfl, rfl, .inr rfl⟩
  simp only [remapTable]
  split
  · exact hpre _ (.inl rfl)
  · have hmid := hpre (if (t.drainMirror now args.tombstoneLsn).pending.rows = [] then
        t.drainMirror now args.tombstoneLsn
      else (t.drainMirror now args.tombstoneLsn).appendTombstones args) (by
        split
        · exact .inl rfl
        · exact .inr rfl)
    cases snap with
    | none => exact hmid
    | some s =>
      simp only
      split
      · exact ⟨hmid.1, hmid.2.1, .inr rfl⟩
      · exact hmid

/-- The catalog says that the table has to be re-snapshotted. -/
def Remaps (t : Table) (env : PgEnv) : Prop :=
  t.desc.relNode ≠ 0 ∧ ∃ fresh, env.discoverByOid t.desc.oid = some fresh ∧
    (fresh.relNode ≠ t.desc.relNode ∨ t.wantsResnapshot fresh)

theorem remapStep_spec (dec : TupleDecoder) (t : Table) (env : PgEnv) (now : Instant) (ti : Nat)
    (ddlLsn restart : Lsn) :
    (t.remapStep dec env now ti ddlLsn restart).table.sink.uri = t.sink.uri ∧
      ((t.remapStep dec env now ti ddlLsn restart).table.restartMark = t.restartMark ∨
        t.Remaps env ∧
          (t.remapStep dec env now ti ddlLsn restart).table.restartMark = some restart) := by
  have hstep := t.remapStep_stepped dec env now ti ddlLsn restart
  generalize t.remapStep dec env now ti ddlLsn restart = r at hstep ⊢
  have hadopted : ∀ {fresh : TableDesc} {t₁ : Table} {ok : Bool}, t.adopt fresh = (t₁, ok) →
      t₁.sink.uri = t.sink.uri ∧ t₁.restartMark = t.restartMark := by
    intro fresh t₁ ok hadopt
    obtain ⟨huri, hmark, -, -⟩ := t.adopt_spec fresh
    rw [hadopt] at huri hmark
    exact ⟨huri, hmark⟩
  cases hstep with
  | detached | vanished | quiet => exact ⟨rfl, .inl rfl⟩
  | refused fresh t₁ _ _ hadopt | evolved fresh t₁ _ _ _ _ _ hadopt =>
    obtain ⟨huri, hmark⟩ := hadopted hadopt
    exact ⟨huri, .inl hmark⟩
  | remapped fresh t₁ t₂ hnode hfresh hremap hadopt hcall | failed fresh t₁ t₂ hnode hfresh hremap hadopt hcall =>
    obtain ⟨huri, hmark⟩ := hadopted hadopt
    obtain ⟨-, huri', hmark'⟩ := t₁.remapTable_spec dec now (t.remapCheckArgs fresh ddlLsn restart)
      (env.snapshot fresh) (env.appendOk ti)
    rw [hcall] at huri' hmark'
    exact ⟨huri'.trans huri, hmark'.imp (·.trans hmark) fun h => ⟨⟨hnode, fresh, hfresh, hremap⟩, h⟩⟩

/-- The catalog loop follows a table by its oid. -/
theorem remapStep_oid (dec : TupleDecoder) (t : Table) (env : PgEnv) (now : Instant) (ti : Nat)
    (ddlLsn restart : Lsn)
    (hoid : ∀ fresh, env.discoverByOid t.desc.oid = some fresh → fresh.oid = t.desc.oid) :
    (t.remapStep dec env now ti ddlLsn restart).table.desc.oid = t.desc.oid := by
  have hstep := t.remapStep_stepped dec env now ti ddlLsn restart
  generalize t.remapStep dec env now ti ddlLsn restart = r at hstep ⊢
  have hadopted : ∀ {fresh : TableDesc} {t₁ : Table}, env.discoverByOid t.desc.oid = some fresh →
      t.adopt fresh = (t₁, true) → t₁.desc.oid = t.desc.oid := by
    intro fresh t₁ hfresh hadopt
    obtain ⟨-, -, hdesc, -⟩ := t.adopt_spec fresh
    rw [hadopt] at hdesc
    rw [hdesc rfl, hoid fresh hfresh]
  cases hstep with
  | detached | vanished => rfl
  | quiet fresh _ hfresh => exact hoid fresh hfresh
  | refused fresh t₁ _ _ hadopt =>
    obtain ⟨-, -, -, hkeep⟩ := t.adopt_spec fresh
    rw [hadopt] at hkeep
    have hoid₁ : t₁.detach.desc.oid = t₁.desc.oid := rfl
    exact hoid₁.trans (congrArg TableDesc.oid (hkeep rfl))
  | evolved fresh t₁ _ hfresh _ _ _ hadopt => exact hadopted hfresh hadopt
  | remapped fresh t₁ t₂ _ hfresh _ hadopt hcall | failed fresh t₁ t₂ _ hfresh _ hadopt hcall =>
    obtain ⟨hdesc, -, -⟩ := t₁.remapTable_spec dec now (t.remapCheckArgs fresh ddlLsn restart)
      (env.snapshot fresh) (env.appendOk ti)
    rw [hcall] at hdesc
    exact (congrArg TableDesc.oid hdesc).trans (hadopted hfresh hadopt)

end Table

/-- Every table after the catalog loop was stepped, or was not reached. -/
theorem remapTables_cases {dec : TupleDecoder} {env : PgEnv} {now : Instant}
    {ddlLsn restart : Lsn} {i k : Nat} {ts : List Table} {t' : Table}
    (h : (remapTables dec env now ddlLsn restart i ts).1[k]? = some t') :
    ∃ t, ts[k]? = some t ∧
      (t' = t ∨ t' = (t.remapStep dec env now (i + k) ddlLsn restart).table) := by
  induction ts generalizing i k with
  | nil => simp [remapTables] at h
  | cons t ts ih =>
    simp only [remapTables] at h
    split at h
    · cases k with
      | zero => exact ⟨t, rfl, .inr (by simpa using h.symm)⟩
      | succ k =>
        obtain ⟨u, hu, hcase⟩ := ih (i := i + 1) (k := k) (by simpa using h)
        exact ⟨u, by simpa using hu, by rwa [Nat.add_right_comm, Nat.add_assoc] at hcase⟩
    · cases k with
      | zero => exact ⟨t, rfl, .inr (by simpa using h.symm)⟩
      | succ k => exact ⟨t', by simpa using h, .inl rfl⟩

/-! ## Attaching -/

theorem DeltaSink.openOrCreate_uri {uri : String} {existing : Option DeltaTable}
    {desc : TableDesc} {sink : DeltaSink} (h : openOrCreate uri existing desc = .ok sink) :
    sink.uri = uri := by
  simp only [openOrCreate, bind, Except.bind] at h
  split at h
  · cases h
  · cases h
    rfl

/-- A new table is opened under its current name and snapshotted. -/
theorem Table.attach_some {dec : TupleDecoder} {env : PgEnv} {cfg : Config} {ti : Nat}
    {name : String} {t : Table} (h : Table.attach dec env cfg ti name = some t) :
    ∃ s, env.discover name = some t.desc ∧ env.snapshot t.desc = some s ∧
      t.sink.uri = deltaUri cfg.lake t.desc.name ∧ t.restartMark = some s.cutover := by
  simp only [attach, bind, Option.bind_eq_some_iff] at h
  obtain ⟨desc, hdesc, sink, hsink, s, hs, h⟩ := h
  split at h
  · obtain rfl := Option.some.inj h
    refine ⟨s, hdesc, hs, ?_, rfl⟩
    cases hopen : DeltaSink.openOrCreate (deltaUri cfg.lake desc.name)
        (env.lake (deltaUri cfg.lake desc.name)) desc with
    | error msg => simp [hopen, Except.toOption] at hsink
    | ok sink' =>
      simp only [hopen, Except.toOption, Option.some.injEq] at hsink
      subst hsink
      have huri : sink'.uri = deltaUri cfg.lake desc.name := DeltaSink.openOrCreate_uri hopen
      exact huri
  · cases h

/-- The tables that auto-attach adds. -/
theorem Engine.attachNew_tables (dec : TupleDecoder) (env : PgEnv) (cfg : Config) (e : Engine) :
    ∃ new, (e.attachNew dec env cfg).tables = e.tables ++ new ∧
      ∀ t ∈ new, ∃ ti, ∃ entry ∈ tablesToAttach (e.tables.map (·.desc.oid)).toFinset e.attachFailed
        (env.listTables.getD []), Table.attach dec env cfg ti entry.2 = some t := by
  simp only [attachNew]
  split
  · rename_i catalog _ hlist
    rw [hlist, Option.getD_some]
    generalize tablesToAttach _ _ _ = names
    induction names generalizing e with
    | nil => exact ⟨[], by simp, by simp⟩
    | cons name names ih =>
      rw [List.foldl_cons]
      obtain ⟨new, htables, hnew⟩ := ih (e.attachOne dec env cfg name.2)
      have hnew : ∀ t ∈ new, ∃ ti, ∃ entry ∈ name :: names,
          Table.attach dec env cfg ti entry.2 = some t := by
        intro t ht
        obtain ⟨ti, entry, hentry, h⟩ := hnew t ht
        exact ⟨ti, entry, List.mem_cons_of_mem _ hentry, h⟩
      rw [htables]
      unfold attachOne
      split
      · rename_i t ht
        refine ⟨t :: new, by simp, ?_⟩
        intro u hu
        rcases List.mem_cons.mp hu with rfl | hu
        · exact ⟨_, _, List.mem_cons_self, ht⟩
        · exact hnew u hu
      · exact ⟨new, rfl, hnew⟩
  · exact ⟨[], by simp, by simp⟩

/-! ## Startup -/

theorem Table.resume_spec (dec : TupleDecoder) (t : Table) (env : PgEnv) (cfg : Config)
    (now : Instant) (oraclePreimages : Bool) (ti : Nat) :
    (t.resume dec env cfg now oraclePreimages ti).1.desc = t.desc ∧
      (t.resume dec env cfg now oraclePreimages ti).1.sink.uri = t.sink.uri := by
  simp only [resume]
  split
  · split
    · exact ⟨rfl, rfl⟩
    · rename_i raw _
      split
      · exact ⟨rfl, rfl⟩
      · have hspec := (t.resumed dec raw).remapTable_spec dec now ‹RemapArgs›
          (env.snapshot (t.resumed dec raw).desc) (env.appendOk ti)
        exact ⟨hspec.1, hspec.2.1⟩
  · split
    · split
      · exact ⟨rfl, rfl⟩
      · split
        · exact ⟨rfl, rfl⟩
        · refine ⟨rfl, ?_⟩
          simp only [initialSnapshot]
          split
          · rfl
          · rfl
    · exact ⟨rfl, rfl⟩

/-- Each opened table is stored under the name of its descriptor. -/
theorem openTables_mem {env : PgEnv} {cfg : Config} {descs : List TableDesc}
    {opened : List Table} (h : openTables env cfg descs = some opened) {t : Table}
    (ht : t ∈ opened) : t.desc ∈ descs ∧ t.sink.uri = deltaUri cfg.lake t.desc.name := by
  induction descs generalizing opened with
  | nil =>
    obtain rfl : [] = opened := by simpa [openTables] using h
    cases ht
  | cons desc descs ih =>
    simp only [openTables] at h
    split at h
    · rename_i sink hopen
      obtain ⟨rest, hrest, h⟩ := Option.bind_eq_some_iff.mp h
      obtain rfl := Option.some.inj h
      rcases List.mem_cons.mp ht with rfl | ht
      · exact ⟨List.mem_cons_self, DeltaSink.openOrCreate_uri hopen⟩
      · obtain ⟨hmem, huri⟩ := ih hrest ht
        exact ⟨List.mem_cons_of_mem _ hmem, huri⟩
    · split at h
      · obtain ⟨hmem, huri⟩ := ih h ht
        exact ⟨List.mem_cons_of_mem _ hmem, huri⟩
      · cases h

theorem discoverAll_mem {env : PgEnv} {cfg : Config} {descs : List TableDesc}
    (h : discoverAll env cfg = some descs) {desc : TableDesc} (hdesc : desc ∈ descs) :
    ∃ name, env.discover name = some desc := by
  simp only [discoverAll, Option.filter_eq_some_iff] at h
  obtain ⟨h, -⟩ := h
  split at h
  · rename_i names hnames
    clear hnames
    induction names generalizing descs with
    | nil =>
      obtain rfl : [] = descs := by simpa using h
      cases hdesc
    | cons name names ih =>
      simp only [List.mapM_cons, Option.bind_eq_bind, Option.bind_eq_some_iff] at h
      obtain ⟨d, hd, ds, hds, h⟩ := h
      obtain rfl := Option.some.inj h
      rcases List.mem_cons.mp hdesc with rfl | hdesc
      · exact ⟨name, hd⟩
      · exact ih hdesc hds
  · obtain ⟨catalog, -, rfl⟩ := Option.map_eq_some_iff.mp h
    obtain ⟨entry, -, hentry⟩ := List.mem_filterMap.mp hdesc
    exact ⟨entry.2, hentry⟩

end Ltap
