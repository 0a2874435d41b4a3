-- SUMMARY: The states of a tracked table in any run of either driver.
import OpenLtap.Driver.Embed
import OpenLtap.Engine.Columns
import OpenLtap.Engine.Sinks

/-!
# Reachable tables

`Table.Reached` closes the opened and attached tables under everything the engine does
to one table, in any order. Both drivers stay within it.
-/

namespace Ltap

/-- The states of a table in any run. -/
inductive Table.Reached (dec : TupleDecoder) : Table → Prop where
  | opened {env : PgEnv} {cfg : Config} {descs : List TableDesc} {ts : List Table} {t : Table} :
    openTables env cfg descs = some ts → t ∈ ts → t.desc.WellFormed → Reached dec t
  | attached {env : PgEnv} {cfg : Config} {ti : Nat} {name : String} {t : Table} :
    Table.attach dec env cfg ti name = some t → t.desc.WellFormed → Reached dec t
  /-- `resume_tables` stands between the mirror rebuild and `remap_table`. -/
  | resumed {t : Table} (raw : Map Ctid Bytes) : Reached dec t → Reached dec (t.resumed dec raw)
  | resume {t : Table} (env : PgEnv) (cfg : Config) (now : Instant) (oraclePreimages : Bool)
      (ti : Nat) :
    Reached dec t → Reached dec (t.resume dec env cfg now oraclePreimages ti).1
  | commit {t : Table} (now : Instant) (lsn : Lsn) (op : Op) :
    Reached dec t → Reached dec (t.commitOp now lsn op)
  | drift {t : Table} : Reached dec t → Reached dec { t with needsResnapshot := true }
  | flush {t : Table} (restart : Lsn) : Reached dec t → Reached dec (t.flush restart)
  | compactionSkipped {t : Table} :
    Reached dec t → Reached dec { t with rowsSinceCompaction := 0 }
  | compacted {t : Table} {sink : DeltaSink} {before after : Nat} :
    t.sink.compact t.desc = .done sink before after → Reached dec t →
    Reached dec { t with sink, rowsSinceCompaction := 0 }
  | remapStep {t : Table} (env : PgEnv) (now : Instant) (ti : Nat) (ddlLsn restart : Lsn) :
    (∀ fresh, env.discoverByOid t.desc.oid = some fresh → fresh.WellFormed) →
    Reached dec t → Reached dec (t.remapStep dec env now ti ddlLsn restart).table
  | remapTable {t : Table} (now : Instant) (args : RemapArgs) (snap : Option Snapshot)
      (ok : AppendSite → Bool) :
    Reached dec t → Reached dec (t.remapTable dec now args snap ok).1

/-! ## Columns of reachable tables -/

/-- What decides how rows read back. -/
def Table.columns (t : Table) : TableDesc × List DeltaCol := (t.desc, t.sink.deltaCols)

namespace Table

variable (dec : TupleDecoder)

theorem remapTable_columns (t : Table) (now : Instant) (args : RemapArgs) (snap : Option Snapshot)
    (ok : AppendSite → Bool) : (t.remapTable dec now args snap ok).1.columns = t.columns := by
  have hmid : (if (t.drainMirror now args.tombstoneLsn).pending.rows = [] then
      t.drainMirror now args.tombstoneLsn
      else (t.drainMirror now args.tombstoneLsn).appendTombstones args).columns = t.columns := by
    split
    · rfl
    · rfl
  simp only [remapTable]
  split
  · rfl
  · cases snap with
    | none => exact hmid
    | some s =>
      simp only
      split
      · exact hmid
      · exact hmid

theorem resume_columns (t : Table) (env : PgEnv) (cfg : Config) (now : Instant)
    (oraclePreimages : Bool) (ti : Nat) :
    (t.resume dec env cfg now oraclePreimages ti).1.columns = t.columns := by
  simp only [resume]
  split
  · split
    · rfl
    · split
      · rfl
      · exact remapTable_columns dec ..
  · split
    · split
      · rfl
      · split
        · rfl
        · simp only [initialSnapshot, columns]
          split
          · rfl
          · rfl
    · rfl

/-- The Delta columns of an attached table match its live columns. -/
def ColumnsMatch (t : Table) : Prop :=
  t.desc.WellFormed ∧ (t.desc.relNode = 0 ∨ t.sink.Matches t.desc.cols)

variable {dec}

theorem ColumnsMatch.congr {t t' : Table} (h : t.ColumnsMatch) (heq : t'.columns = t.columns) :
    t'.ColumnsMatch := by
  obtain ⟨hdesc, hcols⟩ := Prod.ext_iff.mp heq
  simp only [columns] at hdesc hcols
  simpa only [ColumnsMatch, DeltaSink.Matches, hdesc, hcols] using h

theorem openTables_columnsMatch {env : PgEnv} {cfg : Config} {descs : List TableDesc}
    {ts : List Table} (h : openTables env cfg descs = some ts) {t : Table} (ht : t ∈ ts)
    (hdesc : t.desc.WellFormed) : t.ColumnsMatch := by
  induction descs generalizing ts with
  | nil =>
    obtain rfl : [] = ts := by simpa [openTables] using h
    cases ht
  | cons desc descs ih =>
    simp only [openTables] at h
    split at h
    · rename_i sink hopen
      obtain ⟨rest, hrest, h⟩ := Option.bind_eq_some_iff.mp h
      obtain rfl := Option.some.inj h
      rcases List.mem_cons.mp ht with rfl | ht
      · exact ⟨hdesc, .inr (DeltaSink.openOrCreate_matches hdesc hopen)⟩
      · exact ih hrest ht
    · split at h
      · exact ih h ht
      · cases h

theorem attach_columnsMatch {env : PgEnv} {cfg : Config} {ti : Nat} {name : String} {t : Table}
    (h : Table.attach dec env cfg ti name = some t) (hdesc : t.desc.WellFormed) :
    t.ColumnsMatch := by
  simp only [attach, bind, Option.bind_eq_some_iff] at h
  obtain ⟨desc, -, sink, hsink, s, -, h⟩ := h
  split at h
  · obtain rfl := Option.some.inj h
    cases hopen : DeltaSink.openOrCreate (deltaUri cfg.lake desc.name)
        (env.lake (deltaUri cfg.lake desc.name)) desc with
    | error msg => simp [hopen, Except.toOption] at hsink
    | ok sink' =>
      simp only [hopen, Except.toOption, Option.some.injEq] at hsink
      subst hsink
      have hmatch : sink'.Matches desc.cols := DeltaSink.openOrCreate_matches hdesc hopen
      exact ⟨hdesc, .inr hmatch⟩
  · cases h

theorem remapStep_columnsMatch {t : Table} (env : PgEnv) (now : Instant) (ti : Nat)
    (ddlLsn restart : Lsn)
    (henv : ∀ fresh, env.discoverByOid t.desc.oid = some fresh → fresh.WellFormed)
    (h : t.ColumnsMatch) : (t.remapStep dec env now ti ddlLsn restart).table.ColumnsMatch := by
  simp only [remapStep]
  split
  · exact h
  · rename_i hnode
    split
    · exact ⟨h.1, .inl rfl⟩
    · rename_i fresh hfresh
      have hfresh := henv fresh hfresh
      have hmatch : t.sink.Matches t.desc.cols := h.2.resolve_left hnode
      split
      · rename_i hsame
        have hcols : fresh.cols = t.desc.cols := by simpa [colsChanged] using hsame.2
        exact ⟨hfresh, .inr (hcols ▸ hmatch)⟩
      · split
        · rename_i hfailed
          -- The columns are left half-way, and the table is detached.
          have hkeep := (t.adopt_spec fresh).2.2.2 (by simpa using hfailed)
          refine ⟨?_, .inl rfl⟩
          change (t.adopt fresh).1.desc.WellFormed
          exact hkeep ▸ h.1
        · rename_i hok
          obtain ⟨hmatch', hdesc⟩ := adopt_matches hfresh hmatch (Prod.ext rfl (by simpa using hok))
          have hadopt : (t.adopt fresh).1.ColumnsMatch := ⟨by rw [hdesc]; exact hfresh, .inr hmatch'⟩
          split
          · refine hadopt.congr ?_
            split
            · exact remapTable_columns dec ..
            · exact remapTable_columns dec ..
          · exact hadopt

theorem Reached.columnsMatch {t : Table} (h : t.Reached dec) : t.ColumnsMatch := by
  induction h with
  | opened hopen ht hdesc => exact openTables_columnsMatch hopen ht hdesc
  | attached hattach hdesc => exact attach_columnsMatch hattach hdesc
  | resumed | drift | flush | compactionSkipped => rename_i ih; exact ih.congr rfl
  | resume _ _ _ _ _ _ ih => exact ih.congr (resume_columns dec ..)
  | @commit t now lsn op _ ih =>
    have heq := t.commitOp_address now lsn op
    exact ih.congr (congrArg (fun a : TableDesc × DeltaSink => (a.1, a.2.deltaCols)) heq)
  | compacted hdone _ ih =>
    exact ih.congr (Prod.ext rfl (DeltaSink.compact_done hdone).2.2)
  | remapStep _ _ _ _ _ henv _ ih => exact remapStep_columnsMatch _ _ _ _ _ henv ih
  | remapTable _ _ _ _ _ ih => exact ih.congr (remapTable_columns dec ..)

end Table

/-! ## Both drivers -/

/-- What the server answers about columns. -/
structure PgEnv.WellFormed (env : PgEnv) : Prop where
  discover : ∀ name desc, env.discover name = some desc → desc.WellFormed
  discoverByOid : ∀ oid desc, env.discoverByOid oid = some desc → desc.WellFormed

def Engine.Reached (dec : TupleDecoder) (e : Engine) : Prop := ∀ t ∈ e.tables, t.Reached dec

section Drivers

variable {dec : TupleDecoder} {env : PgEnv} {cfg : Config}

theorem forall_mem_modify {α : Type*} {P : α → Prop} {f : α → α} (hf : ∀ a, P a → P (f a))
    {l : List α} (h : ∀ a ∈ l, P a) (i : Nat) : ∀ a ∈ l.modify i f, P a := by
  intro a ha
  obtain ⟨k, hk⟩ := List.getElem?_of_mem ha
  rw [List.getElem?_modify] at hk
  obtain ⟨b, hb, rfl⟩ := Option.map_eq_some_iff.mp hk
  have hb := h b (List.mem_of_getElem? hb)
  split
  · exact hf b hb
  · exact hb

namespace Engine.Reached

variable {e : Engine}

theorem applyEffect (h : e.Reached dec) (now : Instant) (lsn : Lsn) (eff : Effect) :
    (e.applyEffect now lsn eff).Reached dec := by
  cases eff with
  | commit xid subxids =>
    have hops : ∀ (ops : List PendingOp) (ts : List Table), (∀ t ∈ ts, t.Reached dec) →
        ∀ t ∈ commitOps now lsn ts ops, t.Reached dec := by
      intro ops
      induction ops with
      | nil => exact fun ts hts => hts
      | cons p ops ih =>
        intro ts hts
        rw [commitOps, List.foldl_cons, ← commitOps]
        exact ih _ (forall_mem_modify (fun t ht => ht.commit now lsn p.op) hts p.table)
    exact hops _ e.tables h
  | drift table => exact forall_mem_modify (fun _ ht => ht.drift) h table
  | skip | suspect | toastChunk | ops | abort => exact h

theorem flushAll (h : e.Reached dec) (ok : AppendOk) (now : Instant) (persisted : Lsn) :
    (e.flushAll ok now persisted).1.Reached dec := by
  simp only [Engine.flushAll]
  split
  · exact h
  · intro t' ht'
    obtain ⟨k, hk⟩ := List.getElem?_of_mem ht'
    obtain ⟨t, ht, hcase⟩ := flushTables_cases hk
    have ht := h t (List.mem_of_getElem? ht)
    rcases hcase with rfl | ⟨-, rfl⟩
    · exact ht
    · exact ht.flush _

theorem maybeCompact (h : e.Reached dec) : e.maybeCompact.1.Reached dec := by
  simp only [Engine.maybeCompact]
  split
  · exact h
  · intro t' ht'
    obtain ⟨k, hk⟩ := List.getElem?_of_mem ht'
    obtain ⟨t, ht, hcase⟩ := compactTables_stepped hk
    have ht := h t (List.mem_of_getElem? ht)
    rcases hcase with rfl | ⟨-, -, rfl | ⟨sink, before, after, hdone, rfl⟩⟩
    · exact ht
    · exact ht.compactionSkipped
    · exact ht.compacted hdone

theorem remapCheck (h : e.Reached dec) (henv : env.WellFormed) (now : Instant)
    (ddlLsn persisted : Lsn) :
    (e.remapCheck dec env cfg now ddlLsn persisted).1.Reached dec := by
  generalize hres : e.remapCheck dec env cfg now ddlLsn persisted = res
  obtain ⟨e', persisted', ok⟩ := res
  obtain ⟨e₁, flushed, hflush, hcase⟩ := remapCheck_cases hres
  have h₁ : e₁.Reached dec := by
    have := h.flushAll env.appendOk now persisted
    rwa [hflush] at this
  rcases hcase with ⟨-, -, rfl⟩ | ⟨-, nodes, tables, changed, done, htables, hcase⟩
  · exact h₁
  · have h₂ : ∀ t ∈ tables, t.Reached dec := by
      intro t' ht'
      obtain ⟨k, hk⟩ := List.getElem?_of_mem ht'
      obtain ⟨t, ht, hstep⟩ := remapTables_cases (by rw [htables]; exact hk)
      have ht := h₁ t (List.mem_of_getElem? ht)
      rcases hstep with rfl | rfl
      · exact ht
      · exact ht.remapStep env now _ ddlLsn _ fun fresh hfresh => henv.discoverByOid _ fresh hfresh
    rcases hcase with ⟨-, -, rfl⟩ | ⟨-, -, e₂, he₂, hcase⟩
    · exact h₂
    · obtain ⟨new, hnew, hattach⟩ := attachNew_tables dec env cfg
        { e₁ with catalogRels := nodes, tables }
      have h₃ : e₂.Reached dec := by
        intro t ht
        rw [he₂, hnew] at ht
        rcases List.mem_append.mp ht with ht | ht
        · exact h₂ t ht
        · obtain ⟨ti, entry, -, hentry⟩ := hattach t ht
          obtain ⟨s, hdisc, -⟩ := Table.attach_some hentry
          exact .attached hentry (henv.discover _ _ hdisc)
      rcases hcase with rfl | rfl
      · exact h₃
      · exact h₃

theorem resnapshotTables (h : e.Reached dec) (now : Instant) (select : Table → Option RemapArgs) :
    ∀ t ∈ (Ltap.resnapshotTables dec env now select 0 e.tables).1, t.Reached dec := by
  have hall : ∀ (ts : List Table) (i : Nat), (∀ t ∈ ts, t.Reached dec) →
      ∀ t ∈ (Ltap.resnapshotTables dec env now select i ts).1, t.Reached dec := by
    intro ts
    induction ts with
    | nil => exact fun i h => h
    | cons t ts ih =>
      intro i h
      simp only [List.mem_cons, forall_eq_or_imp] at h
      have ih := ih (i + 1) h.2
      simp only [Ltap.resnapshotTables]
      split
      · simpa using ⟨h.1, ih⟩
      · rename_i args _
        have ht := h.1.remapTable now args (env.snapshot t.desc) (env.appendOk i)
        split
        · simpa using ⟨ht, ih⟩
        · simpa using ⟨ht, h.2⟩
  exact hall e.tables 0 h

end Engine.Reached

/-- The loop starts with reachable tables. -/
theorem MainState.start_reached {now : Instant} {descs : List TableDesc} {opened : List Table}
    {slotRestart : Option Lsn} {flushLsn : Lsn} {oracle : Option Oracle} {m : MainState}
    (henv : env.WellFormed) (hdescs : discoverAll env cfg = some descs)
    (hopen : openTables env cfg descs = some opened)
    (h : start dec env cfg now opened slotRestart flushLsn oracle = some m) :
    m.engine.Reached dec := by
  simp only [start] at h
  generalize hres : resumeTables dec env cfg now oracle.isSome 0 opened = res at h
  obtain ⟨booted, cands, ok⟩ := res
  split at h
  · obtain ⟨engine, hbuild, rfl⟩ := Option.map_eq_some_iff.mp h
    intro t' ht'
    rw [(buildEngine_some hbuild).1] at ht'
    obtain ⟨k, hk⟩ := List.getElem?_of_mem ht'
    obtain ⟨t, ht, hcase⟩ := resumeTables_cases (by rw [hres]; exact hk)
    have ht := List.mem_of_getElem? ht
    obtain ⟨name, hname⟩ := discoverAll_mem hdescs (openTables_mem hopen ht).1
    have hreached : t.Reached dec := .opened hopen ht (henv.discover name _ hname)
    rcases hcase with rfl | rfl
    · exact hreached
    · exact hreached.resume env cfg now oracle.isSome _
  · cases h

namespace MainState

variable {s : MainState}

theorem handleRecords_reached (now : Instant) (recs : List (Lsn × Bytes)) {e : Engine}
    (h : e.Reached dec) : (handleRecords dec now recs e).1.Reached dec := by
  induction recs generalizing e with
  | nil => exact h
  | cons rec recs ih =>
    simp only [handleRecords]
    split
    · exact ih (h.applyEffect now _ _)
    · exact h
    · exact ih h

theorem receive_reached (h : s.engine.Reached dec) (now : Instant) (startLsn walEnd : Lsn)
    (data : Bytes) : (s.receive dec now startLsn walEnd data).1.engine.Reached dec := by
  simp only [receive]
  split
  · exact h
  · exact handleRecords_reached now _ h

theorem checkRemap_reached (h : s.engine.Reached dec) (henv : env.WellFormed) (now : Instant) :
    (s.checkRemap dec env cfg now).1.engine.Reached dec := by
  simp only [checkRemap]
  split
  · exact h
  · rename_i ddlLsn _
    have h : Engine.Reached dec { s.engine with remapAt := none } := h
    exact h.remapCheck henv now ddlLsn s.persistedRestart

theorem flush_reached (h : s.engine.Reached dec) (now : Instant) :
    (s.flush env now).1.engine.Reached dec := by
  have h := h.flushAll env.appendOk now s.persistedRestart
  simp only [flush]
  split
  · exact h.maybeCompact
  · exact h

/-- An iteration of the replication loop keeps them reachable. -/
theorem iterate_reached (h : s.engine.Reached dec) (henv : env.WellFormed) (now : Instant)
    (input : MainInput) : (s.iterate dec env cfg now input).1.engine.Reached dec := by
  cases input with
  | xlogData startLsn walEnd data =>
    have hrecv := receive_reached h now startLsn walEnd data
    simp only [iterate]
    split
    · exact hrecv
    · generalize (s.receive dec now startLsn walEnd data).1 = s₁ at hrecv
      have hcheck : (s₁.checkRemap dec env cfg now).1.engine.Reached dec :=
        checkRemap_reached hrecv henv now
      have happlied : (s₁.checkRemap dec env cfg now).1.setApplied.engine.Reached dec := hcheck
      split
      · exact hcheck
      · split
        · exact flush_reached happlied now
        · exact happlied
  | keepalive walEnd replyRequested =>
    simp only [iterate]
    split
    · exact h
    · exact h
  | flushTick =>
    have hflush : (s.flush env now).1.engine.Reached dec := flush_reached h now
    simp only [iterate]
    split
    · split
      · exact hflush
      · exact hflush
    · exact h
  | statusTick => exact h

end MainState

namespace EmbedState

variable {s : EmbedState}

theorem checkGap_reached (h : s.engine.Reached dec) (now : Instant) (ev : SourceEvent) :
    (s.checkGap dec env now ev).1.engine.Reached dec := by
  simp only [checkGap]
  split
  · exact h.resnapshotTables now _
  · exact h

theorem handleEvent_reached {e : Engine} (h : e.Reached dec) (now : Instant) (ev : SourceEvent) :
    (handleEvent dec e env now ev).1.Reached dec := by
  cases ev with
  | raw lsn bytes =>
    simp only [handleEvent]
    split
    · exact h.applyEffect now lsn _
    · exact h
    · exact h
  | commit lsn xid subxids => exact h.applyEffect now lsn (.commit xid subxids)
  | abort | progress => exact h
  | smgrCreate xid db =>
    simp only [handleEvent, Engine.handleSmgrCreate]
    split
    · exact h
    · exact h
  | lost count => exact Engine.Reached.resnapshotTables h now _

theorem checkRemap_reached (h : s.engine.Reached dec) (henv : env.WellFormed) (now : Instant) :
    (s.checkRemap dec env cfg now).1.engine.Reached dec := by
  simp only [checkRemap]
  split
  · exact h
  · rename_i ddlLsn _
    have h : Engine.Reached dec { s.engine with remapAt := none } := h
    exact h.remapCheck henv now ddlLsn s.persistedRestart

theorem flush_reached (h : s.engine.Reached dec) (now : Instant) :
    (s.flush env now).1.engine.Reached dec := by
  have h := h.flushAll env.appendOk now s.persistedRestart
  simp only [flush]
  split
  · exact h.maybeCompact
  · exact h

/-- A turn of the embedded driver keeps them reachable. -/
theorem step_reached (h : s.engine.Reached dec) (henv : env.WellFormed) (now : Instant)
    (input : Input) : (s.step dec env cfg now input).1.engine.Reached dec := by
  cases input with
  | event ev =>
    have hgap : (s.checkGap dec env now ev).1.engine.Reached dec := checkGap_reached h now ev
    simp only [step]
    split
    · exact hgap
    · generalize (s.checkGap dec env now ev).1 = s₁ at hgap
      have hev : (handleEvent dec s₁.engine env now ev).1.Reached dec :=
        handleEvent_reached hgap now ev
      generalize handleEvent dec s₁.engine env now ev = res at hev
      split
      · exact hev
      · have hcheck : (({ s₁ with engine := res.1 } : EmbedState).checkRemap dec env cfg
            now).1.engine.Reached dec := checkRemap_reached hev henv now
        split
        · exact hcheck
        · split
          · exact flush_reached hcheck now
          · exact hcheck
  | flushTick =>
    simp only [step]
    split
    · exact flush_reached h now
    · exact h

end EmbedState

end Drivers

end Ltap
