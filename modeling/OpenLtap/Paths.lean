-- SUMMARY: When every table keeps one Delta path of its own across DDL and restarts.
import Mathlib.Logic.Relation
import OpenLtap.Engine.Sinks

/-!
# Table paths

A tracked table is followed by its oid, but the path of its Delta table comes from the
name it has when it is opened. Names move between tables: a rename frees one, and a new
table may take it.
-/

namespace Ltap

/-- The tables of the public schema. Oids and names are unique. -/
structure Catalog where
  entries : List (Oid × String)
  oids_nodup : (entries.map (·.1)).Nodup
  names_nodup : (entries.map (·.2)).Nodup

namespace Catalog

theorem name_eq (c : Catalog) {o : Oid} {n n' : String} (h : (o, n) ∈ c.entries)
    (h' : (o, n') ∈ c.entries) : n = n' :=
  (Prod.ext_iff.mp (List.inj_on_of_nodup_map c.oids_nodup h h' rfl)).2

theorem oid_eq (c : Catalog) {o o' : Oid} {n : String} (h : (o, n) ∈ c.entries)
    (h' : (o', n) ∈ c.entries) : o = o' :=
  (Prod.ext_iff.mp (List.inj_on_of_nodup_map c.names_nodup h h' rfl)).1

end Catalog

/-- The server answers from this catalog. -/
structure PgEnv.Answers (env : PgEnv) (c : Catalog) : Prop where
  discover : ∀ name desc, env.discover name = some desc → (desc.oid, desc.name) ∈ c.entries
  discoverByOid : ∀ oid desc, env.discoverByOid oid = some desc → desc.oid = oid

theorem deltaUri_injective (lake : String) : Function.Injective (deltaUri lake) := by
  intro n n' h
  have h := String.ofList_injective h
  exact String.toList_injective (by simpa using h)

/-! ## The installation -/

/-- A table came under management: its name at the time, and where its Delta table is. -/
structure Opening where
  oid : Oid
  name : String
  uri : String
deriving DecidableEq

def Table.opening (t : Table) : Opening := ⟨t.desc.oid, t.desc.name, t.sink.uri⟩

structure Installation where
  catalog : Catalog
  /-- The running process, if there is one. -/
  process : Option MainState
  /-- Every table that any process has opened so far. -/
  opened : List Opening

/-- The tables that an iteration may attach: after a message that asks for a catalog check,
the listed ones that are not tracked and did not fail before. -/
def MainState.candidates (dec : TupleDecoder) (m : MainState) (it : Iteration) : List TableDesc :=
  match it.input with
  | .xlogData startLsn walEnd data =>
    if (m.receive dec it.now startLsn walEnd data).1.engine.remapAt.isSome then
      (tablesToAttach (m.engine.tables.map (·.desc.oid)).toFinset m.engine.attachFailed
        (it.env.listTables.getD [])).filterMap fun (_, name) => it.env.discover name
    else []
  | _ => []

namespace Installation

/-- One step, with the tables that it may open. -/
inductive Step (dec : TupleDecoder) (cfg : Config) :
    Installation → List TableDesc → Installation → Prop where
  /-- Tables are created, dropped, or renamed. -/
  | ddl {s : Installation} (catalog : Catalog) : Step dec cfg s [] { s with catalog }
  | stop {s : Installation} : Step dec cfg s [] { s with process := none }
  /-- A start opens the discovered tables, also when it fails afterwards. -/
  | start {s : Installation} (env : PgEnv) (now : Instant) (descs : List TableDesc)
      (opened : List Table) (slotRestart : Option Lsn) (flushLsn : Lsn) (oracle : Option Oracle) :
    env.Answers s.catalog → discoverAll env cfg = some descs →
    openTables env cfg descs = some opened →
    Step dec cfg s descs { s with
      process := MainState.start dec env cfg now opened slotRestart flushLsn oracle
      opened := s.opened ++ opened.map Table.opening }
  /-- One iteration of the loop. Newly attached tables stand behind the others. -/
  | iterate {s : Installation} {m m' : MainState} (it : MainState.Iteration) (ok : Bool) :
    it.env.Answers s.catalog → s.process = some m →
    m.iterate dec it.env cfg it.now it.input = (m', ok) →
    Step dec cfg s (m.candidates dec it) { s with
      process := if ok then some m' else none
      opened := s.opened ++ (m'.engine.tables.drop m.engine.tables.length).map Table.opening }

/-- The tables of the running process. -/
def tables (s : Installation) : List Table := (s.process.map (·.engine.tables)).getD []

end Installation

/-- A table that may be opened was opened under its present name if ever before, and no
other table was opened under that name before, in this process or in an earlier one. -/
def NamesKept (opened : List Opening) (opens : List TableDesc) : Prop :=
  ∀ d ∈ opens, ∀ a ∈ opened, a.oid = d.oid ↔ a.name = d.name

/-- The path is an injective function of the oid over all tables that were ever opened, and
the tables that are open now are among them. -/
structure StablePaths (opened : List Opening) (ts : List Table) : Prop where
  stable : ∀ a ∈ opened, ∀ b ∈ opened, a.oid = b.oid → a.uri = b.uri
  injective : ∀ a ∈ opened, ∀ b ∈ opened, a.oid ≠ b.oid → a.uri ≠ b.uri
  tracked : ∀ t ∈ ts, ∃ a ∈ opened, a.oid = t.desc.oid ∧ a.uri = t.sink.uri

/-! ## One iteration -/

/-- What a table is followed by, and where it is stored. -/
def Table.identity (t : Table) : Oid × String := (t.desc.oid, t.sink.uri)

/-- What only a catalog check changes. -/
def Table.place (t : Table) : TableDesc × String := (t.desc, t.sink.uri)

theorem identities_of_places {ts ts' : List Table} (h : ts'.map Table.place = ts.map Table.place) :
    ts'.map Table.identity = ts.map Table.identity := by
  have hid : Table.identity = (fun p : TableDesc × String => (p.1.oid, p.2)) ∘ Table.place := rfl
  rw [hid, ← List.map_map, h, List.map_map]

theorem places_of_addresses {ts ts' : List Table}
    (h : ts'.map Table.address = ts.map Table.address) :
    ts'.map Table.place = ts.map Table.place := by
  have hplace : Table.place = (fun a : TableDesc × DeltaSink => (a.1, a.2.uri)) ∘ Table.address := rfl
  rw [hplace, ← List.map_map, h, List.map_map]

theorem flushTables_places (ok : AppendOk) (restart : Lsn) (i : Nat) (ts : List Table) :
    (flushTables ok restart i ts).1.map Table.place = ts.map Table.place := by
  induction ts generalizing i with
  | nil => rfl
  | cons t ts ih =>
    simp only [flushTables]
    split
    · simp [ih]
    · split
      · simp [ih, Table.place, Table.flush]
      · rfl

theorem Engine.flushAll_places (e : Engine) (ok : AppendOk) (now : Instant) (persisted : Lsn) :
    (e.flushAll ok now persisted).1.tables.map Table.place = e.tables.map Table.place := by
  simp only [flushAll]
  split
  · rfl
  · exact flushTables_places ok e.restartLsn 0 e.tables

theorem Engine.maybeCompact_places (e : Engine) :
    e.maybeCompact.1.tables.map Table.place = e.tables.map Table.place := by
  simp only [maybeCompact]
  split
  · rfl
  · have hcompact : ∀ ts : List Table,
        (compactTables e.compactRows ts).1.map Table.place = ts.map Table.place := by
      intro ts
      induction ts with
      | nil => rfl
      | cons t ts ih =>
        simp only [compactTables]
        split
        · simp [ih]
        · split
          · rfl
          · simp [ih, Table.place]
          · rename_i hdone
            simp [ih, Table.place, (DeltaSink.compact_done hdone).1]
    exact hcompact e.tables

theorem MainState.flush_places (s : MainState) (env : PgEnv) (now : Instant) :
    (s.flush env now).1.engine.tables.map Table.place = s.engine.tables.map Table.place := by
  have hflush := s.engine.flushAll_places env.appendOk now s.persistedRestart
  simp only [flush]
  generalize s.engine.flushAll env.appendOk now s.persistedRestart = res at hflush
  obtain ⟨e, p, ok⟩ := res
  split
  · exact e.maybeCompact_places.trans hflush
  · exact hflush

theorem remapTables_identities (dec : TupleDecoder) {env : PgEnv} {c : Catalog}
    (henv : env.Answers c) (now : Instant) (ddlLsn restart : Lsn) (i : Nat) (ts : List Table) :
    (remapTables dec env now ddlLsn restart i ts).1.map Table.identity =
      ts.map Table.identity := by
  have hstep : ∀ (t : Table) (i : Nat),
      (t.remapStep dec env now i ddlLsn restart).table.identity = t.identity := by
    intro t i
    exact Prod.ext (t.remapStep_oid dec env now i ddlLsn restart
      fun fresh h => henv.discoverByOid _ fresh h) (t.remapStep_spec dec env now i ddlLsn restart).1
  induction ts generalizing i with
  | nil => rfl
  | cons t ts ih =>
    simp only [remapTables]
    split
    · simp [ih, hstep]
    · simp [hstep]

/-- The same tables, perhaps with some of `opens` behind them. -/
def Follows (cfg : Config) (opens : List TableDesc) (ts ts' : List Table) : Prop :=
  ∃ kept new, ts' = kept ++ new ∧ kept.map Table.identity = ts.map Table.identity ∧
    ∀ t ∈ new, t.sink.uri = deltaUri cfg.lake t.desc.name ∧ t.desc ∈ opens

namespace Follows

variable {cfg : Config} {opens : List TableDesc} {ts ts' ts'' : List Table}

theorem of_identities (h : ts'.map Table.identity = ts.map Table.identity) :
    Follows cfg opens ts ts' :=
  ⟨ts', [], by simp, h, by simp⟩

theorem before (h : Follows cfg opens ts ts')
    (h₀ : ts.map Table.identity = ts''.map Table.identity) : Follows cfg opens ts'' ts' := by
  obtain ⟨kept, new, heq, hkept, hnew⟩ := h
  exact ⟨kept, new, heq, hkept.trans h₀, hnew⟩

theorem of_places (h : Follows cfg opens ts ts')
    (hplaces : ts''.map Table.place = ts'.map Table.place) : Follows cfg opens ts ts'' := by
  obtain ⟨kept, new, rfl, hkept, hnew⟩ := h
  rw [List.map_append] at hplaces
  obtain ⟨kept', new', rfl, hkept', hnew'⟩ := List.map_eq_append_iff.mp hplaces
  refine ⟨kept', new', rfl, (identities_of_places hkept').trans hkept, fun t' ht' => ?_⟩
  have hmem : t'.place ∈ new.map Table.place := hnew' ▸ List.mem_map_of_mem ht'
  obtain ⟨t, ht, heq⟩ := List.mem_map.mp hmem
  obtain ⟨hdesc, huri⟩ := Prod.ext_iff.mp heq
  simp only [Table.place] at hdesc huri
  rw [← hdesc, ← huri]
  exact hnew t ht

end Follows

theorem oids_of_identities {ts ts' : List Table}
    (h : ts'.map Table.identity = ts.map Table.identity) :
    ts'.map (·.desc.oid) = ts.map (·.desc.oid) := by
  have hoid : (fun t : Table => t.desc.oid) = Prod.fst ∘ Table.identity := rfl
  rw [hoid, ← List.map_map, h, List.map_map]

theorem Engine.remapCheck_follows {dec : TupleDecoder} {e e' : Engine} {env : PgEnv}
    {cfg : Config} {now : Instant} {ddlLsn persisted persisted' : Lsn} {ok : Bool} {c : Catalog}
    (henv : env.Answers c)
    (h : e.remapCheck dec env cfg now ddlLsn persisted = (e', persisted', ok)) :
    Follows cfg ((tablesToAttach (e.tables.map (·.desc.oid)).toFinset e.attachFailed
      (env.listTables.getD [])).filterMap fun (_, name) => env.discover name) e.tables e'.tables := by
  obtain ⟨e₁, flushed, hflush, hcase⟩ := remapCheck_cases h
  have hid : e₁.tables.map Table.identity = e.tables.map Table.identity := by
    have := identities_of_places (e.flushAll_places env.appendOk now persisted)
    rwa [hflush] at this
  have hfailed : e₁.attachFailed = e.attachFailed := by
    have hsame : (e.flushAll env.appendOk now persisted).1.attachFailed = e.attachFailed := by
      simp only [flushAll]
      split
      · rfl
      · rfl
    rwa [hflush] at hsame
  rcases hcase with ⟨-, -, rfl⟩ | ⟨-, nodes, tables, changed, done, htables, hcase⟩
  · exact .of_identities hid
  · have hid₂ : tables.map Table.identity = e.tables.map Table.identity := by
      have := remapTables_identities dec henv now ddlLsn e₁.restartLsn 0 e₁.tables
      rw [htables] at this
      exact this.trans hid
    rcases hcase with ⟨-, -, rfl⟩ | ⟨-, -, e₂, he₂, hcase⟩
    · exact .of_identities hid₂
    · obtain ⟨new, hnew, hattach⟩ := attachNew_tables dec env cfg { e₁ with catalogRels := nodes, tables }
      simp only [oids_of_identities hid₂, hfailed] at hattach
      have hfollows : Follows cfg ((tablesToAttach (e.tables.map (·.desc.oid)).toFinset
          e.attachFailed (env.listTables.getD [])).filterMap fun (_, name) => env.discover name)
          e.tables e₂.tables := by
        refine ⟨tables, new, by rw [he₂, hnew], hid₂, fun t ht => ?_⟩
        obtain ⟨ti, entry, hentry, hname⟩ := hattach t ht
        obtain ⟨s, hdisc, -, huri, -⟩ := Table.attach_some hname
        exact ⟨huri, List.mem_filterMap.mpr ⟨entry, hentry, hdisc⟩⟩
      rcases hcase with rfl | rfl
      · exact hfollows
      · exact hfollows

namespace MainState

theorem checkRemap_follows (dec : TupleDecoder) (cfg : Config) {env : PgEnv} {c : Catalog}
    (henv : env.Answers c) (s : MainState) (now : Instant) :
    Follows cfg (if s.engine.remapAt.isSome then
        (tablesToAttach (s.engine.tables.map (·.desc.oid)).toFinset s.engine.attachFailed
          (env.listTables.getD [])).filterMap fun (_, name) => env.discover name
      else []) s.engine.tables (s.checkRemap dec env cfg now).1.engine.tables := by
  simp only [checkRemap]
  cases hat : s.engine.remapAt with
  | none => exact .of_identities rfl
  | some ddlLsn =>
    simp only [Option.isSome_some, if_true]
    generalize hres : Engine.remapCheck dec _ env cfg now ddlLsn s.persistedRestart = res
    obtain ⟨e', p', ok⟩ := res
    have hfollows := Engine.remapCheck_follows henv hres
    exact hfollows

/-- An iteration, also one that stops the process, follows the tables and may attach new
ones. -/
theorem iterate_follows (dec : TupleDecoder) (cfg : Config) {it : Iteration} {c : Catalog}
    (henv : it.env.Answers c) (s : MainState) :
    Follows cfg (s.candidates dec it) s.engine.tables
      (s.iterate dec it.env cfg it.now it.input).1.engine.tables := by
  obtain ⟨env, now, input⟩ := it
  cases input with
  | xlogData startLsn walEnd data =>
    have hplaces := places_of_addresses (receive_addresses dec s now startLsn walEnd data)
    have hids := identities_of_places hplaces
    have hfailed := receive_attachFailed dec s now startLsn walEnd data
    have hcheck := checkRemap_follows dec cfg henv
      (s.receive dec now startLsn walEnd data).1 now
    simp only [oids_of_identities hids, hfailed] at hcheck
    have hcheck : Follows cfg (s.candidates dec ⟨env, now, .xlogData startLsn walEnd data⟩)
        s.engine.tables _ := hcheck.before hids
    simp only [iterate]
    split
    · exact .of_identities hids
    · split
      · exact hcheck
      · split
        · exact hcheck.of_places ((MainState.setApplied _).flush_places env now)
        · exact hcheck
  | keepalive walEnd replyRequested =>
    simp only [iterate]
    split
    · exact .of_identities rfl
    · exact .of_identities rfl
  | flushTick =>
    have hflush := identities_of_places (s.flush_places env now)
    simp only [iterate]
    split
    · split
      · exact .of_identities hflush
      · exact .of_identities hflush
    · exact .of_identities rfl
  | statusTick => exact .of_identities rfl

/-- The server has every table that an iteration may attach. -/
theorem candidates_mem {dec : TupleDecoder} {s : MainState} {it : Iteration} {c : Catalog}
    (henv : it.env.Answers c) {d : TableDesc} (hd : d ∈ s.candidates dec it) :
    (d.oid, d.name) ∈ c.entries := by
  simp only [candidates] at hd
  split at hd
  · split at hd
    · obtain ⟨entry, -, hentry⟩ := List.mem_filterMap.mp hd
      exact henv.discover _ _ hentry
    · cases hd
  · cases hd

theorem resumeTables_places (dec : TupleDecoder) (env : PgEnv) (cfg : Config) (now : Instant)
    (oraclePreimages : Bool) (i : Nat) (ts : List Table) :
    (resumeTables dec env cfg now oraclePreimages i ts).1.map Table.place =
      ts.map Table.place := by
  have hresume : ∀ (t : Table) (i : Nat),
      (t.resume dec env cfg now oraclePreimages i).1.place = t.place := by
    intro t i
    obtain ⟨hdesc, huri⟩ := t.resume_spec dec env cfg now oraclePreimages i
    exact Prod.ext hdesc huri
  induction ts generalizing i with
  | nil => rfl
  | cons t ts ih =>
    simp only [resumeTables]
    split
    · simp [ih, hresume]
    · simp [hresume]

/-- A started process has the tables that were opened. -/
theorem start_places {dec : TupleDecoder} {cfg : Config} {env : PgEnv} {now : Instant}
    {opened : List Table} {slotRestart : Option Lsn} {flushLsn : Lsn} {oracle : Option Oracle}
    {m : MainState} (h : start dec env cfg now opened slotRestart flushLsn oracle = some m) :
    m.engine.tables.map Table.place = opened.map Table.place := by
  have hplaces := resumeTables_places dec env cfg now oracle.isSome 0 opened
  simp only [start] at h
  generalize resumeTables dec env cfg now oracle.isSome 0 opened = res at h hplaces
  obtain ⟨booted, cands, ok⟩ := res
  split at h
  · obtain ⟨engine, hbuild, rfl⟩ := Option.map_eq_some_iff.mp h
    rw [← hplaces, (buildEngine_some hbuild).1]
  · cases h

end MainState

/-! ## Runs -/

/-- Each table is at the path of the name it was opened under, and oids and names stand
for each other. -/
structure OneName (lake : String) (opened : List Opening) : Prop where
  uri : ∀ a ∈ opened, a.uri = deltaUri lake a.name
  oid_iff : ∀ a ∈ opened, ∀ b ∈ opened, a.oid = b.oid ↔ a.name = b.name

theorem OneName.append {lake : String} {c : Catalog} {opened new : List Opening}
    (h : OneName lake opened)
    (hnew : ∀ b ∈ new, b.uri = deltaUri lake b.name ∧ (b.oid, b.name) ∈ c.entries)
    (hkept : ∀ b ∈ new, ∀ a ∈ opened, a.oid = b.oid ↔ a.name = b.name) :
    OneName lake (opened ++ new) := by
  constructor
  · intro a ha
    rcases List.mem_append.mp ha with ha | ha
    · exact h.uri a ha
    · exact (hnew a ha).1
  · intro a ha b hb
    rcases List.mem_append.mp ha with ha | ha
    · rcases List.mem_append.mp hb with hb | hb
      · exact h.oid_iff a ha b hb
      · exact hkept b hb a ha
    · rcases List.mem_append.mp hb with hb | hb
      · exact eq_comm.trans ((hkept a ha b hb).trans eq_comm)
      · -- Two tables of one catalog.
        have hca := (hnew a ha).2
        have hcb := (hnew b hb).2
        constructor
        · intro hoid
          rw [hoid] at hca
          exact c.name_eq hca hcb
        · intro hname
          rw [hname] at hca
          exact c.oid_eq hca hcb

/-- The open tables were opened at their paths. -/
def OnRecord (opened : List Opening) (ts : List Table) : Prop :=
  ∀ t ∈ ts, ∃ a ∈ opened, a.oid = t.desc.oid ∧ a.uri = t.sink.uri

theorem OneName.stablePaths {lake : String} {opened : List Opening} {ts : List Table}
    (h : OneName lake opened) (hts : OnRecord opened ts) : StablePaths opened ts where
  stable a ha b hb hoid := by
    rw [h.uri a ha, h.uri b hb, (h.oid_iff a ha b hb).mp hoid]
  injective a ha b hb hoid huri := by
    rw [h.uri a ha, h.uri b hb] at huri
    exact hoid ((h.oid_iff a ha b hb).mpr (deltaUri_injective lake huri))
  tracked := hts

theorem OnRecord.follows {opened : List Opening} {ts kept new : List Table} (h : OnRecord opened ts)
    (hkept : kept.map Table.identity = ts.map Table.identity) :
    OnRecord (opened ++ new.map Table.opening) (kept ++ new) := by
  intro t ht
  rcases List.mem_append.mp ht with ht | ht
  · have hmem : t.identity ∈ ts.map Table.identity := hkept ▸ List.mem_map_of_mem ht
    obtain ⟨u, hu, heq⟩ := List.mem_map.mp hmem
    obtain ⟨a, ha, hoid, huri⟩ := h u hu
    exact ⟨a, List.mem_append_left _ ha, hoid.trans (Prod.ext_iff.mp heq).1,
      huri.trans (Prod.ext_iff.mp heq).2⟩
  · exact ⟨t.opening, List.mem_append_right _ (List.mem_map_of_mem ht), rfl, rfl⟩

namespace Installation

variable {dec : TupleDecoder} {cfg : Config} {s s' : Installation}

/-- What a run keeps: one name for each table, and a path on record for each open one. -/
structure Inv (cfg : Config) (s : Installation) : Prop where
  names : OneName cfg.lake s.opened
  tracked : OnRecord s.opened s.tables

theorem names_append {opens : List TableDesc} {new : List Table}
    (h : OneName cfg.lake s.opened) (hnames : NamesKept s.opened opens)
    (hopens : ∀ d ∈ opens, (d.oid, d.name) ∈ s.catalog.entries)
    (hnew : ∀ t ∈ new, t.sink.uri = deltaUri cfg.lake t.desc.name ∧ t.desc ∈ opens) :
    OneName cfg.lake (s.opened ++ new.map Table.opening) := by
  refine h.append (c := s.catalog) ?_ ?_
  · intro b hb
    obtain ⟨t, ht, rfl⟩ := List.mem_map.mp hb
    exact ⟨(hnew t ht).1, hopens _ (hnew t ht).2⟩
  · intro b hb a ha
    obtain ⟨t, ht, rfl⟩ := List.mem_map.mp hb
    exact hnames _ (hnew t ht).2 a ha

theorem step_inv {opens : List TableDesc} (hstep : Step dec cfg s opens s')
    (hnames : NamesKept s.opened opens) (h : s.Inv cfg) : s'.Inv cfg := by
  cases hstep with
  | ddl catalog => exact ⟨h.names, h.tracked⟩
  | stop => exact ⟨h.names, by simp [OnRecord, tables]⟩
  | start env now _ opened slotRestart flushLsn oracle henv hdescs hopen =>
    have hopens : ∀ d ∈ opens, (d.oid, d.name) ∈ s.catalog.entries := by
      intro d hd
      obtain ⟨name, hname⟩ := discoverAll_mem hdescs hd
      exact henv.discover name d hname
    refine ⟨names_append h.names hnames hopens fun t ht => (openTables_mem hopen ht).symm, ?_⟩
    cases hstart : MainState.start dec env cfg now opened slotRestart flushLsn oracle with
    | none => simp [OnRecord, tables]
    | some m =>
      intro t ht
      have ht : t ∈ m.engine.tables := by simpa [tables] using ht
      -- Starting changes no descriptor and no path.
      have hmem : t.place ∈ opened.map Table.place :=
        MainState.start_places hstart ▸ List.mem_map_of_mem ht
      obtain ⟨u, hu, heq⟩ := List.mem_map.mp hmem
      obtain ⟨hdesc, huri⟩ := Prod.ext_iff.mp heq
      simp only [Table.place] at hdesc huri
      exact ⟨u.opening, List.mem_append_right _ (List.mem_map_of_mem hu),
        congrArg TableDesc.oid hdesc, huri⟩
  | @iterate m m' it ok henv hproc hit =>
    have hts : OnRecord s.opened m.engine.tables := by
      simpa [tables, hproc] using h.tracked
    obtain ⟨kept, new, heq, hkept, hnew⟩ := MainState.iterate_follows dec cfg henv m
    rw [hit] at heq
    have hdrop : m'.engine.tables.drop m.engine.tables.length = new := by
      have hlen : kept.length = m.engine.tables.length := by
        simpa using congrArg List.length hkept
      rw [heq, ← hlen, List.drop_left]
    rw [hdrop]
    refine ⟨names_append h.names hnames (fun d hd => MainState.candidates_mem henv hd) hnew, ?_⟩
    cases ok with
    | false => simp [OnRecord, tables]
    | true =>
      have hfollows : OnRecord (s.opened ++ new.map Table.opening) (kept ++ new) := hts.follows hkept
      rw [← heq] at hfollows
      exact hfollows

/-- Any step. -/
def AnyStep (dec : TupleDecoder) (cfg : Config) (s s' : Installation) : Prop :=
  ∃ opens, Step dec cfg s opens s'

/-- A step that opens tables only under names of their own. -/
def NamesKeptStep (dec : TupleDecoder) (cfg : Config) (s s' : Installation) : Prop :=
  ∃ opens, Step dec cfg s opens s' ∧ NamesKept s.opened opens

/-- Before the first process. -/
def Initial (s : Installation) : Prop := s.process = none ∧ s.opened = []

/-- In a run in which every table is always opened under the name it was first opened under,
and never under one that another table was opened under before, in any process, no two
tables that were ever open share a path and each keeps its first one. -/
theorem stablePaths_of_run {s₀ : Installation} (h₀ : s₀.Initial)
    (hrun : Relation.ReflTransGen (NamesKeptStep dec cfg) s₀ s) :
    StablePaths s.opened s.tables := by
  have hinv : s.Inv cfg := by
    induction hrun with
    | refl =>
      constructor
      · rw [h₀.2]
        exact ⟨by simp, by simp⟩
      · simp [OnRecord, tables, h₀.1]
    | tail _ hstep ih =>
      obtain ⟨opens, hstep, hnames⟩ := hstep
      exact step_inv hstep hnames ih
  exact hinv.names.stablePaths hinv.tracked

end Installation

/-! ## A rename and a new table -/

namespace Sample

/-- WAL from 0/1000000 on: transaction 7 writes to `pg_class` and commits at 0/1000060. -/
def ddlWal : Bytes :=
  pageHeader ++ [49, 0, 0, 0, 7, 0, 0, 0, 0, 0, 0, 0, 0, 0, 0, 0, 0, 10, 0, 0, 63, 254, 200, 104, 0, 0, 0, 0,
    127, 6, 0, 0, 5, 0, 0, 0, 235, 4, 0, 0, 0, 0, 0, 0, 255, 3, 1, 0, 0, 0, 0, 0, 0, 0, 0, 0] ++
    commitRecord

/-- The process that started with table `a` alone. -/
def withA : MainState := started [desc "a" 16384] 0x1000000

/-- The catalog check after `ddlWal`, on these tables. -/
def checkDdl (descs : List TableDesc) : MainState.Iteration :=
  ⟨env descs 0x1000082, 0, .xlogData 0x1000000 0x1000082 ddlWal⟩

def afterDdl (descs : List TableDesc) : MainState × Bool :=
  withA.iterate .reject (checkDdl descs).env cfg (checkDdl descs).now (checkDdl descs).input

theorem env_answers {descs : List TableDesc} (cutover : Lsn) {c : Catalog}
    (hc : c.entries = descs.map fun d => (d.oid, d.name)) : (env descs cutover).Answers c := by
  constructor
  · intro name d hd
    rw [hc]
    exact List.mem_map.mpr ⟨d, List.mem_of_find?_eq_some hd, rfl⟩
  · intro oid d hd
    simpa using List.find?_some hd

/-- Table `a` alone. -/
def onlyA : Catalog := ⟨[(16384, "a")], by decide, by decide⟩

/-- Table `b` was created. -/
def addedB : Catalog := ⟨[(16384, "a"), (16390, "b")], by decide, by decide⟩

/-- Table `a` was renamed to `b`, and a new table took its name. -/
def reusedA : Catalog := ⟨[(16384, "b"), (16390, "a")], by decide, by decide⟩

/-- Table `a` was dropped, and a new table took its name. -/
def recreatedA : Catalog := ⟨[(16390, "a")], by decide, by decide⟩

/-- The next start finds the Delta tables that `withA` left. -/
def recreatedEnv : PgEnv :=
  { env [desc "a" 16390] 0x1000100 with
    lake := fun uri => (withA.engine.tables.find? (·.sink.uri = uri)).map (·.sink.table) }

theorem recreatedEnv_answers : recreatedEnv.Answers recreatedA where
  discover name d hd := by
    have hdesc := List.mem_of_find?_eq_some hd
    obtain rfl := List.mem_singleton.mp hdesc
    exact List.mem_singleton.mpr rfl
  discoverByOid oid d hd := by simpa using List.find?_some hd

/-- The new table, opened over the Delta table of the dropped one. -/
def reopenedA : Table :=
  Table.opened (desc "a" 16390) { sink (desc "a" 16390) with
    table := ((withA.engine.tables.map (·.sink.table)).head?).getD (sink (desc "a" 16390)).table }

end Sample

namespace Installation

open Sample in
/-- A first start, with table `a` alone. -/
theorem started_step :
    Step .reject cfg ⟨onlyA, none, []⟩ [desc "a" 16384]
      ⟨onlyA, some withA, [⟨16384, "a", deltaUri "lake" "a"⟩]⟩ := by
  have hstart : MainState.start .reject (env [desc "a" 16384] 0x1000000) cfg 0
      [Table.opened (desc "a" 16384) (sink (desc "a" 16384))] none 0 none = some withA := rfl
  rw [← hstart]
  exact .start (env [desc "a" 16384] 0x1000000) 0 [desc "a" 16384]
    [Table.opened (desc "a" 16384) (sink (desc "a" 16384))] none 0 none (env_answers _ rfl) rfl rfl

theorem iterate_step {dec : TupleDecoder} {cfg : Config} (c : Catalog) {m m' : MainState}
    (opened : List Opening) (it : MainState.Iteration) (henv : it.env.Answers c)
    (h : m.iterate dec it.env cfg it.now it.input = (m', true)) :
    Step dec cfg ⟨c, some m, opened⟩ (m.candidates dec it)
      ⟨c, some m', opened ++ (m'.engine.tables.drop m.engine.tables.length).map Table.opening⟩ :=
  .iterate it true henv rfl h

open Sample in
theorem afterDdl_iterate {descs : List TableDesc} (hok : (afterDdl descs).2 = true) :
    withA.iterate .reject (checkDdl descs).env cfg (checkDdl descs).now (checkDdl descs).input =
      ((afterDdl descs).1, true) := by
  change afterDdl descs = ((afterDdl descs).1, true)
  rw [← hok]

open Sample in
theorem stablePaths_of_run_created :
    StablePaths [⟨16384, "a", deltaUri "lake" "a"⟩, ⟨16390, "b", deltaUri "lake" "b"⟩]
        (afterDdl [desc "a" 16384, desc "b" 16390]).1.engine.tables ∧
      (afterDdl [desc "a" 16384, desc "b" 16390]).1.engine.tables.map Table.identity =
        [(16384, deltaUri "lake" "a"), (16390, deltaUri "lake" "b")] := by
  have hcands : (withA.candidates .reject (checkDdl [desc "a" 16384, desc "b" 16390])).map
      (fun d => (d.oid, d.name)) = [(16390, "b")] := by
    decide +kernel
  have hfirst : NamesKept [] [desc "a" 16384] := by
    intro d _ a ha
    cases ha
  have hnone : NamesKept [⟨16384, "a", deltaUri "lake" "a"⟩] [] := by
    intro d hd
    cases hd
  have hsecond : NamesKept [⟨16384, "a", deltaUri "lake" "a"⟩]
      (withA.candidates .reject (checkDdl [desc "a" 16384, desc "b" 16390])) := by
    intro d hd a ha
    have hmem : (d.oid, d.name) ∈ [(16390, "b")] := hcands ▸ List.mem_map_of_mem hd
    obtain ⟨hoid, hname⟩ := Prod.ext_iff.mp (List.mem_singleton.mp hmem)
    simp only at hoid hname
    obtain rfl := List.mem_singleton.mp ha
    rw [hoid, hname]
    decide
  have hcheck := iterate_step addedB [⟨16384, "a", deltaUri "lake" "a"⟩]
    (checkDdl [desc "a" 16384, desc "b" 16390]) (env_answers _ rfl) (afterDdl_iterate (by decide +kernel))
  have hstarted : NamesKeptStep .reject cfg _ _ := ⟨_, started_step, hfirst⟩
  have hrun := ((Relation.ReflTransGen.single hstarted).tail
    ⟨_, .ddl addedB, hnone⟩).tail ⟨_, hcheck, hsecond⟩
  have hopened : ((afterDdl [desc "a" 16384, desc "b" 16390]).1.engine.tables.drop
      withA.engine.tables.length).map Table.opening = [⟨16390, "b", deltaUri "lake" "b"⟩] := by
    decide +kernel
  rw [hopened] at hrun
  exact ⟨stablePaths_of_run ⟨rfl, rfl⟩ hrun, by decide +kernel⟩

open Sample in
/-- Table `a` is renamed to `b` and a new table takes the name: both are stored at `lake/a`.
Table `a` is dropped while no process runs, and a new table takes the name: the next start
opens it at `lake/a`, where the rows of the dropped one are. -/
theorem path_shared_after_name_reuse :
    (∃ opened : List Opening,
      Relation.ReflTransGen (AnyStep .reject cfg) ⟨onlyA, none, []⟩
        ⟨reusedA, some (afterDdl [desc "b" 16384, desc "a" 16390]).1, opened⟩ ∧
      (afterDdl [desc "b" 16384, desc "a" 16390]).1.engine.tables.map Table.identity =
        [(16384, deltaUri "lake" "a"), (16390, deltaUri "lake" "a")] ∧
      ¬ StablePaths opened (afterDdl [desc "b" 16384, desc "a" 16390]).1.engine.tables) ∧
    ∃ s : Installation, Relation.ReflTransGen (AnyStep .reject cfg) ⟨onlyA, none, []⟩ s ∧
      s.opened = [⟨16384, "a", deltaUri "lake" "a"⟩, ⟨16390, "a", deltaUri "lake" "a"⟩] ∧
      s.tables.map Table.identity = [(16390, deltaUri "lake" "a")] ∧
      ¬ StablePaths s.opened s.tables := by
  have hshared (opened : List Opening) (ts : List Table)
      (hopened : opened = [⟨16384, "a", deltaUri "lake" "a"⟩, ⟨16390, "a", deltaUri "lake" "a"⟩]) :
      ¬ StablePaths opened ts := by
    subst hopened
    intro h
    exact h.injective _ List.mem_cons_self ⟨16390, "a", deltaUri "lake" "a"⟩ (by simp) (by decide) rfl
  have hstarted : AnyStep .reject cfg _ _ := ⟨_, started_step⟩
  constructor
  · have hcheck := iterate_step reusedA [⟨16384, "a", deltaUri "lake" "a"⟩]
      (checkDdl [desc "b" 16384, desc "a" 16390]) (env_answers _ rfl) (afterDdl_iterate (by decide +kernel))
    have hrun := ((Relation.ReflTransGen.single hstarted).tail ⟨_, .ddl reusedA⟩).tail ⟨_, hcheck⟩
    exact ⟨_, hrun, by decide +kernel, hshared _ _ (by decide +kernel)⟩
  · have hrestart : AnyStep .reject cfg
        ⟨recreatedA, none, [⟨16384, "a", deltaUri "lake" "a"⟩]⟩
        ⟨recreatedA, MainState.start .reject recreatedEnv cfg 0 [reopenedA] none 0 none,
          [⟨16384, "a", deltaUri "lake" "a"⟩] ++ [reopenedA].map Table.opening⟩ :=
      ⟨[desc "a" 16390], .start recreatedEnv 0 _ [reopenedA] none 0 none recreatedEnv_answers rfl rfl⟩
    have hrun := (((Relation.ReflTransGen.single hstarted).tail ⟨_, .stop⟩).tail
      ⟨_, .ddl recreatedA⟩).tail hrestart
    exact ⟨_, hrun, rfl, by decide +kernel, hshared _ _ rfl⟩

end Installation

end Ltap
