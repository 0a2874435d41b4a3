-- SUMMARY: When the WAL position confirmed to the replication slot stays at or below every persisted restart position.
import OpenLtap.Engine.Sinks

/-!
# The slot position

`persisted_restart` is reported to the server as flushed, and the server may remove the
WAL before it. A later process resumes at the minimum of the restart positions that the
Delta tables store. A flush round stamps its restart position into the tables with
pending rows only, and reports the same position to the slot.
-/

namespace Ltap

/-- Every persisted restart position is at or after `p`. -/
def AtOrAfter (p : Lsn) (tables : List Table) : Prop :=
  ∀ t ∈ tables, ∀ r ∈ t.restartMark, p ≤ r

theorem AtOrAfter.of_addresses {p : Lsn} {ts ts' : List Table}
    (heq : ts'.map Table.address = ts.map Table.address) (h : AtOrAfter p ts) :
    AtOrAfter p ts' := by
  intro t' ht' r hr
  have hmem : t'.address ∈ ts.map Table.address := heq ▸ List.mem_map_of_mem ht'
  obtain ⟨t, ht, haddr⟩ := List.mem_map.mp hmem
  have hsink : t.sink = t'.sink := (Prod.ext_iff.mp haddr).2
  exact h t ht r (by rw [Table.restartMark, hsink]; exact hr)

/-! ## One flush round, one catalog check -/

namespace Engine

/-- The round that would be made now stamps a position at or after the confirmed one, and
no table that it leaves out stores an earlier position. -/
def RoundSafe (e : Engine) (persisted : Lsn) : Prop :=
  e.pendingTotal ≠ 0 → persisted ≤ e.restartLsn ∧
    ∀ t ∈ e.tables, t.pending.rows = [] → ∀ r ∈ t.restartMark, e.restartLsn ≤ r

theorem flushAll_atOrAfter {e e' : Engine} {ok : AppendOk} {now : Instant} {p p' : Lsn}
    {done : Bool} (h : e.flushAll ok now p = (e', p', done)) (hsafe : e.RoundSafe p)
    (hle : AtOrAfter p e.tables) : AtOrAfter p' e'.tables := by
  simp only [flushAll] at h
  split at h
  · cases h
    exact hle
  · rename_i hpending
    obtain ⟨hrestart, hidle⟩ := hsafe hpending
    generalize hround : flushTables ok e.restartLsn 0 e.tables = res at h
    obtain ⟨tables, completed⟩ := res
    cases h
    cases completed with
    | true =>
      intro t' ht' r hr
      rw [flushTables_done hround] at ht'
      obtain ⟨t, ht, rfl⟩ := List.mem_map.mp ht'
      split at hr
      · rename_i hrows
        exact hidle t ht hrows r hr
      · exact le_of_eq (Option.some.inj hr)
    | false =>
      intro t' ht' r hr
      obtain ⟨k, hk⟩ := List.getElem?_of_mem ht'
      obtain ⟨t, ht, rfl | ⟨-, rfl⟩⟩ := flushTables_cases (by rw [hround]; exact hk)
      · exact hle t' (List.mem_of_getElem? ht) r hr
      · exact Option.some.inj hr ▸ hrestart

/-- A re-snapshot of the catalog check is stamped at or after the confirmed position, and so
are the cutovers of the snapshots taken. -/
def RemapSafe (e : Engine) (env : PgEnv) (persisted : Lsn) : Prop :=
  (∀ t ∈ e.tables, t.Remaps env → persisted ≤ e.restartLsn) ∧
    ∀ desc s, env.snapshot desc = some s → persisted ≤ s.cutover

theorem remapCheck_atOrAfter {dec : TupleDecoder} {e e' : Engine} {env : PgEnv} {cfg : Config}
    {now : Instant} {ddlLsn p p' : Lsn} {ok : Bool}
    (h : e.remapCheck dec env cfg now ddlLsn p = (e', p', ok)) (hround : e.RoundSafe p)
    (hsafe : (e.flushAll env.appendOk now p).1.RemapSafe env (e.flushAll env.appendOk now p).2.1)
    (hle : AtOrAfter p e.tables) : AtOrAfter p' e'.tables := by
  obtain ⟨e₁, flushed, hflush, hcase⟩ := remapCheck_cases h
  have hle₁ := flushAll_atOrAfter hflush hround hle
  rw [hflush] at hsafe
  obtain ⟨hremap, hcutover⟩ := hsafe
  rcases hcase with ⟨-, -, rfl⟩ | ⟨-, nodes, tables, changed, done, htables, hcase⟩
  · exact hle₁
  · have hle₂ : AtOrAfter p' tables := by
      intro t' ht' r hr
      obtain ⟨k, hk⟩ := List.getElem?_of_mem ht'
      obtain ⟨t, ht, hstep⟩ := remapTables_cases (by rw [htables]; exact hk)
      have ht := List.mem_of_getElem? ht
      rcases hstep with rfl | rfl
      · exact hle₁ t' ht r hr
      · rcases (t.remapStep_spec dec env now (0 + k) ddlLsn e₁.restartLsn).2 with hmark | ⟨hre, hmark⟩
        · exact hle₁ t ht r (hmark ▸ hr)
        · rw [hmark] at hr
          exact Option.some.inj hr ▸ hremap t ht hre
    rcases hcase with ⟨-, -, rfl⟩ | ⟨-, -, e₂, he₂, hcase⟩
    · exact hle₂
    · obtain ⟨new, hnew, hattach⟩ := attachNew_tables dec env cfg { e₁ with catalogRels := nodes, tables }
      have hle₃ : AtOrAfter p' e₂.tables := by
        intro t ht r hr
        rw [he₂, hnew] at ht
        rcases List.mem_append.mp ht with ht | ht
        · exact hle₂ t ht r hr
        · obtain ⟨ti, entry, -, hentry⟩ := hattach t ht
          obtain ⟨s, -, hs, -, hmark⟩ := Table.attach_some hentry
          rw [hmark] at hr
          exact Option.some.inj hr ▸ hcutover t.desc s hs
      rcases hcase with rfl | rfl
      · exact hle₃
      · exact hle₃

theorem maybeCompact_atOrAfter {e : Engine} {p : Lsn} (hle : AtOrAfter p e.tables) :
    AtOrAfter p e.maybeCompact.1.tables := by
  simp only [maybeCompact]
  split
  · exact hle
  · intro t' ht' r hr
    obtain ⟨k, hk⟩ := List.getElem?_of_mem ht'
    obtain ⟨t, ht, -, -, hmark⟩ := compactTables_cases hk
    exact hle t (List.mem_of_getElem? ht) r (hmark ▸ hr)

end Engine

/-! ## The main loop -/

namespace MainState

variable (dec : TupleDecoder)

/-- The rounds and catalog checks that the iteration makes are safe. -/
def IterationSafe (cfg : Config) (s : MainState) (it : Iteration) : Prop :=
  match it.input with
  | .xlogData startLsn walEnd data =>
    let s₁ := (s.receive dec it.now startLsn walEnd data).1
    let e := { s₁.engine with remapAt := none }
    let flushed := e.flushAll it.env.appendOk it.now s₁.persistedRestart
    let s₂ := (s₁.checkRemap dec it.env cfg it.now).1
    (s₁.engine.remapAt.isSome →
      e.RoundSafe s₁.persistedRestart ∧ flushed.1.RemapSafe it.env flushed.2.1) ∧
      (cfg.flushRows ≤ s₂.engine.pendingTotal → s₂.engine.RoundSafe s₂.persistedRestart)
  | .flushTick =>
    (s.engine.oldestBatchAge it.now).any (cfg.flushInterval ≤ ·) →
      s.engine.RoundSafe s.persistedRestart
  | .keepalive .. | .statusTick => True

/-- The confirmed position is at or below every persisted restart position. -/
def SlotBelow (s : MainState) : Prop := AtOrAfter s.persistedRestart s.engine.tables

variable {dec} {cfg : Config} {s : MainState}

theorem SlotBelow.flush (h : s.SlotBelow) (hsafe : s.engine.RoundSafe s.persistedRestart)
    (env : PgEnv) (now : Instant) : (s.flush env now).1.SlotBelow := by
  simp only [MainState.flush]
  generalize hflush : s.engine.flushAll env.appendOk now s.persistedRestart = res
  obtain ⟨e, p, ok⟩ := res
  have hle := Engine.flushAll_atOrAfter hflush hsafe h
  split
  · exact Engine.maybeCompact_atOrAfter hle
  · exact hle

/-- An iteration keeps the confirmed position low, also one that stops the process. -/
theorem SlotBelow.iterate (h : s.SlotBelow) {it : Iteration} (hsafe : IterationSafe dec cfg s it) :
    (s.iterate dec it.env cfg it.now it.input).1.SlotBelow := by
  obtain ⟨env, now, input⟩ := it
  cases input with
  | xlogData startLsn walEnd data =>
    obtain ⟨hremap, hflush⟩ := hsafe
    have h₁ : (s.receive dec now startLsn walEnd data).1.SlotBelow := by
      have hp : (s.receive dec now startLsn walEnd data).1.persistedRestart = s.persistedRestart := by
        simp only [receive]
        split
        · rfl
        · rfl
      rw [SlotBelow, hp]
      exact h.of_addresses (receive_addresses dec s now startLsn walEnd data)
    simp only [MainState.iterate]
    simp only at hremap hflush
    generalize s.receive dec now startLsn walEnd data = res₁ at h₁ hremap hflush
    obtain ⟨s₁, ok₁⟩ := res₁
    split
    · exact h₁
    · have h₂ : (s₁.checkRemap dec env cfg now).1.SlotBelow := by
        simp only [checkRemap]
        split
        · exact h₁
        · rename_i ddlLsn hat
          generalize hcheck : Engine.remapCheck dec _ env cfg now ddlLsn s₁.persistedRestart = res
          obtain ⟨e', p', ok⟩ := res
          obtain ⟨hround, hre⟩ := hremap (by simp [hat])
          exact Engine.remapCheck_atOrAfter hcheck hround hre h₁
      generalize s₁.checkRemap dec env cfg now = res₂ at h₂ hflush
      obtain ⟨s₂, ok₂⟩ := res₂
      split
      · exact h₂
      · split
        · rename_i hrows
          exact SlotBelow.flush (s := s₂.setApplied) h₂ (hflush hrows) env now
        · exact h₂
  | keepalive walEnd replyRequested =>
    simp only [MainState.iterate]
    split
    · exact h
    · exact h
  | flushTick =>
    simp only [MainState.iterate]
    split
    · rename_i hage
      have hflush := h.flush (hsafe hage) env now
      generalize s.flush env now = res at hflush
      obtain ⟨s₁, ok⟩ := res
      split
      · exact hflush
      · exact hflush
    · exact h
  | statusTick => exact h

end MainState

/-! ## Startup -/

/-- The restart candidate of a resumed table is the position it stores, or the cutover of
its first snapshot. -/
theorem Table.resume_candidate (dec : TupleDecoder) (t : Table) (env : PgEnv) (cfg : Config)
    (now : Instant) (oraclePreimages : Bool) (ti : Nat) :
    let res := t.resume dec env cfg now oraclePreimages ti
    (res.2.2 = true → ∀ r ∈ res.1.restartMark, res.2.1 = some r) ∧
      ∀ r ∈ res.2.1, t.restartMark = some r ∨ ∃ s, env.snapshot t.desc = some s ∧ r = s.cutover := by
  simp only [resume]
  split
  · rename_i r hr
    split
    · simp
    · rename_i raw _
      split
      · exact ⟨fun _ r' hr' => hr ▸ hr', fun r' hr' => .inl (hr.trans hr')⟩
      · rename_i args hargs
        have hrestart : args.restartLsn = r := by
          unfold resumeArgs at hargs
          split at hargs
          · exact Option.some.inj hargs ▸ rfl
          · obtain ⟨stored, -, hargs⟩ := Option.bind_eq_some_iff.mp hargs
            split at hargs
            · exact Option.some.inj hargs ▸ rfl
            · cases hargs
        have hspec := (t.resumed dec raw).remapTable_spec dec now args
          (env.snapshot (t.resumed dec raw).desc) (env.appendOk ti)
        generalize (t.resumed dec raw).remapTable dec now args
          (env.snapshot (t.resumed dec raw).desc) (env.appendOk ti) = res at hspec
        obtain ⟨t', ok⟩ := res
        refine ⟨fun hok r' hr' => ?_, fun r' hr' => ?_⟩
        · simp only at hok
          rw [if_pos hok]
          rcases hspec.2.2 with hmark | hmark
          · have hr' : t.restartMark = some r' := hmark.symm.trans hr'
            exact hr.symm.trans hr'
          · rw [← hrestart, ← hmark]
            exact hr'
        · split at hr'
          · exact .inl (hr.trans hr')
          · cases hr'
  · rename_i hnone
    split
    · split
      · simp
      · rename_i s hs
        split
        · simp
        · refine ⟨fun _ r hr => ?_, fun r hr => .inr ⟨s, hs, (Option.some.inj hr).symm⟩⟩
          simp only [restartMark, initialSnapshot] at hr
          split at hr
          · exact absurd hr (by simp [hnone])
          · exact hr
    · exact ⟨fun _ r hr => absurd hr (by simp [restartMark, hnone]), by simp⟩

theorem resumeTables_cands {dec : TupleDecoder} {env : PgEnv} {cfg : Config} {now : Instant}
    {oraclePreimages : Bool} {i : Nat} {ts : List Table} {r : Lsn}
    (h : r ∈ (resumeTables dec env cfg now oraclePreimages i ts).2.1) :
    ∃ t ∈ ts, ∃ ti, r ∈ (t.resume dec env cfg now oraclePreimages ti).2.1 := by
  induction ts generalizing i with
  | nil => simp [resumeTables] at h
  | cons t ts ih =>
    simp only [resumeTables] at h
    split at h
    · rcases List.mem_append.mp h with h | h
      · exact ⟨t, by simp, i, Option.mem_toList.mp h⟩
      · obtain ⟨u, hu, hr⟩ := ih h
        exact ⟨u, by simp [hu], hr⟩
    · exact ⟨t, by simp, i, Option.mem_toList.mp h⟩

namespace MainState

variable {dec : TupleDecoder} {cfg : Config}

theorem start_slotBelow {env : PgEnv} {now : Instant} {opened : List Table}
    {slotRestart : Option Lsn} {flushLsn : Lsn} {oracle : Option Oracle} {s : MainState}
    (h : start dec env cfg now opened slotRestart flushLsn oracle = some s) : s.SlotBelow := by
  simp only [start] at h
  generalize hres : resumeTables dec env cfg now oracle.isSome 0 opened = res at h
  obtain ⟨tables, cands, ok⟩ := res
  split at h
  · rename_i hok
    simp only at hok
    subst hok
    obtain ⟨engine, hbuild, rfl⟩ := Option.map_eq_some_iff.mp h
    obtain ⟨htables, -, -⟩ := buildEngine_some hbuild
    intro t' ht' r hr
    change t' ∈ engine.tables at ht'
    rw [htables] at ht'
    obtain ⟨k, hk⟩ := List.getElem?_of_mem ht'
    obtain ⟨t, ht, -⟩ := resumeTables_cases (by rw [hres]; exact hk)
    obtain ⟨hk', hok, hcand⟩ := resumeTables_ok hres ht
    obtain rfl := Option.some.inj (hk.symm.trans hk')
    have hmem := hcand r ((t.resume_candidate dec env cfg now oracle.isSome (0 + k)).1 hok r hr)
    cases hmin : cands.min? with
    | none => simp [List.min?_eq_none_iff.mp hmin] at hmem
    | some m =>
      simpa [hmin] using (List.min?_eq_some_iff.mp hmin).2 r hmem
  · cases h

/-- A process that starts on what a crash leaves now resumes at or after the confirmed
position. The server takes snapshots at or after it. -/
def ResumesAtOrAfter (s : MainState) : Prop :=
  ∀ dec env cfg now oraclePreimages opened booted cands resumeFrom,
    (∀ t' ∈ opened, ∃ t ∈ s.engine.tables, Table.restartMark t' = t.restartMark) →
    (∀ desc snap, env.snapshot desc = some snap → s.persistedRestart ≤ snap.cutover) →
    resumeTables dec env cfg now oraclePreimages 0 opened = (booted, cands, true) →
    cands.min? = some resumeFrom → s.persistedRestart ≤ resumeFrom

theorem SlotBelow.resumesAtOrAfter {s : MainState} (h : s.SlotBelow) : s.ResumesAtOrAfter := by
  intro dec env cfg now oraclePreimages opened booted cands resumeFrom hopened hcutover hres hmin
  have hmem := (List.min?_eq_some_iff.mp hmin).1
  obtain ⟨t', ht', ti, hcand⟩ := resumeTables_cands (by rw [hres]; exact hmem)
  obtain ⟨t, ht, hmark⟩ := hopened t' ht'
  rcases (t'.resume_candidate dec env cfg now oraclePreimages ti).2 _ hcand with hr | ⟨snap, hsnap, rfl⟩
  · exact h t ht resumeFrom (hmark ▸ hr)
  · exact hcutover _ snap hsnap

/-- In a run whose iterations are all safe, the position confirmed to the slot is at all times
at or below every persisted restart position, and a process that starts after a crash
resumes at or after it. The state an iteration leaves when it stops the process counts as
well. -/
theorem slotBelow_of_safe_run {env : PgEnv} {now : Instant} {opened : List Table}
    {slotRestart : Option Lsn} {flushLsn : Lsn} {oracle : Option Oracle} {s₀ : MainState}
    (hstart : start dec env cfg now opened slotRestart flushLsn oracle = some s₀)
    {its : List Iteration}
    (hsafe : ∀ n u it, s₀.run dec cfg (its.take n) = some u → its[n]? = some it →
      IterationSafe dec cfg u it) (n : Nat) (u : MainState)
    (hrun : s₀.run dec cfg (its.take n) = some u) :
    (u.SlotBelow ∧ u.ResumesAtOrAfter) ∧ ∀ it, its[n]? = some it →
      (u.iterate dec it.env cfg it.now it.input).1.SlotBelow ∧
      (u.iterate dec it.env cfg it.now it.input).1.ResumesAtOrAfter := by
  have hslot : u.SlotBelow := by
    induction n generalizing u with
    | zero =>
      obtain rfl : s₀ = u := by simpa [run] using hrun
      exact start_slotBelow hstart
    | succ n ih =>
      cases hit : its[n]? with
      | none =>
        rw [List.take_add_one, hit] at hrun
        exact ih u (by simpa using hrun)
      | some it =>
        rw [List.take_add_one, hit, Option.toList_some, run_concat] at hrun
        obtain ⟨v, hv, hstep⟩ := hrun
        have := (ih v hv).iterate (hsafe n v it hv hit)
        rwa [hstep] at this
  refine ⟨⟨hslot, hslot.resumesAtOrAfter⟩, fun it hit => ?_⟩
  have hnext := hslot.iterate (hsafe n u it hrun hit)
  exact ⟨hnext, hnext.resumesAtOrAfter⟩

end MainState

/-! ## An idle table -/

instance (e : Engine) (p : Lsn) : Decidable (e.RoundSafe p) :=
  inferInstanceAs (Decidable (e.pendingTotal ≠ 0 → p ≤ e.restartLsn ∧
    ∀ t ∈ e.tables, t.pending.rows = [] → ∀ r ∈ t.restartMark, e.restartLsn ≤ r))

namespace Sample

def twoTables : List TableDesc := [desc "a" 16384, desc "b" 16385]

/-- WAL from 0/1000000 on: transaction 7 deletes a row of table `a` and commits at
0/1000060. -/
def deleteWal : Bytes :=
  pageHeader ++ [54, 0, 0, 0, 7, 0, 0, 0, 0, 0, 0, 0, 0, 0, 0, 0, 16, 10, 0, 0, 143, 71, 166, 197, 0, 0, 0, 0,
    127, 6, 0, 0, 5, 0, 0, 0, 0, 64, 0, 0, 0, 0, 0, 0, 255, 8, 7, 0, 0, 0, 1, 0, 0, 0, 0, 0] ++
    commitRecord

/-- The transaction arrives, and a flush tick follows. -/
def deleteAndFlush (env : PgEnv) : List MainState.Iteration :=
  [⟨env, 0, .xlogData 0x1000000 0x1000082 deleteWal⟩, ⟨env, 1, .flushTick⟩]

end Sample

namespace MainState

/-- With tables that were empty at first, the round has nothing to leave out. -/
theorem slotBelow_of_safe_run_empty :
    ∃ u, (Sample.started Sample.twoTables 0x1000000).run .reject Sample.cfg
        (Sample.deleteAndFlush (Sample.env Sample.twoTables 0x1000000)) = some u ∧
      u.persistedRestart = 0x1000060 ∧ u.SlotBelow := by
  have hstart : start .reject (Sample.env Sample.twoTables 0x1000000) Sample.cfg 0
      (Sample.twoTables.map fun d => Table.opened d (Sample.sink d)) none 0 none =
        some (Sample.started Sample.twoTables 0x1000000) := rfl
  have hrun : ((Sample.started Sample.twoTables 0x1000000).run .reject Sample.cfg
      (Sample.deleteAndFlush (Sample.env Sample.twoTables 0x1000000))).map
        (·.persistedRestart) = some 0x1000060 := by decide +kernel
  have hfirst : ((Sample.started Sample.twoTables 0x1000000).run .reject Sample.cfg
      ((Sample.deleteAndFlush (Sample.env Sample.twoTables 0x1000000)).take 1)).all
        (fun u => u.engine.RoundSafe u.persistedRestart) = true := by decide +kernel
  obtain ⟨u, hu, hp⟩ := Option.map_eq_some_iff.mp hrun
  have htake : (Sample.deleteAndFlush (Sample.env Sample.twoTables 0x1000000)).take 2 =
      Sample.deleteAndFlush (Sample.env Sample.twoTables 0x1000000) := rfl
  refine ⟨u, hu, hp, (slotBelow_of_safe_run hstart ?_ 2 u (by rw [htake, hu])).1.1⟩
  intro n v it hv hit
  rcases n with _ | _ | n
  · simp only [List.take_zero, run, Option.some.injEq] at hv
    subst hv
    obtain rfl := Option.some.inj hit
    refine ⟨fun hat => ?_, fun hrows => ?_⟩
    · exact absurd hat (by decide +kernel)
    · exact absurd hrows (by decide +kernel)
  · obtain rfl := Option.some.inj hit
    intro _
    rw [hv] at hfirst
    simpa using hfirst
  · cases hit

/-- Both tables were snapshotted at 0/1000000. The round stamps 0/1000060 into table `a`
alone and confirms it to the slot, but table `b` needs the WAL from 0/1000000 on. -/
theorem slot_passes_idle_table :
    ∃ s₀ s t, start .reject (Sample.oneRowEnv Sample.twoTables 0x1000000) Sample.cfg 0
        (Sample.twoTables.map fun d => Table.opened d (Sample.sink d)) none 0 none = some s₀ ∧
      s₀.run .reject Sample.cfg
        (Sample.deleteAndFlush (Sample.oneRowEnv Sample.twoTables 0x1000000)) = some s ∧
      s.statuses = [(0x1000082, 0x1000060)] ∧ t ∈ s.engine.tables ∧
      t.restartMark = some 0x1000000 ∧ s.persistedRestart = 0x1000060 ∧ ¬ s.SlotBelow := by
  have hrun : (start .reject (Sample.oneRowEnv Sample.twoTables 0x1000000) Sample.cfg 0
      (Sample.twoTables.map fun d => Table.opened d (Sample.sink d)) none 0 none).map
        (fun s₀ => (s₀.run .reject Sample.cfg
          (Sample.deleteAndFlush (Sample.oneRowEnv Sample.twoTables 0x1000000))).map
            fun s => (s.statuses, s.persistedRestart, s.engine.tables.map Table.restartMark)) =
      some (some ([(0x1000082, 0x1000060)], 0x1000060, [some 0x1000060, some 0x1000000])) := by
    decide +kernel
  obtain ⟨s₀, h₀, hrun⟩ := Option.map_eq_some_iff.mp hrun
  obtain ⟨s, hs, hrun⟩ := Option.map_eq_some_iff.mp hrun
  simp only [Prod.mk.injEq] at hrun
  obtain ⟨hstatuses, hpersisted, hmarks⟩ := hrun
  have hmem : some 0x1000000 ∈ s.engine.tables.map Table.restartMark := by simp [hmarks]
  obtain ⟨t, ht, hmark⟩ := List.mem_map.mp hmem
  refine ⟨s₀, s, t, h₀, hs, hstatuses, ht, hmark, hpersisted, fun hbelow => ?_⟩
  have hle := hbelow t ht 0x1000000 hmark
  rw [hpersisted] at hle
  exact absurd hle (by decide)

end MainState

end Ltap
