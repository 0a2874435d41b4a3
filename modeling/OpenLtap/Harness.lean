-- SUMMARY: The harness that feeds the embedded driver (`examples/embedded.rs`), and that it agrees with the main loop.
import OpenLtap.Driver.Embed
import OpenLtap.SlotPosition
import OpenLtap.Tail
import OpenLtap.Wire.Stream

/-!
# The harness of the embedded driver

The harness reads the same stream as the main loop. It decodes the outcomes of transactions and the
creation of relations itself, and sends everything else on as it is. Between two catalog checks the
driver behind it does what the main loop does, except for the position that readers are told.
-/

namespace Ltap

/-! ## Translation -/

/-- What the driver is told of a record. Nothing when the parse panics. -/
def translate (lsn : Lsn) (bytes : Bytes) : Option (List SourceEvent) :=
  match parseRecord bytes with
  | .error .panic => none
  | .error _ => some []
  | .ok rec =>
    if rec.rmid = Rmgr.xact then
      let op := rec.info &&& xlogXactOpmask
      let subxids := (parseXactSubxacts rec.info rec.mainData).toOption.getD []
      if op = xlogXactCommit then some [.commit lsn rec.xid subxids]
      else if op = xlogXactAbort then some [.abort lsn rec.xid subxids]
      else some []
    else if rec.rmid = Rmgr.smgr then
      if rec.info &&& 0xF0 = xlogSmgrCreate then
        match parseSmgrCreate rec.mainData with
        | .ok (some (db, _)) => some [.smgrCreate rec.xid db]
        | _ => some []
      else some []
    else some [.raw lsn bytes]

def translateAll : List (Lsn × Bytes) → Option (List SourceEvent)
  | [] => some []
  | (lsn, bytes) :: recs => do
    let evs ← translate lsn bytes
    let rest ← translateAll recs
    return evs ++ rest

structure Harness where
  reader : WalReader
  lastRecv : Lsn

/-- The events for one message. Nothing when the harness stops. -/
def Harness.receive (h : Harness) : ReplMsg → Option (Harness × List SourceEvent)
  | .xLogData startLsn walEnd data =>
    match h.reader.feed startLsn data with
    | .error _ => none
    | .ok (reader, recs) => (translateAll recs).map fun evs => ({ reader, lastRecv := max walEnd h.lastRecv }, evs)
  | .keepalive walEnd _ =>
    let lastRecv := max walEnd h.lastRecv
    some ({ h with lastRecv }, [.progress lastRecv])

/-- A message, with the surroundings in which it is handled. -/
structure Delivery where
  env : PgEnv
  now : Instant
  msg : ReplMsg

/-- The turns that the driver behind the harness makes. -/
def Harness.run : Harness → List Delivery → Option (Harness × List EmbedState.Turn)
  | h, [] => some (h, [])
  | h, d :: ds => do
    let (h', evs) ← h.receive d.msg
    let (h'', turns) ← h'.run ds
    return (h'', evs.map (fun ev => ⟨d.env, d.now, .event ev⟩) ++ turns)

/-- What the main loop does with the message. -/
def Delivery.iteration (d : Delivery) : MainState.Iteration := ⟨d.env, d.now, d.msg.input⟩

/-! ## The applied position -/

def TailStore.withApplied (s : TailStore) (lsn : Lsn) : TailStore := { s with appliedLsn := lsn }

namespace Engine

def withApplied (e : Engine) (lsn : Lsn) : Engine := { e with tail := e.tail.withApplied lsn }

theorem publish_withApplied (maxRows start : Nat) (tail : TailStore) (t : Table) (lsn : Lsn) :
    publish maxRows (tail.withApplied lsn) start t = (publish maxRows tail start t).withApplied lsn := by
  unfold publish
  split
  · unfold TailStore.enforceCap
    dsimp only [TailStore.push, TailStore.batches, TailStore.withApplied]
    split <;> rfl
  · rfl

theorem publishAll_withApplied (maxRows : Nat) (pairs : List (Table × Table)) (tail : TailStore) (lsn : Lsn) :
    pairs.foldl (fun tail (t, t') => publish maxRows tail t.pending.rows.length t') (tail.withApplied lsn) =
      (pairs.foldl (fun tail (t, t') => publish maxRows tail t.pending.rows.length t') tail).withApplied lsn := by
  induction pairs generalizing tail with
  | nil => rfl
  | cons p pairs ih =>
    simp only [List.foldl_cons, publish_withApplied]
    exact ih _

/-- No handler reads the position. -/
theorem applyEffect_withApplied (e : Engine) (now : Instant) (lsn applied : Lsn) (eff : Effect) :
    (e.withApplied applied).applyEffect now lsn eff = (e.applyEffect now lsn eff).withApplied applied := by
  cases eff with
  | commit xid subxids =>
    have htail := publishAll_withApplied e.tailMaxRows
      (e.tables.zip (e.handleCommit now lsn xid subxids).tables) e.tail applied
    exact congrArg (fun tail => { e.handleCommit now lsn xid subxids with tail }) htail
  | skip | suspect | toastChunk | ops | drift | abort => rfl

theorem handleRecord_withApplied (dec : TupleDecoder) (e : Engine) (now : Instant) (lsn applied : Lsn) (rec : Record) :
    (e.withApplied applied).handleRecord dec now lsn rec = (e.handleRecord dec now lsn rec).withApplied applied :=
  e.applyEffect_withApplied now lsn applied (e.effectOf dec lsn rec)

/-! ## No catalog check and no flush -/

/-- Nothing has to be done about the engine when a record was handled. -/
def Quiet (cfg : Config) (e : Engine) : Prop := e.remapAt = none ∧ e.pendingTotal < cfg.flushRows

theorem applyEffect_remapAt {e : Engine} {now : Instant} {lsn : Lsn} {eff : Effect}
    (h : (e.applyEffect now lsn eff).remapAt = none) : e.remapAt = none := by
  cases eff with
  | commit xid subxids =>
    change (if _ then _ else _) = none at h
    split at h
    · cases h
    · exact h
  | drift table => cases h
  | skip | suspect | toastChunk | ops | abort => exact h

theorem sum_pending_modify {f : Table → Table} (hf : ∀ t, t.pending.rows.length ≤ (f t).pending.rows.length)
    (ts : List Table) (i : Nat) :
    (ts.map (·.pending.rows.length)).sum ≤ ((ts.modify i f).map (·.pending.rows.length)).sum := by
  induction ts generalizing i with
  | nil => simp
  | cons t ts ih =>
    cases i with
    | zero => simpa using hf t
    | succ i => simpa using ih i

theorem sum_pending_commitOps (now : Instant) (lsn : Lsn) (ops : List PendingOp) (ts : List Table) :
    (ts.map (·.pending.rows.length)).sum ≤ ((commitOps now lsn ts ops).map (·.pending.rows.length)).sum := by
  induction ops generalizing ts with
  | nil => exact le_rfl
  | cons p ops ih =>
    refine le_trans (sum_pending_modify (fun t => ?_) ts p.table) (ih _)
    obtain ⟨-, -, rows, hrows⟩ := t.commitOps_rows now lsn [p.op]
    exact List.IsPrefix.length_le ⟨rows, hrows.symm⟩

theorem applyEffect_pendingTotal (e : Engine) (now : Instant) (lsn : Lsn) (eff : Effect) :
    e.pendingTotal ≤ (e.applyEffect now lsn eff).pendingTotal := by
  cases eff with
  | commit xid subxids => exact sum_pending_commitOps now lsn _ e.tables
  | drift table =>
    exact sum_pending_modify (f := fun t => { t with needsResnapshot := true }) (fun _ => le_rfl) e.tables table
  | skip | suspect | toastChunk | ops | abort => exact le_rfl

/-- What is due stays due. -/
theorem Quiet.of_handleRecord {cfg : Config} {dec : TupleDecoder} {e : Engine} {now : Instant} {lsn : Lsn}
    {rec : Record} (h : (e.handleRecord dec now lsn rec).Quiet cfg) : e.Quiet cfg :=
  ⟨applyEffect_remapAt h.1, lt_of_le_of_lt (e.applyEffect_pendingTotal now lsn _) h.2⟩

end Engine

/-! ## One record -/

namespace EmbedState

variable {dec : TupleDecoder} {cfg : Config} {env : PgEnv} {now : Instant}

/-- A stream that has begun, and an event that leaves nothing to do. -/
theorem step_quiet (env : PgEnv) (now : Instant) {s : EmbedState} {ev : SourceEvent} {e' : Engine}
    (hstart : s.streamStart.isSome)
    (hev : handleEvent dec s.engine env now ev = (e', true)) (hquiet : e'.Quiet cfg) :
    s.step dec env cfg now (.event ev) = ({ s with engine := e' }, true) := by
  have hgap : s.checkGap dec env now ev = (s, true) := by
    obtain ⟨p, hp⟩ := Option.isSome_iff_exists.mp hstart
    simp only [checkGap, hp]
  have hcheck : checkRemap dec { s with engine := e' } env cfg now = ({ s with engine := e' }, true) := by
    simp only [checkRemap, hquiet.1]
  simp only [step, hgap, hev, hcheck, not_true, if_false, if_neg (not_le.mpr hquiet.2)]

end EmbedState

namespace Engine

variable {dec : TupleDecoder} {e : Engine} {lsn : Lsn} {rec : Record}

theorem effectOf_xact (h : rec.rmid = Rmgr.xact) : e.effectOf dec lsn rec = xactEffect rec := by
  simp [effectOf, normalizeDml, h, Rmgr.xact, Rmgr.neon, Rmgr.smgr, Rmgr.heap, Rmgr.heap2]

theorem effectOf_smgr (h : rec.rmid = Rmgr.smgr) : e.effectOf dec lsn rec = e.smgrEffect rec := by
  simp [effectOf, normalizeDml, h, Rmgr.neon, Rmgr.smgr]

end Engine

/-- The driver is told nothing of a record that does nothing, and one event of any other. -/
theorem translate_handled (dec : TupleDecoder) (env : PgEnv) (now : Instant) (e : Engine) (applied lsn : Lsn)
    {bytes : Bytes} {rec : Record} (hparse : parseRecord bytes = .ok rec) :
    (translate lsn bytes = some [] ∧ e.handleRecord dec now lsn rec = e) ∨
      ∃ ev applied', translate lsn bytes = some [ev] ∧ EmbedState.handleEvent dec (e.withApplied applied) env now ev =
        ((e.handleRecord dec now lsn rec).withApplied applied', true) := by
  by_cases hxact : rec.rmid = Rmgr.xact
  · simp only [translate, hparse, hxact, if_true, Engine.handleRecord, Engine.effectOf_xact hxact, Engine.xactEffect]
    generalize (parseXactSubxacts rec.info rec.mainData).toOption.getD [] = subxids
    split
    · refine .inr ⟨_, lsn, rfl, Prod.ext ?_ rfl⟩
      have hcommit := congrArg (Engine.withApplied · lsn)
        (e.applyEffect_withApplied now lsn applied (.commit rec.xid subxids))
      exact hcommit
    split
    · exact .inr ⟨_, applied, rfl, rfl⟩
    · exact .inl ⟨rfl, rfl⟩
  by_cases hsmgr : rec.rmid = Rmgr.smgr
  · simp only [translate, hparse, hsmgr, if_true, Engine.handleRecord, Engine.effectOf_smgr hsmgr, Engine.smgrEffect]
    have hother : Rmgr.smgr ≠ Rmgr.xact := by decide
    rw [if_neg hother]
    split
    · rcases parseSmgrCreate rec.mainData with err | _ | ⟨db, rel⟩
      · exact .inl ⟨rfl, rfl⟩
      · exact .inl ⟨rfl, rfl⟩
      · refine .inr ⟨_, applied, rfl, ?_⟩
        simp only [EmbedState.handleEvent, Engine.handleSmgrCreate]
        by_cases hown : db = e.dbOid ∧ rec.xid ≠ 0
        · rw [if_pos hown]
          exact congrArg (·, true) (if_pos hown)
        · rw [if_neg hown]
          exact congrArg (·, true) (if_neg hown)
    · exact .inl ⟨rfl, rfl⟩
  · refine .inr ⟨.raw lsn bytes, lsn, by simp only [translate, hparse, if_neg hxact, if_neg hsmgr], ?_⟩
    simp only [EmbedState.handleEvent, hparse, Engine.handleRecord_withApplied]
    rfl

/-! ## Runs -/

namespace EmbedState

variable {dec : TupleDecoder} {cfg : Config} {env : PgEnv} {now : Instant}

theorem handleRecords_quiet {recs : List (Lsn × Bytes)} {e e' : Engine}
    (hrun : MainState.handleRecords dec now recs e = (e', true)) (hquiet : e'.Quiet cfg) : e.Quiet cfg := by
  induction recs generalizing e with
  | nil =>
    obtain rfl := (Prod.ext_iff.mp hrun).1
    exact hquiet
  | cons r recs ih =>
    obtain ⟨lsn, bytes⟩ := r
    rw [MainState.handleRecords] at hrun
    split at hrun
    · exact (ih hrun).of_handleRecord
    · cases hrun
    · exact ih hrun

/-- The records of a payload. -/
theorem run_translated (env : PgEnv) {recs : List (Lsn × Bytes)} {e e' : Engine} {s : EmbedState} {applied : Lsn}
    (hstart : s.streamStart.isSome) (hengine : s.engine = e.withApplied applied)
    (hrun : MainState.handleRecords dec now recs e = (e', true)) (hquiet : e'.Quiet cfg) :
    ∃ evs applied', translateAll recs = some evs ∧
      s.run dec cfg (evs.map fun ev => ⟨env, now, .event ev⟩) = some { s with engine := e'.withApplied applied' } := by
  induction recs generalizing e s applied with
  | nil =>
    have hsame : e = e' := (Prod.ext_iff.mp hrun).1
    subst hsame
    exact ⟨[], applied, rfl, by rw [List.map_nil, run, ← hengine]⟩
  | cons r recs ih =>
    obtain ⟨lsn, bytes⟩ := r
    rw [MainState.handleRecords] at hrun
    split at hrun
    · rename_i rec hparse
      rcases translate_handled dec env now e applied lsn hparse
        with ⟨hevs, hsame⟩ | ⟨ev, applied', hevs, hev⟩
      · rw [hsame] at hrun
        obtain ⟨evs, applied', htranslated, hrun'⟩ := ih hstart hengine hrun
        refine ⟨evs, applied', ?_, hrun'⟩
        simp only [translateAll, hevs, htranslated, Option.bind_eq_bind, Option.bind_some, List.nil_append]
        rfl
      · rw [← hengine] at hev
        have hrecord : (e.handleRecord dec now lsn rec).Quiet cfg := handleRecords_quiet hrun hquiet
        have hstep := step_quiet env now hstart hev (show Engine.Quiet cfg _ from hrecord)
        obtain ⟨evs, applied'', htranslated, hrun'⟩ :=
          ih (s := { s with engine := (e.handleRecord dec now lsn rec).withApplied applied' }) hstart rfl hrun
        refine ⟨ev :: evs, applied'', ?_, ?_⟩
        · simp only [translateAll, hevs, htranslated, Option.bind_eq_bind, Option.bind_some]
          rfl
        · rw [List.map_cons, run, hstep]
          exact hrun'
    · cases hrun
    · rename_i err hpanic hparse
      obtain ⟨evs, applied', htranslated, hrun'⟩ := ih hstart hengine hrun
      refine ⟨evs, applied', ?_, hrun'⟩
      have hevs : translate lsn bytes = some [] := by
        rw [translate, hparse]
        cases err with
        | panic => exact (hpanic rfl).elim
        | _ => rfl
      simp only [translateAll, hevs, htranslated, Option.bind_eq_bind, Option.bind_some, List.nil_append]
      rfl

end EmbedState

namespace MainState

variable {dec : TupleDecoder} {cfg : Config} {env : PgEnv} {now : Instant} {s s₁ : MainState} {startLsn walEnd : Lsn}
  {data : Bytes}

theorem receive_cases (h : s.receive dec now startLsn walEnd data = (s₁, true)) :
    ∃ reader recs e', s.reader.feed startLsn data = .ok (reader, recs) ∧
      handleRecords dec now recs s.engine = (e', true) ∧
      s₁ = { s with engine := e', reader, lastRecvLsn := max walEnd s.lastRecvLsn } := by
  simp only [receive] at h
  split at h
  · cases h
  · rename_i reader recs hfeed
    obtain ⟨rfl, hok⟩ := Prod.ext_iff.mp h
    exact ⟨reader, recs, _, hfeed, Prod.ext rfl hok, rfl⟩

theorem iterate_quiet (h : s.receive dec now startLsn walEnd data = (s₁, true)) (hquiet : s₁.engine.Quiet cfg) :
    s.iterate dec env cfg now (.xlogData startLsn walEnd data) = (s₁.setApplied, true) := by
  have hcheck : s₁.checkRemap dec env cfg now = (s₁, true) := by simp only [checkRemap, hquiet.1]
  have hfew : ¬ cfg.flushRows ≤ s₁.setApplied.engine.pendingTotal := not_le.mpr hquiet.2
  simp only [iterate, h, hcheck, not_true, if_false, if_neg hfew]

end MainState

/-- Nothing has to be done after any of the payloads. -/
def QuietRun (dec : TupleDecoder) (cfg : Config) : MainState → List Delivery → Prop
  | _, [] => True
  | s, d :: ds =>
    (∀ startLsn walEnd data, d.msg = .xLogData startLsn walEnd data →
      (s.receive dec d.now startLsn walEnd data).1.engine.Quiet cfg) ∧
    ∀ s', s.iterate dec d.env cfg d.now d.msg.input = (s', true) → QuietRun dec cfg s' ds

/-- The two drivers are at the same place of the stream, and nothing has to be done. -/
structure Agrees (cfg : Config) (s : MainState) (h : Harness) (es : EmbedState) : Prop where
  begun : es.streamStart.isSome
  engine : ∃ applied, es.engine = s.engine.withApplied applied
  persistedRestart : es.persistedRestart = s.persistedRestart
  reader : h.reader = s.reader
  lastRecv : h.lastRecv = s.lastRecvLsn
  quiet : s.engine.Quiet cfg

namespace EmbedState

variable {dec : TupleDecoder} {cfg : Config}

theorem run_append {s s' : EmbedState} {turns turns' : List Turn} (h : s.run dec cfg turns = some s') :
    s.run dec cfg (turns ++ turns') = s'.run dec cfg turns' := by
  induction turns generalizing s with
  | nil =>
    obtain rfl := Option.some.inj h
    rfl
  | cons turn turns ih =>
    rw [List.cons_append, run]
    rw [run] at h
    split at h
    · exact ih h
    · cases h

theorem receive_agrees {s s' : MainState} {h : Harness} {es : EmbedState} {d : Delivery}
    (hagrees : Agrees cfg s h es) (hpayload : ∀ startLsn walEnd data, d.msg = .xLogData startLsn walEnd data →
      (s.receive dec d.now startLsn walEnd data).1.engine.Quiet cfg)
    (hstep : s.iterate dec d.env cfg d.now d.msg.input = (s', true)) :
    ∃ h' evs es', h.receive d.msg = some (h', evs) ∧
      es.run dec cfg (evs.map fun ev => ⟨d.env, d.now, .event ev⟩) = some es' ∧ Agrees cfg s' h' es' := by
  obtain ⟨hbegun, ⟨applied, hengine⟩, hpersisted, hreader, hlast, hquiet⟩ := hagrees
  cases hmsg : d.msg with
  | xLogData startLsn walEnd data =>
    rw [hmsg] at hstep
    obtain ⟨s₁, s₂, hrecv, -, -⟩ := MainState.iterate_xlogData hstep
    have hpayload : s₁.engine.Quiet cfg := by
      have := hpayload startLsn walEnd data hmsg
      rwa [hrecv] at this
    obtain rfl := (Prod.ext_iff.mp ((MainState.iterate_quiet hrecv hpayload).symm.trans hstep)).1
    obtain ⟨reader, recs, e', hfeed, hrecs, rfl⟩ := MainState.receive_cases hrecv
    obtain ⟨evs, applied', htranslated, hrun⟩ := run_translated d.env hbegun hengine hrecs hpayload
    refine ⟨⟨reader, max walEnd h.lastRecv⟩, evs, _, ?_, hrun, hbegun, ⟨applied', rfl⟩, hpersisted, rfl, ?_, hpayload⟩
    · simp only [Harness.receive, hreader, hfeed, htranslated, Option.map_some]
    · rw [hlast]
      rfl
  | keepalive walEnd replyRequested =>
    rw [hmsg] at hstep
    have hev : handleEvent dec es.engine d.env d.now (.progress (max walEnd h.lastRecv)) =
        (s.engine.withApplied (max walEnd h.lastRecv), true) := by
      rw [hengine]
      rfl
    have hturn := step_quiet d.env d.now hbegun hev (show Engine.Quiet cfg _ from hquiet)
    refine ⟨{ h with lastRecv := max walEnd h.lastRecv }, [.progress (max walEnd h.lastRecv)],
      { es with engine := s.engine.withApplied (max walEnd h.lastRecv) }, rfl, ?_, ?_⟩
    · rw [List.map_cons, run, hturn]
      rfl
    · obtain rfl := (Prod.ext_iff.mp hstep).1
      have hlast' : max walEnd h.lastRecv = max walEnd s.lastRecvLsn := by rw [hlast]
      simp only [ReplMsg.input, MainState.iterate]
      split
      · exact ⟨hbegun, ⟨_, rfl⟩, hpersisted, hreader, hlast', hquiet⟩
      · exact ⟨hbegun, ⟨_, rfl⟩, hpersisted, hreader, hlast', hquiet⟩

/-- Between two catalog checks the driver behind the harness does what the main loop does. -/
theorem run_harness {ds : List Delivery} {s s' : MainState} {h : Harness} {es : EmbedState}
    (hagrees : Agrees cfg s h es) (hquiet : QuietRun dec cfg s ds)
    (hrun : s.run dec cfg (ds.map Delivery.iteration) = some s') :
    ∃ h' turns es', h.run ds = some (h', turns) ∧ es.run dec cfg turns = some es' ∧ Agrees cfg s' h' es' := by
  induction ds generalizing s h es with
  | nil =>
    obtain rfl := Option.some.inj hrun
    exact ⟨h, [], es, rfl, rfl, hagrees⟩
  | cons d ds ih =>
    obtain ⟨hpayload, hrest⟩ := hquiet
    rw [List.map_cons, MainState.run] at hrun
    split at hrun
    · rename_i s₁ hstep
      obtain ⟨h₁, evs, es₁, hreceive, hevs, hagrees₁⟩ := receive_agrees hagrees hpayload hstep
      obtain ⟨h', turns, es', hds, hturns, hagrees'⟩ := ih hagrees₁ (hrest s₁ hstep) hrun
      refine ⟨h', evs.map (fun ev => ⟨d.env, d.now, .event ev⟩) ++ turns, es', ?_, ?_, hagrees'⟩
      · simp only [Harness.run, hreceive, hds, Option.bind_eq_bind, Option.bind_some]
        rfl
      · rw [run_append hevs, hturns]
    · cases hrun

end EmbedState

namespace Sample

/-- The transaction arrives, and a keepalive behind it. -/
def deliveries : List Delivery :=
  [⟨env twoTables 0x1000000, 0, .xLogData 0x1000000 0x1000082 deleteWal⟩,
    ⟨env twoTables 0x1000000, 1, .keepalive 0x1000082 false⟩]

theorem deliveries_quiet : QuietRun .reject cfg (started twoTables 0x1000000) deliveries := by
  refine ⟨?_, fun s' _ => ⟨?_, fun _ _ => trivial⟩⟩
  · intro startLsn walEnd data hmsg
    injection hmsg with hstart hend hdata
    subst hstart hend hdata
    dsimp only
    have hremap : ((started twoTables 0x1000000).receive .reject 0 0x1000000 0x1000082 deleteWal).1.engine.remapAt =
        none := by decide +kernel
    have hfew : ((started twoTables 0x1000000).receive .reject 0 0x1000000 0x1000082 deleteWal).1.engine.pendingTotal <
        cfg.flushRows := by decide +kernel
    exact ⟨hremap, hfew⟩
  · intro startLsn walEnd data hmsg
    injection hmsg

end Sample

namespace EmbedState

/-- Both drivers have the delete pending. -/
theorem run_harness_delete :
    ∃ s' h' turns es', (Sample.started Sample.twoTables 0x1000000).run .reject Sample.cfg
        (Sample.deliveries.map Delivery.iteration) = some s' ∧
      Harness.run ⟨.new 0x1000000, 0x1000000⟩ Sample.deliveries = some (h', turns) ∧
      EmbedState.run .reject Sample.cfg
        ⟨(Sample.started Sample.twoTables 0x1000000).engine, 0x1000000, some 0x1000000⟩ turns = some es' ∧
      Agrees Sample.cfg s' h' es' := by
  have hrun : ((Sample.started Sample.twoTables 0x1000000).run .reject Sample.cfg
      (Sample.deliveries.map Delivery.iteration)).isSome = true := by decide +kernel
  obtain ⟨s', hs'⟩ := Option.isSome_iff_exists.mp hrun
  have hagrees : Agrees Sample.cfg (Sample.started Sample.twoTables 0x1000000) ⟨.new 0x1000000, 0x1000000⟩
      ⟨(Sample.started Sample.twoTables 0x1000000).engine, 0x1000000, some 0x1000000⟩ :=
    ⟨rfl, ⟨0, rfl⟩, rfl, rfl, rfl, rfl, by decide +kernel⟩
  obtain ⟨h', turns, es', hharness, hturns, hagrees'⟩ := run_harness hagrees Sample.deliveries_quiet hs'
  exact ⟨s', h', turns, es', hs', hharness, hturns, hagrees'⟩

end EmbedState

end Ltap
