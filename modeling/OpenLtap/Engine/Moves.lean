-- SUMMARY: The pieces that both drivers' loops are made of, and runs of them.
import OpenLtap.Driver.Embed
import OpenLtap.Driver.Main

/-!
# Moves

Both drivers work on the engine with the same few calls, in an order that depends on the
stream and on timers. A move is one such call. What holds along every sequence of moves
holds in both drivers.
-/

namespace Ltap

namespace Engine

/-- One call of a driver into the engine. -/
inductive Move where
  /-- A record, or an outcome that the embedding host reports. -/
  | record (now : Instant) (lsn : Lsn) (eff : Effect)
  | applied (lsn : Lsn)
  | flush (env : PgEnv) (now : Instant) (persisted : Lsn)
  | compact
  | remap (env : PgEnv) (cfg : Config) (now : Instant) (ddlLsn persisted : Lsn)
  /-- The source lost records: what is in flight is dropped. -/
  | forget
  | resnapshot (env : PgEnv) (now : Instant) (args : Table → Option RemapArgs)
  /-- The process stops without touching the engine. -/
  | stop

/-- The state reached, and whether the process goes on. -/
def move (dec : TupleDecoder) (e : Engine) : Move → Engine × Bool
  | .record now lsn eff => (e.applyEffect now lsn eff, true)
  | .applied lsn => ({ e with tail := { e.tail with appliedLsn := lsn } }, true)
  | .flush env now persisted =>
    let (e', _, ok) := e.flushAll env.appendOk now persisted
    (e', ok)
  | .compact => e.maybeCompact
  | .remap env cfg now ddlLsn persisted =>
    let (e', _, ok) := { e with remapAt := none }.remapCheck dec env cfg now ddlLsn persisted
    (e', ok)
  | .forget => ({ e with txbuf := .empty, toast := .empty, smgrSuspects := ∅ }, true)
  | .resnapshot env now args =>
    let (tables, ok) := resnapshotTables dec env now args 0 e.tables
    ({ e with tables }, ok)
  | .stop => (e, false)

/-- Several moves, up to the first that stops the process. -/
def moves (dec : TupleDecoder) : Engine → List Move → Engine × Bool
  | e, [] => (e, true)
  | e, m :: ms =>
    match e.move dec m with
    | (e', true) => moves dec e' ms
    | (e', false) => (e', false)

variable {dec : TupleDecoder}

theorem moves_singleton (e : Engine) (m : Move) : e.moves dec [m] = e.move dec m := by
  simp only [moves]
  split
  · rename_i h
    exact h.symm
  · rename_i h
    exact h.symm

theorem moves_append {e e' : Engine} {ms : List Move} (h : e.moves dec ms = (e', true))
    (ms' : List Move) : e.moves dec (ms ++ ms') = e'.moves dec ms' := by
  induction ms generalizing e with
  | nil =>
    obtain rfl := (Prod.ext_iff.mp h).1
    rfl
  | cons m ms ih =>
    simp only [moves, List.cons_append] at h ⊢
    split at h
    · exact ih h
    · cases h

/-- Some sequence of moves leads to this state, with the process going on or not. -/
def Reaches (dec : TupleDecoder) (e : Engine) (r : Engine × Bool) : Prop :=
  ∃ ms, e.moves dec ms = r

namespace Reaches

theorem refl (e : Engine) : e.Reaches dec (e, true) := ⟨[], rfl⟩

theorem move (e : Engine) (m : Move) : e.Reaches dec (e.move dec m) := ⟨[m], moves_singleton e m⟩

theorem trans {e e' : Engine} {r : Engine × Bool} (h : e.Reaches dec (e', true))
    (h' : e'.Reaches dec r) : e.Reaches dec r := by
  obtain ⟨ms, hms⟩ := h
  obtain ⟨ms', rfl⟩ := h'
  exact ⟨ms ++ ms', moves_append hms ms'⟩

/-- What follows a call only happens if the call succeeded. -/
theorem andThen {e : Engine} {r r' : Engine × Bool} (h : e.Reaches dec r)
    (hstop : r.2 = false → r' = r) (hgo : r.2 = true → r.1.Reaches dec r') : e.Reaches dec r' := by
  obtain ⟨e', ok⟩ := r
  cases ok with
  | true => exact h.trans (hgo rfl)
  | false => exact hstop rfl ▸ h

end Reaches

/-- Every move meets a condition in the state in which it is made. -/
def Along (dec : TupleDecoder) (P : Engine → Move → Prop) : Engine → List Move → Prop
  | _, [] => True
  | e, m :: ms => P e m ∧ ∀ e', e.move dec m = (e', true) → Along dec P e' ms

theorem Along.cons {P : Engine → Move → Prop} {e : Engine} {m : Move} {ms : List Move} (h : P e m)
    (hrest : Along dec P (e.move dec m).1 ms) : Along dec P e (m :: ms) := by
  refine ⟨h, fun e' he' => ?_⟩
  obtain rfl := (Prod.ext_iff.mp he').1
  exact hrest

/-- An invariant of the moves that succeed, with what it gives also where one fails. -/
theorem moves_invariant {P : Engine → Move → Prop} {Inv Q : Engine → Prop}
    (hQ : ∀ e, Inv e → Q e)
    (hmove : ∀ e m, Inv e → P e m →
      Q (e.move dec m).1 ∧ ((e.move dec m).2 = true → Inv (e.move dec m).1))
    {e : Engine} {ms : List Move} (halong : Along dec P e ms) (h : Inv e) :
    Q (e.moves dec ms).1 ∧ ((e.moves dec ms).2 = true → Inv (e.moves dec ms).1) := by
  induction ms generalizing e with
  | nil => exact ⟨hQ e h, fun _ => h⟩
  | cons m ms ih =>
    obtain ⟨hP, hrest⟩ := halong
    obtain ⟨hq, hinv⟩ := hmove e m h hP
    rw [moves]
    split
    · rename_i e' heq
      rw [heq] at hinv
      exact ih (hrest e' heq) (hinv rfl)
    · rename_i e' heq
      rw [heq] at hq
      exact ⟨hq, fun hgo => by cases hgo⟩

/-- An invariant of all moves. -/
theorem moves_keep {P : Engine → Move → Prop} {Inv : Engine → Prop}
    (hmove : ∀ e m, Inv e → P e m → Inv (e.move dec m).1) {e : Engine} {ms : List Move} (halong : Along dec P e ms)
    (h : Inv e) : Inv (e.moves dec ms).1 := by
  have hboth : ∀ e m, Inv e → P e m → Inv (e.move dec m).1 ∧ ((e.move dec m).2 = true → Inv (e.move dec m).1) :=
    fun e m hinv hP => ⟨hmove e m hinv hP, fun _ => hmove e m hinv hP⟩
  exact (moves_invariant (fun _ hinv => hinv) hboth halong h).1

theorem along_true (e : Engine) (ms : List Move) : Along dec (fun _ _ => True) e ms := by
  induction ms generalizing e with
  | nil => trivial
  | cons m ms ih => exact ⟨trivial, fun e' _ => ih e'⟩

end Engine

/-! ## The drivers are made of moves -/

open Engine (Move Reaches)

variable (dec : TupleDecoder)

namespace MainState

theorem handleRecords_reaches (now : Instant) (recs : List (Lsn × Bytes)) (e : Engine) :
    e.Reaches dec (handleRecords dec now recs e) := by
  induction recs generalizing e with
  | nil => exact .refl e
  | cons r recs ih =>
    obtain ⟨lsn, bytes⟩ := r
    rw [handleRecords]
    split
    · rename_i rec _
      exact (Reaches.move e (.record now lsn (e.effectOf dec lsn rec))).trans (ih _)
    · exact .move e .stop
    · exact ih e

theorem receive_reaches (s : MainState) (now : Instant) (startLsn walEnd : Lsn) (data : Bytes) :
    let r := s.receive dec now startLsn walEnd data
    s.engine.Reaches dec (r.1.engine, r.2) := by
  simp only [receive]
  split
  · exact .move s.engine .stop
  · exact handleRecords_reaches dec now _ s.engine

theorem checkRemap_reaches (s : MainState) (env : PgEnv) (cfg : Config) (now : Instant) :
    let r := s.checkRemap dec env cfg now
    s.engine.Reaches dec (r.1.engine, r.2) := by
  simp only [checkRemap]
  split
  · exact .refl s.engine
  · rename_i ddlLsn _
    exact .move s.engine (.remap env cfg now ddlLsn s.persistedRestart)

theorem flush_reaches (s : MainState) (env : PgEnv) (now : Instant) :
    let r := s.flush env now
    s.engine.Reaches dec (r.1.engine, r.2) := by
  refine (Reaches.move s.engine (.flush env now s.persistedRestart)).andThen ?_ ?_
  · intro hfailed
    simp only [Engine.move] at hfailed ⊢
    simp [flush, hfailed]
  · intro hok
    simp only [Engine.move] at hok ⊢
    simp only [flush, hok, if_true]
    exact .move _ .compact

/-- An iteration of the replication loop is a sequence of moves. -/
theorem iterate_reaches (s : MainState) (env : PgEnv) (cfg : Config) (now : Instant)
    (input : MainInput) :
    let r := s.iterate dec env cfg now input
    s.engine.Reaches dec (r.1.engine, r.2) := by
  cases input with
  | xlogData startLsn walEnd data =>
    have hrecv := receive_reaches dec s now startLsn walEnd data
    simp only [iterate]
    generalize s.receive dec now startLsn walEnd data = r at hrecv ⊢
    obtain ⟨s₁, ok⟩ := r
    cases ok with
    | false => exact hrecv
    | true =>
      have hcheck := checkRemap_reaches dec s₁ env cfg now
      simp only [not_true, if_false]
      generalize s₁.checkRemap dec env cfg now = r at hcheck ⊢
      obtain ⟨s₂, ok⟩ := r
      cases ok with
      | false => exact hrecv.trans hcheck
      | true =>
        have happlied : s.engine.Reaches dec (s₂.setApplied.engine, true) :=
          (hrecv.trans hcheck).trans (.move s₂.engine (.applied s₂.lastRecvLsn))
        simp only [not_true, if_false]
        split
        · exact happlied.trans (flush_reaches dec s₂.setApplied env now)
        · exact happlied
  | keepalive walEnd replyRequested =>
    have happlied : s.engine.Reaches dec _ := .move s.engine (.applied (max walEnd s.lastRecvLsn))
    simp only [iterate]
    split
    · exact happlied
    · exact happlied
  | flushTick =>
    have hflush := flush_reaches dec s env now
    simp only [iterate]
    split
    · generalize s.flush env now = r at hflush ⊢
      obtain ⟨s₁, ok⟩ := r
      cases ok with
      | false => exact hflush
      | true => exact hflush
    · exact .refl s.engine
  | statusTick => exact .refl s.engine

end MainState

namespace EmbedState

theorem checkGap_reaches (s : EmbedState) (env : PgEnv) (now : Instant) (ev : SourceEvent) :
    let r := s.checkGap dec env now ev
    s.engine.Reaches dec (r.1.engine, r.2) := by
  simp only [checkGap]
  split
  · rename_i first _ _
    exact .move s.engine (.resnapshot env now (·.gapCheckArgs first))
  · exact .refl s.engine

theorem handleEvent_reaches (e : Engine) (env : PgEnv) (now : Instant) (ev : SourceEvent) :
    e.Reaches dec (handleEvent dec e env now ev) := by
  cases ev with
  | raw lsn bytes =>
    simp only [handleEvent]
    split
    · rename_i rec _
      exact (Reaches.move e (.record now lsn (e.effectOf dec lsn rec))).trans (.move _ (.applied lsn))
    · exact .move e .stop
    · exact .move e (.applied lsn)
  | commit lsn xid subxids =>
    exact (Reaches.move e (.record now lsn (.commit xid subxids))).trans (.move _ (.applied lsn))
  | abort lsn xid subxids => exact .move e (.record now lsn (.abort xid subxids))
  | smgrCreate xid db =>
    simp only [handleEvent, Engine.handleSmgrCreate]
    split
    · exact .move e (.record now 0 (.suspect xid))
    · exact .refl e
  | progress lsn => exact .move e (.applied lsn)
  | lost count =>
    exact (Reaches.move e .forget).trans (.move _ (.resnapshot env now fun t => some t.resnapshotAllArgs))

theorem checkRemap_reaches (s : EmbedState) (env : PgEnv) (cfg : Config) (now : Instant) :
    let r := s.checkRemap dec env cfg now
    s.engine.Reaches dec (r.1.engine, r.2) := by
  simp only [checkRemap]
  split
  · exact .refl s.engine
  · rename_i ddlLsn _
    exact .move s.engine (.remap env cfg now ddlLsn s.persistedRestart)

theorem flush_reaches (s : EmbedState) (env : PgEnv) (now : Instant) :
    let r := s.flush env now
    s.engine.Reaches dec (r.1.engine, r.2) := by
  refine (Reaches.move s.engine (.flush env now s.persistedRestart)).andThen ?_ ?_
  · intro hfailed
    simp only [Engine.move] at hfailed ⊢
    simp [flush, hfailed]
  · intro hok
    simp only [Engine.move] at hok ⊢
    simp only [flush, hok, if_true]
    exact .move _ .compact

/-- A turn of the embedded driver is a sequence of moves. -/
theorem step_reaches (s : EmbedState) (env : PgEnv) (cfg : Config) (now : Instant) (input : Input) :
    let r := s.step dec env cfg now input
    s.engine.Reaches dec (r.1.engine, r.2) := by
  cases input with
  | event ev =>
    have hgap := checkGap_reaches dec s env now ev
    simp only [step]
    generalize s.checkGap dec env now ev = r at hgap ⊢
    obtain ⟨s₁, ok⟩ := r
    cases ok with
    | false => exact hgap
    | true =>
      have hev := handleEvent_reaches dec s₁.engine env now ev
      simp only [not_true, if_false]
      generalize handleEvent dec s₁.engine env now ev = r at hev ⊢
      obtain ⟨e₂, ok⟩ := r
      cases ok with
      | false => exact hgap.trans hev
      | true =>
        have hcheck := checkRemap_reaches dec { s₁ with engine := e₂ } env cfg now
        simp only [not_true, if_false]
        generalize checkRemap dec { s₁ with engine := e₂ } env cfg now = r at hcheck ⊢
        obtain ⟨s₃, ok⟩ := r
        cases ok with
        | false => exact (hgap.trans hev).trans hcheck
        | true =>
          simp only [not_true, if_false]
          split
          · exact ((hgap.trans hev).trans hcheck).trans (flush_reaches dec s₃ env now)
          · exact (hgap.trans hev).trans hcheck
  | flushTick =>
    simp only [step]
    split
    · exact flush_reaches dec s env now
    · exact .refl s.engine

end EmbedState

end Ltap
