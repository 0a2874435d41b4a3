-- SUMMARY: Which first positions of the source the gap check of the embedded driver lets through.
import OpenLtap.Driver.Embed
import OpenLtap.Recovery.ExactlyOnce
import OpenLtap.Resnapshot.RemapTable

/-!
# The gap check

The embedded driver cannot choose where its stream starts. The gap check compares the
position of the first event with the commit watermark of each table. What the table
needs is the stream from its restart watermark on, which lies before the commit
watermark while a transaction is open. Between the two the gap check lets a stream
through that lacks ops of that transaction.
-/

namespace Ltap

/-- The embedded driver starts on the sinks of `tables`, up to the gap check on its first
event. -/
structure EmbeddedBoot (dec : TupleDecoder) (tables : List Table) where
  env : PgEnv
  cfg : Config
  now : Instant
  oracle : Option Oracle
  opened : List Table
  booted : List Table
  cands : List Lsn
  started : Engine
  firstLsn : Lsn
  /-- What the server answers during the gap check. -/
  gapEnv : PgEnv
  gapNow : Instant
  engine : Engine
  snapshot : cfg.snapshot
  opens : List.Forall₂ Table.Reopens tables opened
  resumes : resumeTables dec env cfg now oracle.isSome 0 opened = (booted, cands, true)
  builds : buildEngine env cfg booted (cands.min?.getD 0) oracle = some started
  checks : EmbedState.gapCheck dec started gapEnv gapNow firstLsn = (engine, true)

/-- The gap check made a re-snapshot of `t`, and `t'` is the result. -/
def Table.GapResnapshotted (dec : TupleDecoder) (t : Table) (firstLsn : Lsn) (t' : Table) : Prop :=
  ∃ args s, t.gapCheckArgs firstLsn = some args ∧ t.Resnapshotted dec args s t'

namespace EmbeddedBoot

variable {dec : TupleDecoder} {tables : List Table}

/-- For every resumed table the stream starts at or before the restart watermark, or above
the commit watermark. -/
def Safe (b : EmbeddedBoot dec tables) : Prop :=
  ∀ t ∈ tables, ∀ c r, t.sink.resumeState = ⟨some c, some r, some t.desc.relNode⟩ →
    b.firstLsn ≤ r ∨ 0 < c ∧ c < b.firstLsn

/-- No transaction straddles a cutover on a table that this boot snapshots, and the stream
starts at or before it. -/
def Unstraddled (b : EmbeddedBoot dec tables) (w : List WalEvent) : Prop :=
  ∀ i t u t', tables[i]? = some t → b.booted[i]? = some u → b.engine.tables[i]? = some t' →
    t.sink.resumeState.restartLsn = none ∨ Table.GapResnapshotted dec u b.firstLsn t' →
    b.firstLsn ≤ t'.dedupeBelow ∧ Covers w i t'.dedupeBelow t'.dedupeBelow

end EmbeddedBoot

/-- The embedded driver between two events. -/
structure Embedded where
  engine : Engine
  /-- A process is streaming. Otherwise only the sinks of `engine` mean anything. -/
  running : Bool
  /-- Number of records before the next one. -/
  pos : Nat

namespace Embedded

/-- One WAL stream, flush rounds, and any number of crashes: a new process can start in
every state. -/
inductive Step (dec : TupleDecoder) (w : List WalEvent) : Embedded → Embedded → Prop where
  | event {s : Embedded} (now : Instant) (ev : WalEvent) :
    s.running → w[s.pos]? = some ev →
    Step dec w s { s with
      engine := s.engine.applyEffect now ev.lsn ev.effect
      pos := s.pos + 1 }
  | flush {s : Embedded} (ok : AppendOk) (now : Instant) (persisted : Lsn) :
    s.running →
    Step dec w s { s with
      engine := (s.engine.flushAll ok now persisted).1
      running := (s.engine.flushAll ok now persisted).2.2 }
  | boot {s : Embedded} (b : EmbeddedBoot dec s.engine.tables) :
    b.Safe → b.Unstraddled w →
    Step dec w s ⟨b.engine, true, (w.takeWhile (·.lsn < b.firstLsn)).length⟩

/-- Reached from a new installation. -/
def Reachable (dec : TupleDecoder) (w : List WalEvent) (s : Embedded) : Prop :=
  ∃ s₀ : Embedded, s₀.running = false ∧
    (∀ t ∈ s₀.engine.tables, t.sink.resumeState = ⟨none, none, none⟩) ∧
    Relation.ReflTransGen (Step dec w) s₀ s

end Embedded

/-! ## The invariant -/

section Tracked

variable {w : List WalEvent} {i pos : Nat} {start : Lsn} {t t' : Table} {ev : WalEvent}

/-- What the sink of a table promises about the stream. -/
def Table.Watermarked (w : List WalEvent) (i : Nat) (t : Table) : Prop :=
  t.sink.resumeState = ⟨none, none, none⟩ ∨
    ∃ c r, t.sink.resumeState = ⟨some c, some r, some t.desc.relNode⟩ ∧ Covers w i c r

/-- What the process keeps about table `i`. -/
structure Tracked (w : List WalEvent) (i pos : Nat) (start : Lsn) (t : Table) : Prop where
  seen : Covers w i t.dedupeBelow start
  dedupe_le : t.pending.rows ≠ [] → t.dedupeBelow ≤ t.pending.maxCommitLsn
  changes_le : ∀ p ∈ emission i (w.take pos),
    t.dedupeBelow < p.1 → p.1 ≤ t.pending.maxCommitLsn

theorem Tracked.event (hev : w[pos]? = some ev) (ht : Tracked w i pos start t)
    (hc : Table.Committed t ev.lsn (if t.dedupeBelow < ev.lsn then
      (((Held.ofWal (w.take pos)).since start).visible i ev).map (·.2) else []) t') :
    Tracked w i (pos + 1) start t' := by
  by_cases hlt : t.dedupeBelow < ev.lsn
  · rw [if_pos hlt, Held.visible_since (ht.seen pos ev hev hlt)] at hc
    refine ⟨hc.dedupeBelow ▸ ht.seen, ?_, ?_⟩
    · intro hne
      obtain ⟨rows, hrows, hemits⟩ := hc.rows
      rw [hc.dedupeBelow, hc.maxCommitLsn]
      split
      · rename_i hnil
        rw [hnil] at hemits
        cases hemits
        exact ht.dedupe_le (by simpa [hrows] using hne)
      · exact le_max_of_le_right (le_of_lt hlt)
    · rw [hc.dedupeBelow]
      exact le_maxCommit_of_emission hev hc ht.changes_le
  · -- A replayed commit is dropped.
    rw [if_neg hlt] at hc
    obtain ⟨rows, hrows, hemits⟩ := hc.rows
    cases hemits
    refine ⟨hc.dedupeBelow ▸ ht.seen, ?_, ?_⟩
    · intro hne
      rw [hc.dedupeBelow, hc.maxCommitLsn, if_pos rfl]
      exact ht.dedupe_le (by simpa [hrows] using hne)
    · intro p hp hgt
      rw [hc.dedupeBelow] at hgt
      rw [hc.maxCommitLsn, if_pos rfl]
      rw [emission_take_succ hev] at hp
      rcases List.mem_append.mp hp with hp | hp
      · exact ht.changes_le p hp hgt
      · rw [Held.lsn_of_mem_visible hp] at hgt
        exact absurd hgt hlt

theorem Tracked.flush (ht : Tracked w i pos start t) (restart : Lsn) :
    Tracked w i pos start (t.flush restart) :=
  ⟨ht.seen, fun hne => absurd rfl hne, ht.changes_le⟩

/-- A table whose stream starts early enough for its dedupe watermark. -/
theorem Tracked.boot (hw : Increasing w) (hrows : t.pending.rows = [])
    (hcov : Covers w i t.dedupeBelow start) :
    Tracked w i (w.takeWhile (·.lsn < start)).length start t := by
  refine ⟨hcov, fun hne => absurd hrows hne, fun p hp hlt => ?_⟩
  have : p ∈ (emission i (w.take (w.takeWhile (·.lsn < start)).length)).filter
      (t.dedupeBelow < ·.1) := List.mem_filter.mpr ⟨hp, by simpa using hlt⟩
  simp [hcov.skipped hw] at this

end Tracked

/-- The invariant of a run. -/
structure Embedded.Inv (w : List WalEvent) (s : Embedded) : Prop where
  durable : ∀ i t, s.engine.tables[i]? = some t → Table.Watermarked w i t
  volatile : s.running → ∃ start, Reading w s.pos start s.engine ∧
    ∀ i t, s.engine.tables[i]? = some t → Tracked w i s.pos start t

/-! ## Starting the process -/

namespace EmbeddedBoot

variable {dec : TupleDecoder} {tables : List Table} {w : List WalEvent} {i : Nat} {t t' : Table}

/-- What the gap check finds in place of a table of the last process. -/
inductive Found (t u : Table) : Prop where
  | resumed (c r : Lsn) :
    t.sink.resumeState = ⟨some c, some r, some t.desc.relNode⟩ →
    u.sink.resumeState = t.sink.resumeState → u.dedupeBelow = c → Found t u
  | snapshotted :
    t.sink.resumeState.restartLsn = none →
    (u.sink.resumeState = ⟨none, none, none⟩ ∨ u.sink.resumeState =
      ⟨some u.dedupeBelow, some u.dedupeBelow, some u.desc.relNode⟩) → Found t u

theorem lengths (b : EmbeddedBoot dec tables) : b.engine.tables.length = tables.length := by
  obtain ⟨hstarted, -, -⟩ := buildEngine_some b.builds
  have hgap := congrArg (fun r => r.1.tables.length) b.checks
  have hres := congrArg (fun r => r.1.length) b.resumes
  simp only [EmbedState.gapCheck, resnapshotTables_length, hstarted] at hgap
  simp only [resumeTables_length] at hres
  rw [← hgap, ← hres, b.opens.length_eq]

/-- A gap check that succeeds leaves a table alone or re-snapshots it. -/
theorem exists_gapChecked (b : EmbeddedBoot dec tables) {u : Table} (hu : b.booted[i]? = some u) :
    ∃ t', b.engine.tables[i]? = some t' ∧
      (u.gapCheckArgs b.firstLsn = none ∧ t' = u ∨ u.GapResnapshotted dec b.firstLsn t') := by
  obtain ⟨hstarted, -, -⟩ := buildEngine_some b.builds
  have hgap : resnapshotTables dec b.gapEnv b.gapNow (·.gapCheckArgs b.firstLsn) 0 b.booted =
      (b.engine.tables, true) := by
    have h := b.checks
    simp only [EmbedState.gapCheck, hstarted, Prod.mk.injEq] at h
    obtain ⟨hengine, hok⟩ := h
    exact Prod.ext (by rw [← hengine]) hok
  obtain ⟨t', ht', hnone | ⟨args, s, hargs, -, hs⟩⟩ := resnapshotTables_ok hgap hu
  · exact ⟨t', ht', .inl hnone⟩
  · exact ⟨t', ht', .inr ⟨args, s, hargs, hs⟩⟩

/-- Every table goes through `resume_tables` and the gap check. -/
theorem exists_found (b : EmbeddedBoot dec tables) (ht : tables[i]? = some t)
    (hmarks : t.sink.resumeState = ⟨none, none, none⟩ ∨
      ∃ c r, t.sink.resumeState = ⟨some c, some r, some t.desc.relNode⟩) :
    ∃ u t', b.booted[i]? = some u ∧ b.engine.tables[i]? = some t' ∧ Found t u ∧
      u.desc = t.desc ∧ u.pending = .empty ∧
      (u.gapCheckArgs b.firstLsn = none ∧ t' = u ∨ u.GapResnapshotted dec b.firstLsn t') := by
  obtain ⟨o, ho, hreopen⟩ : ∃ o, b.opened[i]? = some o ∧ t.Reopens o := by
    obtain ⟨hlt, heq⟩ := List.getElem?_eq_some_iff.mp ht
    have hlt' : i < b.opened.length := b.opens.length_eq ▸ hlt
    refine ⟨b.opened[i], List.getElem?_eq_getElem hlt', ?_⟩
    rw [← heq]
    exact b.opens.get hlt hlt'
  obtain ⟨htable, hdesc, hpending, hcols⟩ := hreopen.table
  have hstate : o.sink.resumeState = t.sink.resumeState := by
    simp [DeltaSink.resumeState, htable]
  obtain ⟨hu, hok, -⟩ := resumeTables_ok b.resumes ho
  rw [Nat.zero_add] at hu hok
  obtain ⟨t', ht', hcase⟩ := b.exists_gapChecked hu
  refine ⟨_, t', hu, ht', ?_⟩
  rcases hmarks with hfresh | ⟨c, r, hmarks⟩
  · have hspec := Table.resume_of_fresh dec b.env b.cfg b.now b.oracle.isSome
      (hstate.trans hfresh) b.snapshot i
    obtain ⟨hdesc', hpend', hsink, -⟩ := hspec
    refine ⟨.snapshotted (by simp [hfresh]) ?_, hdesc'.trans hdesc, hpend'.trans hpending, hcase⟩
    rcases hsink with hsame | ⟨hnew, -⟩
    · exact .inl (by rw [hsame, hstate, hfresh])
    · exact .inr (by rw [hnew, hdesc'])
  · have hspec := Table.resume_of_watermarks dec b.env b.cfg b.now b.oracle.isSome (t := o)
      (c := c) (r := r) (by rw [hstate, hmarks, hdesc]) hcols i
    obtain ⟨hsink, hdesc', hpend', hded⟩ := hspec
    exact ⟨.resumed c r hmarks (by rw [hsink, hstate]) (hded hok).1, hdesc'.trans hdesc,
      hpend'.trans hpending, hcase⟩

/-- A table that the gap check re-snapshots covers the stream from its new cutover on. -/
theorem boot_of_resnapshotted {first : Lsn} {u : Table} (hw : Increasing w)
    (hsnap : u.GapResnapshotted dec first t') (hle : first ≤ t'.dedupeBelow)
    (hcov : Covers w i t'.dedupeBelow t'.dedupeBelow) :
    t'.Watermarked w i ∧ Tracked w i (w.takeWhile (·.lsn < first)).length first t' ∧
      t'.pending.rows = [] := by
  obtain ⟨args, s, hargs, hs⟩ := hsnap
  unfold Table.gapCheckArgs at hargs
  split at hargs
  · rename_i hgap
    obtain rfl := Option.some.inj hargs
    refine ⟨.inr ⟨_, _, ?_, hcov.mono (le_trans (le_of_lt hgap.2) hle)⟩,
      .boot hw hs.pending (hcov.mono hle), hs.pending⟩
    rw [hs.watermarks, hs.dedupeBelow, hs.desc]
  · cases hargs

/-- A safe boot finds every table covered from the first event on. -/
theorem boot_table (hw : Increasing w) (b : EmbeddedBoot dec tables) (hsafe : b.Safe)
    (hclean : b.Unstraddled w) (ht : tables[i]? = some t) (hd : t.Watermarked w i)
    (ht' : b.engine.tables[i]? = some t') :
    t'.Watermarked w i ∧ Tracked w i (w.takeWhile (·.lsn < b.firstLsn)).length b.firstLsn t' ∧
      t'.pending.rows = [] := by
  obtain ⟨u, v, hu, hv, hfound, hdesc, hpending, hcase⟩ :=
    b.exists_found ht (hd.imp_right fun ⟨c, r, h, _⟩ => ⟨c, r, h⟩)
  obtain rfl : v = t' := Option.some.inj (hv.symm.trans ht')
  rcases hcase with ⟨hnone, rfl⟩ | hsnap
  · have hrows : v.pending.rows = [] := by rw [hpending]; rfl
    cases hfound with
    | resumed c r hmarks hsame hded =>
      rcases hd with hfresh | ⟨c', r', hmarks', hcov⟩
      · simp [hfresh] at hmarks
      · simp only [hmarks, ResumeState.mk.injEq, Option.some.injEq] at hmarks'
        obtain ⟨rfl, rfl, -⟩ := hmarks'
        have hle : b.firstLsn ≤ r := by
          refine (hsafe t (List.mem_of_getElem? ht) c r hmarks).resolve_right fun hgap => ?_
          rw [Table.gapCheckArgs, hded, if_pos hgap] at hnone
          cases hnone
        refine ⟨.inr ⟨c, r, by rw [hsame, hmarks, hdesc], hcov⟩, .boot hw hrows ?_, hrows⟩
        rw [hded]
        exact hcov.mono hle
    | snapshotted hfresh hmarks =>
      obtain ⟨hle, hcov⟩ := hclean i t v v ht hu ht' (.inl hfresh)
      exact ⟨hmarks.imp_right fun h => ⟨_, _, h, hcov⟩, .boot hw hrows (hcov.mono hle), hrows⟩
  · obtain ⟨hle, hcov⟩ := hclean i t u v ht hu ht' (.inr hsnap)
    exact boot_of_resnapshotted hw hsnap hle hcov

end EmbeddedBoot

/-! ## Runs -/

namespace Embedded

variable {dec : TupleDecoder} {w : List WalEvent} {s s' : Embedded}

theorem Inv.step (hw : Increasing w) (hi : s.Inv w) (h : Step dec w s s') : s'.Inv w := by
  cases h with
  | event now ev hrun hev =>
    obtain ⟨start, hr, htr⟩ := hi.volatile hrun
    have ho := held_ordered hw s.pos start
    refine ⟨?_, fun _ => ⟨start, hr.event hw hev now, ?_⟩⟩
    · intro i t' ht'
      obtain ⟨t, ht, hc⟩ := Engine.applyEffect_table hr.held ho now ht'
      have hd := hi.durable i t ht
      rwa [Table.Watermarked, ← hc.sink, ← hc.desc] at hd
    · intro i t' ht'
      obtain ⟨t, ht, hc⟩ := Engine.applyEffect_table hr.held ho now ht'
      exact (htr i t ht).event hev hc
  | flush ok now persisted hrun =>
    obtain ⟨start, hr, htr⟩ := hi.volatile hrun
    unfold Engine.flushAll
    split
    · exact ⟨hi.durable, fun _ => hi.volatile hrun⟩
    · rename_i hpending
      have hcommit := hr.lastCommit_le hpending
      refine ⟨?_, fun _ => ⟨start, ⟨hr.held, hr.ahead, .inr hcommit⟩, ?_⟩⟩
      · intro i t' ht'
        obtain ⟨t, ht, rfl | ⟨hne, rfl⟩⟩ := flushTables_cases ht'
        · exact hi.durable i t' ht
        · exact .inr ⟨_, _, rfl, hr.covers_restart hw hcommit (htr i t ht).seen
            ((htr i t ht).dedupe_le hne) (htr i t ht).changes_le⟩
      · intro i t' ht'
        obtain ⟨t, ht, rfl | ⟨hne, rfl⟩⟩ := flushTables_cases ht'
        · exact htr i t' ht
        · exact (htr i t ht).flush _
  | boot b hsafe hclean =>
    have hfind : ∀ {i : Nat} {t' : Table}, b.engine.tables[i]? = some t' →
        ∃ t, s.engine.tables[i]? = some t := by
      intro i t' ht'
      have hlt := (List.getElem?_eq_some_iff.mp ht').1
      rw [b.lengths] at hlt
      exact ⟨_, List.getElem?_eq_getElem hlt⟩
    have htable : ∀ i t', b.engine.tables[i]? = some t' → t'.Watermarked w i ∧
        Tracked w i (w.takeWhile (·.lsn < b.firstLsn)).length b.firstLsn t' ∧
        t'.pending.rows = [] := by
      intro i t' ht'
      obtain ⟨t, ht⟩ := hfind ht'
      exact b.boot_table hw hsafe hclean ht (hi.durable i t ht) ht'
    refine ⟨fun i t' ht' => (htable i t' ht').1, fun _ => ⟨b.firstLsn, ?_,
      fun i t' ht' => (htable i t' ht').2.1⟩⟩
    refine ⟨?_, (hw.takeWhile b.firstLsn).2, .inl ?_⟩
    · change b.engine.txbuf.Refines _
      have htxbuf : b.engine.txbuf = .empty := by
        obtain ⟨-, htxbuf, -⟩ := buildEngine_some b.builds
        have := congrArg (fun r => r.1.txbuf) b.checks
        exact this.symm.trans htxbuf
      rw [htxbuf, hw.since_takeWhile]
      exact .empty
    · intro t' ht'
      obtain ⟨i, ht'⟩ := List.getElem?_of_mem ht'
      exact (htable i t' ht').2.2

theorem Reachable.inv (hw : Increasing w) (h : Reachable dec w s) : s.Inv w := by
  obtain ⟨s₀, hstop, hfresh, hrun⟩ := h
  induction hrun with
  | refl =>
    refine ⟨fun i t ht => .inl (hfresh t (List.mem_of_getElem? ht)), fun hrun => ?_⟩
    simp [hstop] at hrun
  | tail _ hstep ih => exact ih.step hw hstep

end Embedded

/-! ## Completeness -/

/-- After the gap check on a first event at `first`, a resumed table with commit watermark `c`
and restart watermark `r` either sees every transaction that commits above its dedupe
watermark as a whole, or has been re-snapshotted. This is for every history and every run
that leaves such a table. -/
def GapCheckComplete (dec : TupleDecoder) (c r first : Lsn) : Prop :=
  ∀ (w : List WalEvent) (s : Embedded) (b : EmbeddedBoot dec s.engine.tables) (i : Nat)
    (t u t' : Table), Increasing w → s.Reachable dec w → b.firstLsn = first →
    s.engine.tables[i]? = some t →
    t.sink.resumeState = ⟨some c, some r, some t.desc.relNode⟩ →
    b.booted[i]? = some u → b.engine.tables[i]? = some t' →
    Covers w i u.dedupeBelow first ∨ u.GapResnapshotted dec first t'

theorem gapCheckComplete_of_safe (dec : TupleDecoder) {c r first : Lsn}
    (hsafe : first ≤ r ∨ 0 < c ∧ c < first) : GapCheckComplete dec c r first := by
  rintro w s b i t u t' hw hreach rfl ht hmarks hu ht'
  obtain ⟨u', v, hu', hv, hfound, -, -, hcase⟩ := b.exists_found ht (.inr ⟨c, r, hmarks⟩)
  obtain rfl : u' = u := Option.some.inj (hu'.symm.trans hu)
  obtain rfl : v = t' := Option.some.inj (hv.symm.trans ht')
  rcases hcase with ⟨hnone, rfl⟩ | hsnap
  · left
    cases hfound with
    | snapshotted hfresh _ => simp [hmarks] at hfresh
    | resumed c' r' hmarks' _ hded =>
      rw [hmarks, ResumeState.mk.injEq, Option.some.injEq, Option.some.injEq] at hmarks'
      obtain ⟨rfl, rfl, -⟩ := hmarks'
      have hle : b.firstLsn ≤ r := by
        refine hsafe.resolve_right fun hgap => ?_
        rw [Table.gapCheckArgs, hded, if_pos hgap] at hnone
        cases hnone
      rcases (hreach.inv hw).durable i t ht with hfresh | ⟨c', r', hmarks', hcov⟩
      · simp [hfresh] at hmarks
      · rw [hmarks, ResumeState.mk.injEq, Option.some.injEq, Option.some.injEq] at hmarks'
        obtain ⟨rfl, rfl, -⟩ := hmarks'
        rw [hded]
        exact hcov.mono hle
  · exact .inr hsnap

/-! ## A stream that starts between the watermarks -/

theorem gapCheck_none {dec : TupleDecoder} {e : Engine} {env : PgEnv} {now : Instant}
    {first : Lsn} (h : ∀ t ∈ e.tables, t.gapCheckArgs first = none) :
    EmbedState.gapCheck dec e env now first = (e, true) := by
  simp only [EmbedState.gapCheck, resnapshotTables_none h]

/-- A flush round of the only table. -/
theorem Engine.flushAll_singleton {e : Engine} {t : Table} {ok : AppendOk} {now : Instant}
    {persisted : Lsn} (ht : e.tables = [t]) (hrows : t.pending.rows ≠ [])
    (hok : ok 0 .flush = true) :
    (e.flushAll ok now persisted).1.tables = [t.flush e.restartLsn] := by
  have hpending : e.pendingTotal ≠ 0 := by
    simpa [pendingTotal, ht] using hrows
  simp [flushAll, hpending, flushTables, ht, hrows, hok]

namespace Sample

/-- A table of a new installation, snapshotted at `k` when it was empty. -/
def emptyTable (k : Lsn) : Table :=
  { Table.opened (desc "t" 16384) (sink (desc "t" 16384)) with dedupeBelow := k }

def firstRow : Op := .insert (0, 1) ⟨[some (.i32 1)], none⟩

def secondRow : Op := .insert (0, 2) ⟨[some (.i32 2)], none⟩

/-- Transaction 7 inserts at `k + 1` and stays open across the commit of transaction 8 at `c`. -/
def straddledWal (k c : Lsn) : List WalEvent :=
  [⟨k, .ops 8 0 [firstRow]⟩, ⟨k + 1, .ops 7 0 [secondRow]⟩, ⟨c, .commit 8 []⟩,
    ⟨c + 1, .commit 7 []⟩]

/-- The engine around one resumed table. -/
def engineOn (t : Table) (resumeFrom : Lsn) : Engine :=
  Engine.rebuildRouting { engine [] with
    tables := [t]
    catalogRels := [1249, 1259].toFinset
    lastCommitLsn := resumeFrom }

/-- The first start of the process. -/
def firstBoot (dec : TupleDecoder) (k : Lsn) :
    EmbeddedBoot dec (engine [desc "t" 16384]).tables where
  env := env [desc "t" 16384] k
  cfg := cfg
  now := 0
  oracle := none
  opened := (engine [desc "t" 16384]).tables
  booted := [emptyTable k]
  cands := [k]
  started := engineOn (emptyTable k) k
  firstLsn := k
  gapEnv := env [desc "t" 16384] k
  gapNow := 0
  engine := engineOn (emptyTable k) k
  snapshot := rfl
  opens := .cons ⟨_, rfl, rfl, rfl⟩ .nil
  resumes := rfl
  builds := rfl
  checks := gapCheck_none fun t ht => by
    obtain rfl := List.mem_singleton.mp ht
    simp [Table.gapCheckArgs, emptyTable]

/-- The table after transaction 8 was flushed. -/
def flushedTable (k c : Lsn) : Table := ((emptyTable k).applyOp 0 c firstRow).flush (k + 1)

/-- The table as the next process resumes it. -/
def reopened (dec : TupleDecoder) (k c : Lsn) : Table :=
  (Table.opened (desc "t" 16384) (flushedTable k c).sink).resumed dec ∅

theorem reopened_dedupeBelow (dec : TupleDecoder) (k c : Lsn) :
    (reopened dec k c).dedupeBelow = c :=
  Nat.zero_max c

theorem reopened_gapCheckArgs (dec : TupleDecoder) {c f : Lsn} (k : Lsn) (h : f ≤ c) :
    (reopened dec k c).gapCheckArgs f = none := by
  rw [Table.gapCheckArgs, reopened_dedupeBelow, if_neg fun hgap => not_lt.mpr h hgap.2]

/-- The next start, with a first event at or below the commit watermark. -/
def secondBoot (dec : TupleDecoder) {k c f : Lsn} (h : f ≤ c) :
    EmbeddedBoot dec [flushedTable k c] where
  env := env [desc "t" 16384] k
  cfg := cfg
  now := 0
  oracle := none
  opened := [Table.opened (desc "t" 16384) (flushedTable k c).sink]
  booted := [reopened dec k c]
  cands := [k + 1]
  started := engineOn (reopened dec k c) (k + 1)
  firstLsn := f
  gapEnv := env [desc "t" 16384] k
  gapNow := 0
  engine := engineOn (reopened dec k c) (k + 1)
  snapshot := rfl
  opens := .cons ⟨_, rfl, rfl, rfl⟩ .nil
  resumes := rfl
  builds := rfl
  checks := gapCheck_none fun t ht => by
    obtain rfl := List.mem_singleton.mp ht
    exact reopened_gapCheckArgs dec k h

theorem straddledWal_increasing {k c : Lsn} (hkc : k + 1 < c) : Increasing (straddledWal k c) := by
  simp only [Increasing, straddledWal, List.pairwise_cons, List.mem_cons, List.not_mem_nil,
    or_false, forall_eq_or_imp, forall_eq, List.Pairwise.nil, and_true]
  lia

/-- The insert of transaction 7 lies before every position above it. -/
theorem not_covers_straddledWal {k c f : Lsn} (hkf : k + 1 < f) :
    ¬ Covers (straddledWal k c) 0 c f := by
  intro hcov
  have hle := hcov 3 ⟨c + 1, .commit 7 []⟩ rfl (Nat.lt_succ_self c) ⟨k + 1, 0, secondRow⟩ ?_ rfl
  · exact absurd hle (not_le.mpr hkf)
  · exact List.mem_singleton.mpr rfl

/-- The first process flushes transaction 8 while transaction 7 is open. -/
theorem flushed_reachable (dec : TupleDecoder) {k c : Lsn} (hkc : k + 1 < c) :
    ∃ s, Embedded.Reachable dec (straddledWal k c) s ∧ s.engine.tables = [flushedTable k c] := by
  have hclean : (firstBoot dec k).Unstraddled (straddledWal k c) := by
    rintro i t u t' ht hu ht' -
    cases i with
    | zero =>
      obtain rfl : emptyTable k = t' := Option.some.inj ht'
      refine ⟨le_rfl, fun n ev hn _ p hp _ => ?_⟩
      obtain ⟨x, hx⟩ := Held.mem_of_mem_committedBy hp
      obtain ⟨ev', hmem, heq⟩ := Held.lsn_mem_of_mem_ofWal hx
      have hall : ∀ ev ∈ straddledWal k c, k ≤ ev.lsn := by
        simp only [straddledWal, List.mem_cons, List.not_mem_nil, or_false, forall_eq_or_imp,
          forall_eq]
        lia
      exact heq ▸ hall ev' (List.mem_of_mem_take hmem)
    | succ i => cases ht
  have hboot : Embedded.Step dec (straddledWal k c)
      ⟨engine [desc "t" 16384], false, 0⟩ ⟨engineOn (emptyTable k) k, true, 0⟩ := by
    have := Embedded.Step.boot (w := straddledWal k c)
      (s := ⟨engine [desc "t" 16384], false, 0⟩) (firstBoot dec k) ?_ hclean
    · simpa [firstBoot, straddledWal] using this
    · intro t ht c r hmarks
      obtain rfl := List.mem_singleton.mp ht
      cases hmarks
  have hrun := (((Relation.ReflTransGen.single hboot).tail (.event 0 _ rfl rfl)).tail
    (.event 0 _ rfl rfl)).tail (.event 0 _ rfl rfl)
  refine ⟨_, ⟨_, rfl, ?_, hrun.tail (.flush (fun _ _ => true) 0 k rfl)⟩, ?_⟩
  · intro t ht
    obtain rfl := List.mem_singleton.mp ht
    rfl
  · have hnew : ¬ c ≤ k := by lia
    have htables : Engine.commitOps 0 c [emptyTable k] [⟨k, 0, firstRow⟩] =
        [(emptyTable k).applyOp 0 c firstRow] := by
      change [(emptyTable k).commitOp 0 c firstRow] = _
      rw [Table.commitOp, if_neg (by exact hnew)]
    refine Engine.flushAll_singleton ?_ (by simp [Table.applyOp, firstRow, PendingBatch.emit]) rfl
    exact htables

/-- A first event between the two watermarks passes the gap check. -/
theorem exists_straddled (dec : TupleDecoder) {k c f : Lsn} (hkf : k + 1 < f) (hfc : f ≤ c) :
    ∃ (s : Embedded) (b : EmbeddedBoot dec s.engine.tables) (t u : Table),
      Increasing (straddledWal k c) ∧ s.Reachable dec (straddledWal k c) ∧ b.firstLsn = f ∧
      s.engine.tables[0]? = some t ∧
      t.sink.resumeState = ⟨some c, some (k + 1), some t.desc.relNode⟩ ∧
      b.booted[0]? = some u ∧ b.engine.tables[0]? = some u ∧
      ¬ (Covers (straddledWal k c) 0 u.dedupeBelow f ∨ u.GapResnapshotted dec f u) := by
  have hkc : k + 1 < c := lt_of_lt_of_le hkf hfc
  obtain ⟨s, hreach, htables⟩ := flushed_reachable dec hkc
  refine ⟨s, ?_⟩
  rw [htables]
  refine ⟨secondBoot dec hfc, _, _, straddledWal_increasing hkc, hreach, rfl, rfl, ?_, rfl, rfl, ?_⟩
  · simp [DeltaSink.resumeState, flushedTable, Table.flush, Table.applyOp, firstRow,
      PendingBatch.emit, emptyTable, Table.opened, PendingBatch.empty]
  · rintro (hcov | ⟨args, _, hargs, -⟩)
    · rw [reopened_dedupeBelow] at hcov
      exact not_covers_straddledWal hkf hcov
    · rw [reopened_gapCheckArgs dec k hfc] at hargs
      cases hargs

end Sample

/-- The gap check is complete for a table if and only if the stream starts at or before the
restart watermark, or above the commit watermark. -/
theorem gapCheckComplete_iff (dec : TupleDecoder) {c r first : Lsn} (hc : 0 < c) (hr : 0 < r) :
    GapCheckComplete dec c r first ↔ first ≤ r ∨ c < first := by
  constructor
  · intro hcomplete
    by_contra hbetween
    simp only [not_or, not_le, not_lt] at hbetween
    obtain ⟨hrf, hfc⟩ := hbetween
    obtain ⟨k, rfl⟩ := Nat.exists_eq_succ_of_ne_zero (Nat.ne_of_gt hr)
    obtain ⟨s, b, t, u, hw, hreach, hfirst, ht, hmarks, hu, ht', hnot⟩ :=
      Sample.exists_straddled dec hrf hfc
    exact hnot (hcomplete _ s b 0 t u u hw hreach hfirst ht hmarks hu ht')
  · intro hsafe
    exact gapCheckComplete_of_safe dec (hsafe.imp_right fun h => ⟨hc, h⟩)

theorem gapCheckComplete_iff_between :
    GapCheckComplete .reject 30 20 15 ∧ ¬ GapCheckComplete .reject 30 20 25 :=
  ⟨(gapCheckComplete_iff .reject (by decide) (by decide)).mpr (by decide),
    fun h => absurd ((gapCheckComplete_iff .reject (by decide) (by decide)).mp h) (by decide)⟩

/-- Transaction 7 writes at 20 and is open when transaction 8, committed at 30, is flushed.
The next stream starts at 25 and passes the gap check without the op at 20. -/
theorem gapCheck_passes_skipped_op :
    ∃ (s : Embedded) (b : EmbeddedBoot .reject s.engine.tables) (t u : Table),
      Increasing (Sample.straddledWal 19 30) ∧ s.Reachable .reject (Sample.straddledWal 19 30) ∧
      b.firstLsn = 25 ∧ s.engine.tables[0]? = some t ∧
      t.sink.resumeState = ⟨some 30, some 20, some t.desc.relNode⟩ ∧
      b.booted[0]? = some u ∧ b.engine.tables[0]? = some u ∧
      ¬ (Covers (Sample.straddledWal 19 30) 0 u.dedupeBelow 25 ∨ u.GapResnapshotted .reject 25 u) :=
  Sample.exists_straddled .reject (by decide) (by decide)

end Ltap
