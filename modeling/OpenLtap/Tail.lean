-- SUMMARY: No gap between Delta and the served tail.
import OpenLtap.Engine.Sinks
import OpenLtap.Recovery.Emission
import OpenLtap.Resnapshot.RemapTable

/-!
# The tail and the pending batches

A committed row is kept twice until it is durable: in the pending batch of its table and
in an unflushed batch of the tail. Commits add to both copies, a flush round clears the
one and marks the other, and the row limit takes flushed batches only. Renames come after
a flush round, when there are no pending rows.
-/

namespace Ltap

/-! ## The tail store -/

/-- What the row limit leaves of a table's batches. -/
structure Evicted (cap : Nat) (bs bs' : List TailBatch) : Prop where
  sublist : bs'.Sublist bs
  unflushed : bs'.filter (·.flushedAt.isNone) = bs.filter (·.flushedAt.isNone)
  /-- The oldest flushed batches go first. -/
  oldest : bs'.filter (·.flushedAt.isSome) <:+ bs.filter (·.flushedAt.isSome)
  bounded : TailStore.numRows bs' ≤ cap ∨ ∀ b ∈ bs', b.flushedAt = none

namespace TailStore

/-- A row is in an unflushed batch of a table. -/
def Serves (s : TailStore) (table : String) (row : EmitRow) : Prop :=
  ∃ b ∈ s.batches table, b.flushedAt = none ∧ row ∈ b.batch.rows

theorem evict_evicted {cap fuel : Nat} {bs : List TailBatch} (hfuel : bs.length ≤ fuel) :
    Evicted cap bs (evict cap fuel bs) := by
  induction fuel generalizing bs with
  | zero =>
    obtain rfl := List.length_eq_zero_iff.mp (Nat.le_zero.mp hfuel)
    exact ⟨List.Sublist.refl _, rfl, List.suffix_refl _, .inr (by simp [evict])⟩
  | succ fuel ih =>
    rw [evict]
    split
    · split
      · rename_i pos hpos
        obtain ⟨hlt, hflushed, hbefore⟩ := List.findIdx?_eq_some_iff_getElem.mp hpos
        have hsplit : bs = bs.take pos ++ bs[pos] :: bs.drop (pos + 1) := by
          rw [List.getElem_cons_drop, List.take_append_drop]
        have hnone : (bs.take pos).filter (·.flushedAt.isSome) = [] := by
          refine List.filter_eq_nil_iff.mpr fun b hb => ?_
          obtain ⟨j, hj, rfl⟩ := List.mem_take_iff_getElem.mp hb
          exact hbefore j (lt_of_lt_of_le hj (min_le_left _ _))
        have hlen : (bs.eraseIdx pos).length ≤ fuel := by
          rw [List.length_eraseIdx_of_lt hlt]
          omega
        have ih := ih hlen
        refine ⟨ih.sublist.trans (List.eraseIdx_sublist _ _), ?_, ih.oldest.trans ?_, ih.bounded⟩
        · rw [ih.unflushed, List.eraseIdx_eq_take_drop_succ, List.filter_append]
          conv_rhs => rw [hsplit, List.filter_append]
          rw [List.filter_cons_of_neg (by simpa using Option.isSome_iff_ne_none.mp hflushed)]
        · rw [List.eraseIdx_eq_take_drop_succ, List.filter_append, hnone, List.nil_append]
          conv_rhs => rw [hsplit, List.filter_append, hnone, List.nil_append]
          rw [List.filter_cons_of_pos (by exact hflushed)]
          exact List.suffix_cons _ _
      · rename_i hnone
        refine ⟨List.Sublist.refl _, rfl, List.suffix_refl _, .inr fun b hb => ?_⟩
        simpa using List.findIdx?_eq_none_iff.mp hnone b hb
    · rename_i hcap
      exact ⟨List.Sublist.refl _, rfl, List.suffix_refl _, .inl (not_lt.mp hcap)⟩

theorem push_batches (s : TailStore) (table name : String) (batch : RecordBatch) :
    (s.push table batch).batches name =
      if name = table then s.batches name ++ [{ batch, flushedAt := none }] else s.batches name := by
  by_cases h : name = table
  · subst h
    simp [push, batches]
  · simp [push, batches, h]

theorem enforceCap_batches (s : TailStore) (table name : String) (cap : Nat) :
    (s.enforceCap table cap).batches name =
      if name = table then evict cap (s.batches name).length (s.batches name)
      else s.batches name := by
  unfold enforceCap
  by_cases h : name = table
  · subst h
    cases hlookup : s.tables.lookup name with
    | none => simp [batches, hlookup, evict]
    | some bs => simp [batches, hlookup]
  · cases s.tables.lookup table with
    | none => simp [h]
    | some bs => simp [batches, h]

theorem markFlushed_batches_of_ne {s : TailStore} {table name : String} (h : name ≠ table)
    (now : Instant) (retain : Nat) :
    (s.markFlushed now table retain).batches name = s.batches name := by
  unfold markFlushed
  cases s.tables.lookup table with
  | none => rfl
  | some bs => simp [batches, h]

theorem enforceCap_evicted (s : TailStore) (table : String) (cap : Nat) :
    Evicted cap (s.batches table) ((s.enforceCap table cap).batches table) := by
  rw [enforceCap_batches, if_pos rfl]
  exact evict_evicted le_rfl

theorem Serves.push {s : TailStore} {name : String} {row : EmitRow} (h : s.Serves name row)
    (table : String) (batch : RecordBatch) : (s.push table batch).Serves name row := by
  obtain ⟨b, hb, hflushed, hrow⟩ := h
  refine ⟨b, ?_, hflushed, hrow⟩
  rw [push_batches]
  split
  · exact List.mem_append_left _ hb
  · exact hb

theorem serves_push {table : String} {batch : RecordBatch} {row : EmitRow} (s : TailStore)
    (hrow : row ∈ batch.rows) : (s.push table batch).Serves table row := by
  refine ⟨{ batch, flushedAt := none }, ?_, rfl, hrow⟩
  rw [push_batches, if_pos rfl]
  exact List.mem_append_right _ (List.mem_singleton.mpr rfl)

/-- The row limit takes no unflushed batch. -/
theorem Serves.enforceCap {s : TailStore} {name : String} {row : EmitRow} (h : s.Serves name row)
    (table : String) (cap : Nat) : (s.enforceCap table cap).Serves name row := by
  obtain ⟨b, hb, hflushed, hrow⟩ := h
  refine ⟨b, ?_, hflushed, hrow⟩
  by_cases hname : name = table
  · subst hname
    have hkept := (s.enforceCap_evicted name cap).unflushed
    have hmem : b ∈ (s.batches name).filter (·.flushedAt.isNone) :=
      List.mem_filter.mpr ⟨hb, by simp [hflushed]⟩
    rw [← hkept] at hmem
    exact (List.mem_filter.mp hmem).1
  · rw [enforceCap_batches, if_neg hname]
    exact hb

theorem Serves.markFlushed_of_ne {s : TailStore} {table name : String} {row : EmitRow}
    (h : s.Serves name row) (hne : name ≠ table) (now : Instant) (retain : Nat) :
    (s.markFlushed now table retain).Serves name row := by
  obtain ⟨b, hb, hflushed, hrow⟩ := h
  exact ⟨b, by rw [markFlushed_batches_of_ne hne]; exact hb, hflushed, hrow⟩

end TailStore

/-! ## Rows of a table -/

/-- Durable rows stay, and pending rows stay pending or become durable. -/
structure Table.Keeps (t t' : Table) : Prop where
  log : ∀ row ∈ t.sink.log, row ∈ t'.sink.log
  pending : ∀ row ∈ t.pending.rows, row ∈ t'.pending.rows ∨ row ∈ t'.sink.log

namespace Table

theorem Keeps.refl (t : Table) : t.Keeps t := ⟨fun _ h => h, fun _ h => .inl h⟩

theorem Keeps.trans {t u v : Table} (h : t.Keeps u) (h' : u.Keeps v) : t.Keeps v := by
  refine ⟨fun row hrow => h'.log row (h.log row hrow), fun row hrow => ?_⟩
  rcases h.pending row hrow with hrow | hrow
  · exact h'.pending row hrow
  · exact .inr (h'.log row hrow)

/-- Only rows are added to the pending batch. -/
theorem Keeps.of_append {t t' : Table} {rows : List EmitRow} (hsink : t'.sink = t.sink)
    (hrows : t'.pending.rows = t.pending.rows ++ rows) : t.Keeps t' := by
  refine ⟨fun row hrow => by rwa [hsink], fun row hrow => .inl ?_⟩
  rw [hrows]
  exact List.mem_append_left _ hrow

theorem commitOps_rows (t : Table) (now : Instant) (lsn : Lsn) (ops : List Op) :
    (t.commitOps now lsn ops).sink = t.sink ∧ (t.commitOps now lsn ops).desc = t.desc ∧
      ∃ rows, (t.commitOps now lsn ops).pending.rows = t.pending.rows ++ rows := by
  by_cases h : lsn ≤ t.dedupeBelow
  · rw [commitOps_of_le h]
    exact ⟨rfl, rfl, [], by simp⟩
  · have hspec := commitOps_of_lt (not_le.mp h) now ops
    obtain ⟨rows, hrows, -⟩ := hspec.rows
    exact ⟨hspec.sink, hspec.desc, rows, hrows⟩

theorem flush_keeps (t : Table) (restart : Lsn) : t.Keeps (t.flush restart) := by
  refine ⟨fun row hrow => ?_, fun row hrow => .inr ?_⟩
  · simp [flush, hrow]
  · simp [flush, hrow]

/-- A re-snapshot, finished or not, loses no row. -/
theorem remapTable_keeps (dec : TupleDecoder) (t : Table) (now : Instant) (args : RemapArgs)
    (snap : Option Snapshot) (ok : AppendSite → Bool) :
    t.Keeps (t.remapTable dec now args snap ok).1 := by
  have hdrain : t.Keeps (t.drainMirror now args.tombstoneLsn) :=
    .of_append rfl (t.drainMirror_rows now args.tombstoneLsn)
  have htomb : (t.drainMirror now args.tombstoneLsn).Keeps
      ((t.drainMirror now args.tombstoneLsn).appendTombstones args) := by
    refine ⟨fun row hrow => ?_, fun row hrow => .inr ?_⟩
    · simp [appendTombstones, hrow]
    · simp [appendTombstones, hrow]
  have hsnap : ∀ (u : Table) (s : Snapshot), u.Keeps (u.takeSnapshot dec s) := by
    intro u s
    have hrows : (u.takeSnapshot dec s).pending.rows = u.pending.rows ++ [] := by simp [takeSnapshot]
    exact .of_append rfl hrows
  have happend : ∀ (u : Table) (seq : Nat) (s : Snapshot), u.Keeps (u.appendSnapshot seq args s) := by
    refine fun u seq s => ⟨fun row hrow => ?_, fun row hrow => .inl hrow⟩
    simp [appendSnapshot, hrow]
  simp only [remapTable]
  split
  · exact hdrain
  · have hmid : t.Keeps (if (t.drainMirror now args.tombstoneLsn).pending.rows = [] then
        t.drainMirror now args.tombstoneLsn
        else (t.drainMirror now args.tombstoneLsn).appendTombstones args) := by
      split
      · exact hdrain
      · exact hdrain.trans htomb
    cases snap with
    | none => exact hmid
    | some s =>
      simp only
      split
      · exact (hmid.trans (hsnap _ s)).trans (happend _ _ s)
      · exact hmid.trans (hsnap _ s)

theorem adopt_keeps (t : Table) (fresh : TableDesc) : t.Keeps (t.adopt fresh).1 := by
  have hlog := (t.sink.evolve_spec fresh.cols).2
  simp only [adopt]
  split
  · split
    · refine ⟨fun row hrow => ?_, fun row hrow => .inl hrow⟩
      simpa [DeltaSink.log, hlog] using hrow
    · refine ⟨fun row hrow => ?_, fun row hrow => .inl hrow⟩
      simpa [DeltaSink.log, hlog] using hrow
  · exact ⟨fun _ hrow => hrow, fun _ hrow => .inl hrow⟩

theorem adopt_pending (t : Table) (fresh : TableDesc) : (t.adopt fresh).1.pending = t.pending := by
  simp only [adopt]
  split
  · split
    · rfl
    · rfl
  · rfl

theorem remapStep_keeps (dec : TupleDecoder) (t : Table) (env : PgEnv) (now : Instant) (ti : Nat)
    (ddlLsn restart : Lsn) : t.Keeps (t.remapStep dec env now ti ddlLsn restart).table := by
  have hadopt : ∀ {fresh t₁ ok}, t.adopt fresh = (t₁, ok) → t.Keeps t₁ := by
    intro fresh t₁ ok h
    have hkeeps := t.adopt_keeps fresh
    rwa [h] at hkeeps
  have hremap : ∀ {t₁ t₂ : Table} {args snap ok done},
      t₁.remapTable dec now args snap ok = (t₂, done) → t₁.Keeps t₂ := by
    intro t₁ t₂ args snap ok done h
    have hkeeps := t₁.remapTable_keeps dec now args snap ok
    rwa [h] at hkeeps
  have hstep := t.remapStep_stepped dec env now ti ddlLsn restart
  generalize t.remapStep dec env now ti ddlLsn restart = r at hstep
  cases hstep with
  | detached => exact .refl t
  | vanished | quiet => exact ⟨fun _ h => h, fun _ h => .inl h⟩
  | refused _ _ _ _ h =>
    have hkeeps := hadopt h
    exact ⟨hkeeps.log, hkeeps.pending⟩
  | evolved _ _ _ _ _ _ _ h => exact hadopt h
  | remapped _ _ _ _ _ _ h h' =>
    have := (hadopt h).trans (hremap h')
    exact ⟨this.log, this.pending⟩
  | failed _ _ _ _ _ _ h h' => exact (hadopt h).trans (hremap h')

/-- A successful step leaves no pending rows behind. -/
theorem remapStep_pending {dec : TupleDecoder} {t : Table} {env : PgEnv} {now : Instant} {ti : Nat}
    {ddlLsn restart : Lsn} (hrows : t.pending.rows = [])
    (hok : (t.remapStep dec env now ti ddlLsn restart).ok = true) :
    (t.remapStep dec env now ti ddlLsn restart).table.pending.rows = [] := by
  have hadopt : ∀ {fresh t₁ ok}, t.adopt fresh = (t₁, ok) → t₁.pending.rows = [] := by
    intro fresh t₁ ok h
    have hpending := t.adopt_pending fresh
    rw [h] at hpending
    rw [hpending, hrows]
  have hstep := t.remapStep_stepped dec env now ti ddlLsn restart
  generalize t.remapStep dec env now ti ddlLsn restart = r at hstep hok ⊢
  cases hstep with
  | detached | vanished | quiet => exact hrows
  | refused _ _ _ _ h =>
    have hrows' := hadopt h
    exact hrows'
  | evolved _ _ _ _ _ _ _ h => exact hadopt h
  | remapped _ _ _ _ _ _ _ h =>
    obtain ⟨s, -, hspec⟩ := remapTable_ok h
    exact hspec.pending
  | failed => cases hok

end Table

theorem remapTables_length (dec : TupleDecoder) (env : PgEnv) (now : Instant) (ddlLsn restart : Lsn)
    (i : Nat) (ts : List Table) :
    (remapTables dec env now ddlLsn restart i ts).1.length = ts.length := by
  induction ts generalizing i with
  | nil => rfl
  | cons t ts ih =>
    simp only [remapTables]
    split
    · simp [ih]
    · rfl

theorem Table.attach_pending {dec : TupleDecoder} {env : PgEnv} {cfg : Config} {ti : Nat}
    {name : String} {t : Table} (h : Table.attach dec env cfg ti name = some t) :
    t.pending = .empty := by
  simp only [attach, bind, Option.bind_eq_some_iff] at h
  obtain ⟨desc, -, sink, -, s, -, h⟩ := h
  split at h
  · obtain rfl := Option.some.inj h
    rfl
  · cases h

/-- A complete catalog loop leaves no pending rows behind. -/
theorem remapTables_pending {dec : TupleDecoder} {env : PgEnv} {now : Instant} {ddlLsn restart : Lsn}
    {i : Nat} {ts : List Table} (hrows : ∀ t ∈ ts, t.pending.rows = [])
    (hok : (remapTables dec env now ddlLsn restart i ts).2.2 = true) :
    ∀ t ∈ (remapTables dec env now ddlLsn restart i ts).1, t.pending.rows = [] := by
  induction ts generalizing i with
  | nil => simp [remapTables]
  | cons t ts ih =>
    simp only [List.mem_cons, forall_eq_or_imp] at hrows
    simp only [remapTables] at hok ⊢
    by_cases hstep : (t.remapStep dec env now i ddlLsn restart).ok = true
    · rw [if_pos hstep] at hok ⊢
      simp only [List.mem_cons, forall_eq_or_imp]
      exact ⟨Table.remapStep_pending hrows.1 hstep, ih hrows.2 hok⟩
    · rw [if_neg hstep] at hok
      cases hok

namespace Engine

/-- Every pending row is in an unflushed batch of the tail. -/
def TailCovers (e : Engine) : Prop :=
  ∀ t ∈ e.tables, ∀ row ∈ t.pending.rows, e.tail.Serves t.desc.name row

theorem TailCovers.of_empty {e : Engine} (h : ∀ t ∈ e.tables, t.pending.rows = []) :
    e.TailCovers := by
  intro t ht row hrow
  rw [h t ht] at hrow
  cases hrow

/-- Each table keeps its rows. -/
def Keeps (e e' : Engine) : Prop :=
  ∀ (i : Nat) (t : Table), e.tables[i]? = some t → ∃ t', e'.tables[i]? = some t' ∧ t.Keeps t'

theorem Keeps.trans {e₁ e₂ e₃ : Engine} (h : e₁.Keeps e₂) (h' : e₂.Keeps e₃) : e₁.Keeps e₃ := by
  intro i t ht
  obtain ⟨t', ht', hkeeps⟩ := h i t ht
  obtain ⟨t'', ht'', hkeeps'⟩ := h' i t' ht'
  exact ⟨t'', ht'', hkeeps.trans hkeeps'⟩

theorem Keeps.of_tables {e e' : Engine} (h : e'.tables = e.tables) : e.Keeps e' := by
  intro i t ht
  exact ⟨t, by rw [h]; exact ht, .refl t⟩

/-! ## Commits -/

theorem publish_serves {tailMaxRows start : Nat} {tail : TailStore} {t : Table} {name : String}
    {row : EmitRow} (h : tail.Serves name row) : (publish tailMaxRows tail start t).Serves name row := by
  unfold publish
  split
  · exact (h.push _ _).enforceCap _ _
  · exact h

theorem publish_new {tailMaxRows start : Nat} {tail : TailStore} {t : Table} {row : EmitRow}
    (hrow : row ∈ t.pending.rows.drop start) :
    (publish tailMaxRows tail start t).Serves t.desc.name row := by
  have hlt : start < t.pending.rows.length := by
    by_contra hle
    rw [List.drop_eq_nil_of_le (not_lt.mp hle)] at hrow
    cases hrow
  rw [publish, if_pos hlt]
  exact (TailStore.serves_push tail hrow).enforceCap _ _

/-- After all tables were published, what was served is, and so are the new rows. -/
theorem publishAll_serves (tailMaxRows : Nat) (pairs : List (Table × Table)) (tail : TailStore) :
    (∀ name row, tail.Serves name row → TailStore.Serves (pairs.foldl (fun tail (t, t') =>
        publish tailMaxRows tail t.pending.rows.length t') tail) name row) ∧
      ∀ p ∈ pairs, ∀ row ∈ p.2.pending.rows.drop p.1.pending.rows.length,
        TailStore.Serves (pairs.foldl (fun tail (t, t') =>
          publish tailMaxRows tail t.pending.rows.length t') tail) p.2.desc.name row := by
  induction pairs generalizing tail with
  | nil => exact ⟨fun _ _ h => h, by simp⟩
  | cons p pairs ih =>
    obtain ⟨hold, hnew⟩ := ih (publish tailMaxRows tail p.1.pending.rows.length p.2)
    rw [List.foldl_cons]
    refine ⟨fun name row h => hold name row (publish_serves h), ?_⟩
    simp only [List.mem_cons, forall_eq_or_imp]
    exact ⟨fun row hrow => hold _ _ (publish_new hrow), hnew⟩

theorem handleCommit_tables (e : Engine) (now : Instant) (lsn : Lsn) (xid : Xid) (subxids : List Xid)
    {i : Nat} {t' : Table} (ht' : (e.handleCommit now lsn xid subxids).tables[i]? = some t') :
    ∃ t, e.tables[i]? = some t ∧ t'.sink = t.sink ∧ t'.desc = t.desc ∧
      ∃ rows, t'.pending.rows = t.pending.rows ++ rows := by
  simp only [handleCommit, getElem?_commitOps, Option.map_eq_some_iff] at ht'
  obtain ⟨t, ht, rfl⟩ := ht'
  exact ⟨t, ht, t.commitOps_rows now lsn _⟩

theorem handleCommit_covers {e : Engine} (h : e.TailCovers) (now : Instant) (lsn : Lsn) (xid : Xid)
    (subxids : List Xid) : (e.handleCommit now lsn xid subxids).TailCovers := by
  intro t' ht' row hrow
  obtain ⟨i, ht'⟩ := List.mem_iff_getElem?.mp ht'
  obtain ⟨t, ht, -, hdesc, rows, hrows⟩ := e.handleCommit_tables now lsn xid subxids ht'
  have hpublish := publishAll_serves e.tailMaxRows
    (e.tables.zip (e.handleCommit now lsn xid subxids).tables) e.tail
  have hpair : (t, t') ∈ e.tables.zip (e.handleCommit now lsn xid subxids).tables := by
    refine List.mem_of_getElem? (i := i) ?_
    rw [List.getElem?_zip_eq_some]
    exact ⟨ht, ht'⟩
  rw [hrows] at hrow
  rcases List.mem_append.mp hrow with hrow | hrow
  · rw [hdesc]
    exact hpublish.1 _ _ (h t (List.mem_of_getElem? ht) row hrow)
  · refine hpublish.2 _ hpair row ?_
    rw [hrows, List.drop_left]
    exact hrow

theorem handleCommit_keeps (e : Engine) (now : Instant) (lsn : Lsn) (xid : Xid)
    (subxids : List Xid) : e.Keeps (e.handleCommit now lsn xid subxids) := by
  intro i t ht
  obtain ⟨hsink, -, rows, hrows⟩ := t.commitOps_rows now lsn
    (((e.txbuf.commit xid subxids).1.filter (·.table = i)).map (·.op))
  refine ⟨_, ?_, .of_append hsink hrows⟩
  simp only [handleCommit, getElem?_commitOps, ht, Option.map_some]

theorem applyEffect_covers {e : Engine} (h : e.TailCovers) (now : Instant) (lsn : Lsn) (eff : Effect) :
    (e.applyEffect now lsn eff).TailCovers := by
  cases eff with
  | commit xid subxids => exact handleCommit_covers h now lsn xid subxids
  | drift table =>
    intro t' ht' row hrow
    obtain ⟨i, ht'⟩ := List.mem_iff_getElem?.mp ht'
    simp only [applyEffect, noteDrift, List.getElem?_modify, Option.map_eq_map,
      Option.map_eq_some_iff] at ht'
    obtain ⟨t, ht, rfl⟩ := ht'
    have hcovers := h t (List.mem_of_getElem? ht)
    by_cases htable : table = i
    · rw [if_pos htable] at hrow ⊢
      exact hcovers row hrow
    · rw [if_neg htable] at hrow ⊢
      exact hcovers row hrow
  | skip | suspect | toastChunk | ops | abort => exact h

theorem applyEffect_keeps (e : Engine) (now : Instant) (lsn : Lsn) (eff : Effect) :
    e.Keeps (e.applyEffect now lsn eff) := by
  cases eff with
  | commit xid subxids => exact e.handleCommit_keeps now lsn xid subxids
  | drift table =>
    intro i t ht
    refine ⟨if table = i then { t with needsResnapshot := true } else t, ?_, ?_⟩
    · simp only [applyEffect, noteDrift, List.getElem?_modify, ht, Option.map_eq_map, Option.map_some]
    · split
      · exact ⟨fun _ h => h, fun _ h => .inl h⟩
      · exact .refl t
  | skip | suspect | toastChunk | ops | abort => exact .of_tables rfl

/-! ## Flush rounds -/

theorem flushTables_length (ok : AppendOk) (restart : Lsn) (i : Nat) (ts : List Table) :
    (flushTables ok restart i ts).1.length = ts.length := by
  induction ts generalizing i with
  | nil => rfl
  | cons t ts ih =>
    simp only [flushTables]
    split
    · simp [ih]
    · split
      · simp [ih]
      · rfl

theorem flushAll_keeps (e : Engine) (ok : AppendOk) (now : Instant) (persisted : Lsn) :
    e.Keeps (e.flushAll ok now persisted).1 := by
  unfold flushAll
  split
  · exact .of_tables rfl
  · intro i t ht
    have hlt : i < (flushTables ok e.restartLsn 0 e.tables).1.length := by
      rw [flushTables_length]
      exact (List.getElem?_eq_some_iff.mp ht).1
    refine ⟨_, List.getElem?_eq_getElem hlt, ?_⟩
    obtain ⟨u, hu, hcase⟩ := flushTables_cases (List.getElem?_eq_getElem hlt)
    obtain rfl := Option.some.inj (ht.symm.trans hu)
    rcases hcase with hsame | ⟨-, hflush⟩
    · rw [hsame]
      exact .refl t
    · rw [hflush]
      exact t.flush_keeps _

/-- A complete round leaves no pending rows. -/
theorem flushAll_pending {e : Engine} {ok : AppendOk} {now : Instant} {persisted : Lsn}
    (hdone : (e.flushAll ok now persisted).2.2 = true) :
    ∀ t ∈ (e.flushAll ok now persisted).1.tables, t.pending.rows = [] := by
  unfold flushAll at hdone ⊢
  by_cases hzero : e.pendingTotal = 0
  · rw [if_pos hzero]
    intro t ht
    have hlen := List.sum_eq_zero_iff_forall_eq_nat.mp hzero _ (List.mem_map_of_mem ht)
    exact List.length_eq_zero_iff.mp hlen
  · rw [if_neg hzero] at hdone ⊢
    dsimp only at hdone ⊢
    generalize hround : flushTables ok e.restartLsn 0 e.tables = round at hdone ⊢
    obtain ⟨tables, done⟩ := round
    obtain rfl : done = true := hdone
    obtain rfl := flushTables_done hround
    intro t ht
    obtain ⟨u, -, rfl⟩ := List.mem_map.mp ht
    split
    · assumption
    · rfl

/-- Marking other tables keeps a row served. -/
theorem flushTail_serves {now : Instant} {retain maxRows : Nat} {name : String} {row : EmitRow}
    (pairs : List (Table × Table)) {tail : TailStore} (h : tail.Serves name row)
    (hother : ∀ p ∈ pairs, p.2.pending.rows.length < p.1.pending.rows.length → p.1.desc.name ≠ name) :
    TailStore.Serves (pairs.foldl (fun tail (t, t') =>
      if t'.pending.rows.length < t.pending.rows.length then
        (tail.markFlushed now t.desc.name retain).enforceCap t.desc.name maxRows
      else tail) tail) name row := by
  induction pairs generalizing tail with
  | nil => exact h
  | cons p pairs ih =>
    simp only [List.mem_cons, forall_eq_or_imp] at hother
    rw [List.foldl_cons]
    refine ih ?_ hother.2
    dsimp only
    by_cases hlt : p.2.pending.rows.length < p.1.pending.rows.length
    · rw [if_pos hlt]
      exact (h.markFlushed_of_ne (hother.1 hlt).symm now retain).enforceCap _ _
    · rw [if_neg hlt]
      exact h

/-- Tables with pending rows have names of their own. -/
def PendingNamed (e : Engine) : Prop :=
  ∀ (i j : Nat) (t u : Table), e.tables[i]? = some t → e.tables[j]? = some u → t.pending.rows ≠ [] →
    u.pending.rows ≠ [] → t.desc.name = u.desc.name → i = j

/-- A round that stops at a failed append leaves the rows it did not reach in the tail. -/
theorem flushAll_covers {e : Engine} (h : e.TailCovers) (hnames : e.PendingNamed) (ok : AppendOk)
    (now : Instant) (persisted : Lsn) : (e.flushAll ok now persisted).1.TailCovers := by
  unfold flushAll
  by_cases hzero : e.pendingTotal = 0
  · rw [if_pos hzero]
    exact h
  · rw [if_neg hzero]
    intro t' ht' row hrow
    obtain ⟨i, ht'⟩ := List.mem_iff_getElem?.mp ht'
    obtain ⟨t, ht, hcase⟩ := flushTables_cases ht'
    rcases hcase with rfl | ⟨-, rfl⟩
    · have hne : t'.pending.rows ≠ [] := List.ne_nil_of_mem hrow
      refine flushTail_serves _ (h t' (List.mem_of_getElem? ht) row hrow) ?_
      intro p hp hlt hname
      obtain ⟨j, hp⟩ := List.mem_iff_getElem?.mp hp
      obtain ⟨hj, hj'⟩ := List.getElem?_zip_eq_some.mp hp
      have hrows : p.1.pending.rows ≠ [] := List.ne_nil_of_length_pos (Nat.zero_lt_of_lt hlt)
      obtain rfl := hnames j i p.1 t' hj ht hrows hne hname
      -- The table was not flushed, so its batches are not marked.
      obtain rfl := Option.some.inj (hj.symm.trans ht)
      have hsame := Option.some.inj (hj'.symm.trans ht')
      rw [hsame] at hlt
      exact lt_irrefl _ hlt
    · simp [Table.flush, PendingBatch.clear] at hrow

/-! ## Catalog checks -/

theorem remapTables_keeps (dec : TupleDecoder) (env : PgEnv) (now : Instant) (ddlLsn restart : Lsn)
    (i : Nat) (ts : List Table) {k : Nat} {t : Table} (ht : ts[k]? = some t) :
    ∃ t', (remapTables dec env now ddlLsn restart i ts).1[k]? = some t' ∧ t.Keeps t' := by
  have hlen : k < (remapTables dec env now ddlLsn restart i ts).1.length := by
    rw [remapTables_length]
    exact (List.getElem?_eq_some_iff.mp ht).1
  refine ⟨_, List.getElem?_eq_getElem hlen, ?_⟩
  obtain ⟨u, hu, hcase⟩ := remapTables_cases (List.getElem?_eq_getElem hlen)
  obtain rfl := Option.some.inj (ht.symm.trans hu)
  rcases hcase with hsame | hstep
  · rw [hsame]
    exact .refl t
  · rw [hstep]
    exact t.remapStep_keeps dec env now _ ddlLsn restart

theorem attachNew_keeps (dec : TupleDecoder) (env : PgEnv) (cfg : Config) (e : Engine) :
    e.Keeps (e.attachNew dec env cfg) := by
  intro i t ht
  obtain ⟨new, htables, -⟩ := e.attachNew_tables dec env cfg
  refine ⟨t, ?_, .refl t⟩
  rw [htables, List.getElem?_append_left (List.getElem?_eq_some_iff.mp ht).1]
  exact ht

theorem remapCheck_keeps {dec : TupleDecoder} {e e' : Engine} {env : PgEnv} {cfg : Config}
    {now : Instant} {ddlLsn persisted persisted' : Lsn} {ok : Bool}
    (h : e.remapCheck dec env cfg now ddlLsn persisted = (e', persisted', ok)) : e.Keeps e' := by
  obtain ⟨e₁, flushed, hflush, hcase⟩ := remapCheck_cases h
  have hflushed : e.Keeps e₁ := by
    have hkeeps := e.flushAll_keeps env.appendOk now persisted
    rwa [hflush] at hkeeps
  rcases hcase with ⟨-, -, rfl⟩ | ⟨-, catalogRels, tables, changed, done, htables, hcase⟩
  · exact hflushed
  · have hmid : e₁.Keeps { e₁ with catalogRels, tables } := by
      intro i t ht
      have hkeeps := remapTables_keeps dec env now ddlLsn e₁.restartLsn 0 e₁.tables ht
      rwa [htables] at hkeeps
    rcases hcase with ⟨-, -, rfl⟩ | ⟨-, -, e₂, rfl, rfl | rfl⟩
    · exact hflushed.trans hmid
    · exact (hflushed.trans hmid).trans (attachNew_keeps dec env cfg _)
    · exact (hflushed.trans hmid).trans
        ((attachNew_keeps dec env cfg _).trans (.of_tables rfl))

/-- A catalog check that went through leaves no pending rows. -/
theorem remapCheck_pending {dec : TupleDecoder} {e e' : Engine} {env : PgEnv} {cfg : Config}
    {now : Instant} {ddlLsn persisted persisted' : Lsn}
    (h : e.remapCheck dec env cfg now ddlLsn persisted = (e', persisted', true)) :
    ∀ t ∈ e'.tables, t.pending.rows = [] := by
  obtain ⟨e₁, flushed, hflush, hcase⟩ := remapCheck_cases h
  rcases hcase with ⟨-, hfailed, -⟩ | ⟨rfl, catalogRels, tables, changed, done, htables, hcase⟩
  · cases hfailed
  · rcases hcase with ⟨-, hfailed, -⟩ | ⟨rfl, -, e₂, rfl, he'⟩
    · cases hfailed
    · have hempty : ∀ t ∈ e₁.tables, t.pending.rows = [] := by
        have hdone : (e.flushAll env.appendOk now persisted).2.2 = true := by rw [hflush]
        have hpending := flushAll_pending hdone
        rwa [hflush] at hpending
      have hmid : ∀ t ∈ tables, t.pending.rows = [] := by
        have hdone : (remapTables dec env now ddlLsn e₁.restartLsn 0 e₁.tables).2.2 = true := by
          rw [htables]
        have hpending := remapTables_pending hempty hdone
        rwa [htables] at hpending
      obtain ⟨new, hnew, hattached⟩ := attachNew_tables dec env cfg { e₁ with catalogRels, tables }
      have hall : ∀ t ∈ (attachNew dec env cfg { e₁ with catalogRels, tables }).tables,
          t.pending.rows = [] := by
        intro t ht
        rw [hnew] at ht
        rcases List.mem_append.mp ht with ht | ht
        · exact hmid t ht
        · obtain ⟨ti, entry, -, hattach⟩ := hattached t ht
          rw [Table.attach_pending hattach]
          rfl
      rcases he' with rfl | rfl
      · exact hall
      · exact hall

/-! ## Runs -/

/-- What happens to pending rows and the tail. Appends succeed as `ok` and `env` say. -/
inductive TailInput where
  | record (now : Instant) (lsn : Lsn) (eff : Effect)
  | flush (ok : AppendOk) (now : Instant) (persisted : Lsn)
  | remap (env : PgEnv) (cfg : Config) (now : Instant) (ddlLsn persisted : Lsn)
  | enforceCap (table : String) (cap : Nat)

/-- The state reached, and whether the process goes on. -/
def tailStep (dec : TupleDecoder) (e : Engine) : TailInput → Engine × Bool
  | .record now lsn eff => (e.applyEffect now lsn eff, true)
  | .flush ok now persisted =>
    let (e', _, done) := e.flushAll ok now persisted
    (e', done)
  | .remap env cfg now ddlLsn persisted =>
    let (e', _, ok) := e.remapCheck dec env cfg now ddlLsn persisted
    (e', ok)
  | .enforceCap table cap => ({ e with tail := e.tail.enforceCap table cap }, true)

/-- Several steps; `none` when the process stopped. -/
def tailRun (dec : TupleDecoder) : Engine → List TailInput → Option Engine
  | e, [] => some e
  | e, input :: inputs =>
    match e.tailStep dec input with
    | (e', true) => tailRun dec e' inputs
    | (_, false) => none

variable {dec : TupleDecoder} {e e' : Engine}

theorem tailStep_keeps (dec : TupleDecoder) (e : Engine) (input : TailInput) :
    e.Keeps (e.tailStep dec input).1 := by
  cases input with
  | record now lsn eff => exact e.applyEffect_keeps now lsn eff
  | flush ok now persisted => exact e.flushAll_keeps ok now persisted
  | remap env cfg now ddlLsn persisted =>
    rw [tailStep]
    generalize h : e.remapCheck dec env cfg now ddlLsn persisted = res
    exact remapCheck_keeps h
  | enforceCap table cap => exact .of_tables rfl

theorem tailStep_covers {input : TailInput} (h : e.TailCovers)
    (hstep : e.tailStep dec input = (e', true)) : e'.TailCovers := by
  obtain ⟨rfl, hok⟩ := Prod.ext_iff.mp hstep
  cases input with
  | record now lsn eff => exact applyEffect_covers h now lsn eff
  | flush ok now persisted => exact .of_empty (flushAll_pending hok)
  | remap env cfg now ddlLsn persisted =>
    rw [tailStep] at hok ⊢
    generalize h : e.remapCheck dec env cfg now ddlLsn persisted = res at hok ⊢
    obtain ⟨e', persisted', ok⟩ := res
    obtain rfl : ok = true := hok
    exact .of_empty (remapCheck_pending h)
  | enforceCap table cap => exact fun t ht row hrow => (h t ht row hrow).enforceCap table cap

theorem tailRun_covers {inputs : List TailInput} (h : e.TailCovers)
    (hrun : e.tailRun dec inputs = some e') : e'.TailCovers := by
  induction inputs generalizing e with
  | nil =>
    obtain rfl := Option.some.inj hrun
    exact h
  | cons input inputs ih =>
    rw [tailRun] at hrun
    split at hrun
    · exact ih (tailStep_covers h ‹_›) hrun
    · cases hrun

theorem tailRun_keeps {inputs : List TailInput} (hrun : e.tailRun dec inputs = some e') :
    e.Keeps e' := by
  induction inputs generalizing e with
  | nil =>
    obtain rfl := Option.some.inj hrun
    exact .of_tables rfl
  | cons input inputs ih =>
    rw [tailRun] at hrun
    split at hrun
    · rename_i e₁ hstep
      have hkeeps := tailStep_keeps dec e input
      rw [hstep] at hkeeps
      exact hkeeps.trans (ih hrun)
    · cases hrun

/-- No gap between Delta and the tail. -/
theorem tailRun_no_gap {e₀ : Engine} {inputs : List TailInput}
    (h₀ : ∀ t ∈ e₀.tables, t.pending.rows = []) (hrun : e₀.tailRun dec inputs = some e) :
    -- Every pending row is in an unflushed batch under the current name of its table.
    e.TailCovers ∧
    -- Whatever happens next, rows leave a pending batch only with their append, and a flush
    -- round that fails midway leaves the others in the tail.
    (∀ (input : TailInput) (i : Nat) (t t' : Table), e.tables[i]? = some t →
      (e.tailStep dec input).1.tables[i]? = some t' → ∀ row ∈ t.pending.rows, row ∉ t'.pending.rows →
        row ∈ t'.sink.log) ∧
    (e.PendingNamed → ∀ ok now persisted, (e.flushAll ok now persisted).1.TailCovers) ∧
    -- The row limit takes flushed batches only, the oldest first, down to the limit.
    (∀ table cap, Evicted cap (e.tail.batches table) ((e.tail.enforceCap table cap).batches table)) ∧
    -- From its commit on a row is in Delta or in the tail.
    ∀ (inputs' : List TailInput) (e' : Engine) (i : Nat) (t : Table),
      e.tailRun dec inputs' = some e' → e.tables[i]? = some t → ∀ row ∈ t.pending.rows,
        ∃ t', e'.tables[i]? = some t' ∧ (row ∈ t'.sink.log ∨ e'.tail.Serves t'.desc.name row) := by
  have hcovers := tailRun_covers (.of_empty h₀) hrun
  refine ⟨hcovers, ?_, fun hnames ok now persisted => flushAll_covers hcovers hnames ok now persisted,
    fun table cap => e.tail.enforceCap_evicted table cap, ?_⟩
  · intro input i t t' ht ht' row hrow hgone
    obtain ⟨u, hu, hkeeps⟩ := tailStep_keeps dec e input i t ht
    obtain rfl := Option.some.inj (ht'.symm.trans hu)
    exact (hkeeps.pending row hrow).resolve_left hgone
  · intro inputs' e' i t hrun' ht row hrow
    obtain ⟨t', ht', hkeeps⟩ := tailRun_keeps hrun' i t ht
    refine ⟨t', ht', ?_⟩
    rcases hkeeps.pending row hrow with hpending | hlog
    · exact .inr (tailRun_covers hcovers hrun' t' (List.mem_of_getElem? ht') row hpending)
    · exact .inl hlog

/-- Transaction 7 inserts a row and commits; the row is pending and served. -/
theorem tailRun_no_gap_insert :
    let e₀ := (Sample.started [Sample.desc "t" 16384] 100).engine
    let row : EmitRow := ⟨160, 1, false, (0, 1), [some (.i32 1)]⟩
    ∃ e t, e₀.tailRun .reject [.record 0 150 (.ops 7 0 [.insert (0, 1) ⟨[some (.i32 1)], none⟩]),
        .record 0 160 (.commit 7 [])] = some e ∧
      e.tables[0]? = some t ∧ row ∈ t.pending.rows ∧ e.tail.Serves "t" row := by
  intro e₀ row
  have h₀ : ∀ t ∈ e₀.tables, t.pending.rows = [] := by decide
  have hrun : e₀.tailRun .reject [.record 0 150 (.ops 7 0 [.insert (0, 1) ⟨[some (.i32 1)], none⟩]),
      .record 0 160 (.commit 7 [])] = some _ := rfl
  refine ⟨_, _, hrun, rfl, by decide, ?_⟩
  exact (tailRun_no_gap h₀ hrun).1 _ (List.mem_singleton.mpr rfl) row (by decide)

end Engine

end Ltap
