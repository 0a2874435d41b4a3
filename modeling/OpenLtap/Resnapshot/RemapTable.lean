-- SUMMARY: The calls of `remap_table` and what a completed one leaves behind.
import OpenLtap.Driver.Embed
import OpenLtap.Engine.Columns

/-!
# A completed re-snapshot

`remap_table` commits the pending rows together with a tombstone for everything the
mirror holds, and then the snapshot. It has four callers, and each chooses the LSN and
the filenode of the tombstones its own way.
-/

namespace Ltap

/-- A call of `remap_table`, by its caller. -/
inductive RemapCall where
  | remapCheck (t : Table) (fresh : TableDesc) (ddlLsn restart : Lsn)
  | resume (t : Table) (restart : Lsn)
  | gapCheck (t : Table) (firstLsn : Lsn)
  | resnapshotAll (t : Table)

namespace RemapCall

/-- The call is made, on this table and with these arguments. -/
def Made : RemapCall → Table → RemapArgs → Prop
  | .remapCheck t fresh ddlLsn restart, t', args =>
    (fresh.relNode ≠ t.desc.relNode ∨ t.wantsResnapshot fresh) ∧ t.adopt fresh = (t', true) ∧
      args = t.remapCheckArgs fresh ddlLsn restart
  | .resume t restart, t', args => t' = t ∧ t.resumeArgs restart = some args
  | .gapCheck t firstLsn, t', args => t' = t ∧ t.gapCheckArgs firstLsn = some args
  | .resnapshotAll t, t', args => t' = t ∧ args = t.resnapshotAllArgs

/-- The table when the caller looks at it. -/
def table : RemapCall → Table
  | .remapCheck t _ _ _ | .resume t _ | .gapCheck t _ | .resnapshotAll t => t

/-- The LSN of the tombstones. Only the catalog check has one of its own. -/
def tombstoneLsn : RemapCall → Lsn
  | .remapCheck _ _ ddlLsn _ => ddlLsn
  | .resume t _ | .gapCheck t _ | .resnapshotAll t => t.dedupeBelow + 1

theorem Made.tombstoneLsn_eq {call : RemapCall} {t : Table} {args : RemapArgs}
    (h : call.Made t args) : args.tombstoneLsn = call.tombstoneLsn := by
  cases call with
  | remapCheck u fresh ddlLsn restart =>
    obtain ⟨-, -, rfl⟩ := h
    rfl
  | resume u restart =>
    obtain ⟨rfl, hargs⟩ := h
    unfold Table.resumeArgs at hargs
    split at hargs
    · obtain rfl := Option.some.inj hargs
      rfl
    · simp only [Option.bind_eq_some_iff] at hargs
      obtain ⟨stored, -, hargs⟩ := hargs
      split at hargs
      · obtain rfl := Option.some.inj hargs
        rfl
      · cases hargs
  | gapCheck u firstLsn =>
    obtain ⟨rfl, hargs⟩ := h
    unfold Table.gapCheckArgs at hargs
    split at hargs
    · obtain rfl := Option.some.inj hargs
      rfl
    · cases hargs
  | resnapshotAll u =>
    obtain ⟨rfl, rfl⟩ := h
    rfl

end RemapCall

namespace Table

/-- The tombstones of everything the mirror holds, numbered after the pending rows. -/
def tombstones (t : Table) (lsn : Lsn) : List EmitRow :=
  t.mirror.entries.mapIdx fun i e =>
    { lsn, seq := t.pending.seq + 1 + i, deleted := true, ctid := e.1, row := e.2.row }

private theorem emit_all (now : Instant) (lsn : Lsn) (entries : List (Σ _ : Ctid, RowVersion))
    (p : PendingBatch) :
    (entries.foldl (fun p e => p.emit now lsn true e.1 e.2.row) p).rows =
        p.rows ++ entries.mapIdx (fun i e =>
          { lsn, seq := p.seq + 1 + i, deleted := true, ctid := e.1, row := e.2.row }) ∧
      (entries.foldl (fun p e => p.emit now lsn true e.1 e.2.row) p).seq =
        p.seq + entries.length := by
  induction entries generalizing p with
  | nil => simp
  | cons e entries ih =>
    obtain ⟨hrows, hseq⟩ := ih (p.emit now lsn true e.1 e.2.row)
    rw [List.foldl_cons]
    refine ⟨?_, ?_⟩
    · rw [hrows]
      simp [PendingBatch.emit, List.mapIdx_cons, Nat.add_comm, Nat.add_left_comm]
    · rw [hseq]
      simp only [PendingBatch.emit, List.length_cons]
      omega

theorem drainMirror_rows (t : Table) (now : Instant) (lsn : Lsn) :
    (t.drainMirror now lsn).pending.rows = t.pending.rows ++ t.tombstones lsn :=
  (emit_all now lsn t.mirror.entries t.pending).1

theorem drainMirror_seq (t : Table) (now : Instant) (lsn : Lsn) :
    (t.drainMirror now lsn).pending.seq = t.pending.seq + t.mirror.entries.length :=
  (emit_all now lsn t.mirror.entries t.pending).2

/-- The table before and after a `remap_table` that returned `Ok`. -/
structure Resnapshotted (dec : TupleDecoder) (t : Table) (args : RemapArgs) (s : Snapshot)
    (t' : Table) : Prop where
  desc : t'.desc = t.desc
  mirror : t'.mirror = snapshotMirror dec t.desc s
  dedupeBelow : t'.dedupeBelow = s.cutover
  pending : t'.pending.rows = []
  log : t'.sink.log = t.sink.log ++ (t.pending.rows ++ t.tombstones args.tombstoneLsn) ++
    snapshotRows (t.pending.seq + t.mirror.entries.length) s
  readLog : t'.sink.readLog t.desc = t.sink.readLog t.desc ++
    (t.pending.rows ++ t.tombstones args.tombstoneLsn).map (t.sink.storedRow t.desc) ++
    (snapshotRows (t.pending.seq + t.mirror.entries.length) s).map (t.sink.storedRow t.desc)
  watermarks : t'.sink.resumeState = ⟨some s.cutover, some args.restartLsn, some t.desc.relNode⟩

theorem remapTable_ok {dec : TupleDecoder} {t t' : Table} {now : Instant} {args : RemapArgs}
    {snap : Option Snapshot} {ok : AppendSite → Bool}
    (h : t.remapTable dec now args snap ok = (t', true)) :
    ∃ s, snap = some s ∧ Resnapshotted dec t args s t' := by
  have hrows := t.drainMirror_rows now args.tombstoneLsn
  have hseq := t.drainMirror_seq now args.tombstoneLsn
  simp only [remapTable] at h
  split at h
  · cases h
  · cases snap with
    | none => cases h
    | some s =>
      simp only at h
      split at h
      · obtain rfl := (Prod.ext_iff.mp h).1
        refine ⟨s, rfl, ?_⟩
        -- Without pending rows and tombstones the first commit is left out.
        by_cases hnil : (t.drainMirror now args.tombstoneLsn).pending.rows = []
        · simp only [hnil, if_true]
          refine ⟨rfl, rfl, rfl, hnil, ?_, ?_, rfl⟩
          · rw [← hrows, hnil, ← hseq, List.append_nil]
            exact DeltaSink.append_log ..
          · rw [← hrows, hnil, ← hseq, List.map_nil, List.append_nil]
            exact DeltaSink.append_readLog ..
        · simp only [hnil, if_false]
          refine ⟨rfl, rfl, rfl, rfl, ?_, ?_, rfl⟩
          · rw [← hrows, ← hseq]
            simp only [appendSnapshot, takeSnapshot, appendTombstones, DeltaSink.append_log]
            rfl
          · rw [← hrows, ← hseq]
            simp only [appendSnapshot, takeSnapshot, appendTombstones, DeltaSink.append_readLog]
            rfl
      · cases h

end Table

/-- A table was left, or `remap_table` was called on it. -/
theorem resnapshotTables_cases {dec : TupleDecoder} {env : PgEnv} {now : Instant}
    {select : Table → Option RemapArgs} {i k : Nat} {ts : List Table} {t' : Table}
    (h : (resnapshotTables dec env now select i ts).1[k]? = some t') :
    ∃ t, ts[k]? = some t ∧ (t' = t ∨ ∃ args, select t = some args ∧
      t' = (t.remapTable dec now args (env.snapshot t.desc) (env.appendOk (i + k))).1) := by
  induction ts generalizing i k with
  | nil => simp [resnapshotTables] at h
  | cons t ts ih =>
    have hrest : ∀ {k : Nat}, (resnapshotTables dec env now select (i + 1) ts).1[k]? = some t' →
        ∃ u, ts[k]? = some u ∧ (t' = u ∨ ∃ args, select u = some args ∧
          t' = (u.remapTable dec now args (env.snapshot u.desc) (env.appendOk (i + (k + 1)))).1) := by
      intro k hk
      obtain ⟨u, hu, hcase⟩ := ih hk
      exact ⟨u, hu, by rwa [Nat.add_right_comm, Nat.add_assoc] at hcase⟩
    simp only [resnapshotTables] at h
    split at h
    · cases k with
      | zero => exact ⟨t, rfl, .inl (by simpa using h.symm)⟩
      | succ k => exact hrest (by simpa using h)
    · rename_i args hargs
      split at h
      · cases k with
        | zero => exact ⟨t, rfl, .inr ⟨args, hargs, by simpa using h.symm⟩⟩
        | succ k => exact hrest (by simpa using h)
      · cases k with
        | zero => exact ⟨t, rfl, .inr ⟨args, hargs, by simpa using h.symm⟩⟩
        | succ k => exact ⟨t', by simpa using h, .inl rfl⟩

/-- When all succeeded, every selected table was re-snapshotted and the others were left. -/
theorem resnapshotTables_ok {dec : TupleDecoder} {env : PgEnv} {now : Instant}
    {select : Table → Option RemapArgs} {i k : Nat} {ts ts' : List Table} {t : Table}
    (h : resnapshotTables dec env now select i ts = (ts', true)) (ht : ts[k]? = some t) :
    ∃ t', ts'[k]? = some t' ∧ (select t = none ∧ t' = t ∨
      ∃ args s, select t = some args ∧ env.snapshot t.desc = some s ∧
        t.Resnapshotted dec args s t') := by
  induction ts generalizing i k ts' with
  | nil => simp at ht
  | cons u ts ih =>
    simp only [resnapshotTables] at h
    split at h
    · rename_i hnone
      simp only [Prod.mk.injEq] at h
      obtain ⟨rfl, hok⟩ := h
      cases k with
      | zero =>
        obtain rfl : u = t := by simpa using ht
        exact ⟨u, rfl, .inl ⟨hnone, rfl⟩⟩
      | succ k => simpa using ih (k := k) (Prod.ext rfl hok) (by simpa using ht)
    · rename_i args hargs
      split at h
      · rename_i hremap
        simp only [Prod.mk.injEq] at h
        obtain ⟨rfl, hok⟩ := h
        cases k with
        | zero =>
          obtain rfl : u = t := by simpa using ht
          obtain ⟨s, hs, hsnap⟩ := Table.remapTable_ok (Prod.ext rfl hremap)
          exact ⟨_, rfl, .inr ⟨args, s, hargs, hs, hsnap⟩⟩
        | succ k => simpa using ih (k := k) (Prod.ext rfl hok) (by simpa using ht)
      · simp at h

theorem resnapshotTables_length (dec : TupleDecoder) (env : PgEnv) (now : Instant)
    (select : Table → Option RemapArgs) (i : Nat) (ts : List Table) :
    (resnapshotTables dec env now select i ts).1.length = ts.length := by
  induction ts generalizing i with
  | nil => rfl
  | cons t ts ih =>
    simp only [resnapshotTables]
    split
    · simp [ih]
    · split
      · simp [ih]
      · simp

theorem resnapshotTables_none {dec : TupleDecoder} {env : PgEnv} {now : Instant}
    {select : Table → Option RemapArgs} {ts : List Table} (h : ∀ t ∈ ts, select t = none) (i : Nat) :
    resnapshotTables dec env now select i ts = (ts, true) := by
  induction ts generalizing i with
  | nil => rfl
  | cons t ts ih =>
    simp only [List.mem_cons, forall_eq_or_imp] at h
    simp only [resnapshotTables, h.1, ih h.2]

/-! ## A gap -/

namespace Sample

/-- A table with the row `id = 1`, just snapshotted at 100. -/
def oneRow : Table :=
  (Table.opened (desc "t" 16384) (sink (desc "t" 16384))).initialSnapshot .reject
    ⟨100, [((0, 1), [some (.i32 1)])], AList.singleton (0, 1) [1, 0, 0, 0]⟩

/-- What the gap check passes for it when the first event is at 200. -/
def gapArgs : RemapArgs := ⟨101, 16384, 100⟩

end Sample

end Ltap
