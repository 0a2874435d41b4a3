-- SUMMARY: When a re-snapshot that was cut off after its tombstones is run again at the next startup.
import OpenLtap.Resnapshot.RemapTable

/-!
# Interrupted re-snapshots

`remap_table` makes two Delta commits: the tombstones, stamped with the filenode its
caller passes, and the snapshot, stamped with the live one. A process that dies between
the two leaves a table whose rows are all tombstoned. The next startup notices by the
stamp, or, in the embedded driver, by the gap check. Each caller passes its own stamp.
-/

namespace Ltap

namespace RemapCall

/-- The filenode that the call stamps its tombstones with is not `live`. -/
def StampDiffers (live : Oid) : RemapCall → Prop
  | .remapCheck t fresh _ _ => if fresh.relNode = t.desc.relNode then live ≠ 0 else live ≠ t.desc.relNode
  | .resume t _ =>
    if t.sink.schemaAddedColumns && t.desc.hasFastDefaults then live ≠ 0
    else t.sink.resumeState.filenode ≠ some live
  | .gapCheck t _ | .resnapshotAll t => live ≠ t.desc.relNode

theorem Made.oldFilenode_ne_iff {call : RemapCall} {t : Table} {args : RemapArgs}
    (h : call.Made t args) (live : Oid) : args.oldFilenode ≠ live ↔ call.StampDiffers live := by
  cases call with
  | remapCheck u fresh ddlLsn restart =>
    obtain ⟨-, -, rfl⟩ := h
    by_cases heq : fresh.relNode = u.desc.relNode
    · simp [Table.remapCheckArgs, StampDiffers, heq, eq_comm]
    · simp [Table.remapCheckArgs, StampDiffers, heq, eq_comm]
  | resume u restart =>
    obtain ⟨rfl, hargs⟩ := h
    unfold Table.resumeArgs at hargs
    split at hargs
    · rename_i hfast
      obtain rfl := Option.some.inj hargs
      simp [StampDiffers, hfast, eq_comm]
    · rename_i hfast
      simp only [Option.bind_eq_some_iff] at hargs
      obtain ⟨stored, hstored, hargs⟩ := hargs
      split at hargs
      · obtain rfl := Option.some.inj hargs
        simp [StampDiffers, hfast, hstored]
      · cases hargs
  | gapCheck u firstLsn =>
    obtain ⟨rfl, hargs⟩ := h
    unfold Table.gapCheckArgs at hargs
    split at hargs
    · obtain rfl := Option.some.inj hargs
      simp [StampDiffers, eq_comm]
    · cases hargs
  | resnapshotAll u =>
    obtain ⟨rfl, rfl⟩ := h
    simp [Table.resnapshotAllArgs, StampDiffers, eq_comm]

end RemapCall

/-- What a crash between the two commits of `remap_table` leaves of the sink. -/
def Table.cutOff (t : Table) (now : Instant) (args : RemapArgs) : DeltaSink :=
  ((t.drainMirror now args.tombstoneLsn).appendTombstones args).sink

/-- Startup calls `remap_table` on a reopened table: `resume_tables` does, or the gap check
of the embedded driver, which sees the first event at `firstLsn`. -/
def Table.RerunBy (dec : TupleDecoder) (raw : Map Ctid Bytes) (embedded : Bool) (firstLsn : Lsn)
    (u : Table) : Prop :=
  ∃ r, u.sink.resumeState.restartLsn = some r ∧
    (((u.resumed dec raw).resumeArgs r).isSome ∨
      embedded = true ∧ ((u.resumed dec raw).gapCheckArgs firstLsn).isSome)

/-- A table that was cut off is re-snapshotted at the next startup, whatever position the
source restarts from, if and only if the call stamped its tombstones with another filenode
than the table has then, or a column with a fast default appeared meanwhile. -/
theorem cutOff_rerun_iff {call : RemapCall} {t : Table} {args : RemapArgs}
    (hmade : call.Made t args) {now : Instant} {desc : TableDesc} {sink : DeltaSink}
    (hopen : sink.table = (t.cutOff now args).table) (dec : TupleDecoder) (raw : Map Ctid Bytes)
    (embedded : Bool) :
    (∀ firstLsn, (Table.opened desc sink).RerunBy dec raw embedded firstLsn) ↔
      call.StampDiffers desc.relNode ∨
        (sink.schemaAddedColumns && desc.hasFastDefaults) = true := by
  have hmarks : sink.resumeState = ⟨some (t.drainMirror now args.tombstoneLsn).pending.maxCommitLsn,
      some args.restartLsn, some args.oldFilenode⟩ := by
    rw [DeltaSink.resumeState, hopen]
    rfl
  have hargs : ∀ r, (((Table.opened desc sink).resumed dec raw).resumeArgs r).isSome ↔
      args.oldFilenode ≠ desc.relNode ∨
        (sink.schemaAddedColumns && desc.hasFastDefaults) = true := by
    intro r
    simp only [Table.resumeArgs, Table.resumed, Table.opened, hmarks, Option.bind_some]
    by_cases hfast : (sink.schemaAddedColumns && desc.hasFastDefaults) = true
    · simp [hfast]
    · by_cases hstamp : args.oldFilenode = desc.relNode
      · simp [hfast, hstamp]
      · simp [hfast, hstamp]
  rw [← hmade.oldFilenode_ne_iff]
  constructor
  · intro h
    obtain ⟨r, -, hrerun⟩ := h 0
    rcases hrerun with hresume | ⟨-, hgap⟩
    · exact (hargs r).mp hresume
    · -- No watermark lies below position 0.
      simp [Table.gapCheckArgs] at hgap
  · intro h firstLsn
    exact ⟨args.restartLsn, by simp [Table.opened, hmarks], .inl ((hargs _).mpr h)⟩

/-! ## The gap check is cut off -/

theorem cutOff_rerun_iff_truncated :
    (RemapCall.gapCheck Sample.oneRow 200).Made Sample.oneRow Sample.gapArgs ∧
      ∀ firstLsn, (Table.opened { Sample.desc "t" 16384 with relNode := 16390 }
        (Sample.oneRow.cutOff 0 Sample.gapArgs)).RerunBy .reject ∅ false firstLsn := by
  have hmade : (RemapCall.gapCheck Sample.oneRow 200).Made Sample.oneRow Sample.gapArgs :=
    ⟨rfl, rfl⟩
  refine ⟨hmade, (cutOff_rerun_iff hmade rfl .reject ∅ false).mpr (.inl ?_)⟩
  simp [RemapCall.StampDiffers, Sample.oneRow, Table.initialSnapshot, Table.opened, Sample.desc]

/-- The filenode did not change and the source restarts at 50: the only row stays
tombstoned. -/
theorem gapCheck_cutOff_not_rerun :
    (RemapCall.gapCheck Sample.oneRow 200).Made Sample.oneRow Sample.gapArgs ∧
      (Sample.oneRow.cutOff 0 Sample.gapArgs).log =
        [⟨100, 0, false, (0, 1), [some (.i32 1)]⟩, ⟨101, 1, true, (0, 1), [some (.i32 1)]⟩] ∧
      ¬ (Table.opened (Sample.desc "t" 16384)
        (Sample.oneRow.cutOff 0 Sample.gapArgs)).RerunBy .reject ∅ true 50 := by
  refine ⟨⟨rfl, rfl⟩, by decide, ?_⟩
  rintro ⟨r, -, hresume | ⟨-, hgap⟩⟩
  · cases hresume
  · cases hgap

end Ltap
