-- SUMMARY: When a record of another database leaves the engine's state alone.
import OpenLtap.Driver.Main

/-!
# Records of other databases

Physical WAL carries every database of the cluster. Records are routed by the
relfilenode of their block 0 only; the database oid is compared for catalog writes and
nowhere else. So a record of another database leaves the state alone exactly when its
relfilenode is routed nowhere, or when it has nothing to apply where it is routed.
-/

namespace Ltap

namespace Engine

/-- The state that decides what reaches the lake is the same. Maps are compared by what
they hold. -/
structure Untouched (e e' : Engine) : Prop where
  tables : e'.tables = e.tables
  txbuf : ∀ xid, e'.txbuf.openTxs.lookup xid = e.txbuf.openTxs.lookup xid
  toast : ∀ valueid, e'.toast.vals.lookup valueid = e.toast.vals.lookup valueid
  smgrSuspects : e'.smgrSuspects = e.smgrSuspects
  remapAt : e'.remapAt = e.remapAt

theorem Untouched.refl (e : Engine) : Untouched e e := ⟨rfl, fun _ => rfl, fun _ => rfl, rfl, rfl⟩

/-! ## Effects -/

theorem addOp_lookup (b : TxBuffer) (xid : Xid) (lsn : Lsn) (table : Nat) (op : Op) :
    ((b.addOp xid lsn table op).opsOf xid).length = (b.opsOf xid).length + 1 := by
  cases h : b.openTxs.lookup xid <;> simp [TxBuffer.addOp, TxBuffer.opsOf, h]

theorem addOps_length (b : TxBuffer) (xid : Xid) (lsn : Lsn) (table : Nat) (ops : List Op) :
    ((addOps b xid lsn table ops).opsOf xid).length = (b.opsOf xid).length + ops.length := by
  induction ops generalizing b with
  | nil => rfl
  | cons op ops ih =>
    have := ih (b.addOp xid lsn table op)
    rw [addOp_lookup] at this
    simp only [addOps, List.foldl_cons, List.length_cons] at this ⊢
    lia

/-- Buffering row changes touches the state unless there are none. -/
theorem untouched_ops {e : Engine} {now : Instant} {lsn : Lsn} {xid : Xid} {table : Nat}
    {ops : List Op} :
    Untouched e (e.applyEffect now lsn (.ops xid table ops)) ↔ ops = [] := by
  constructor
  · intro h
    have hops : (addOps e.txbuf xid lsn table ops).opsOf xid = e.txbuf.opsOf xid := by
      have hx : (addOps e.txbuf xid lsn table ops).openTxs.lookup xid =
          e.txbuf.openTxs.lookup xid := h.txbuf xid
      rw [TxBuffer.opsOf, TxBuffer.opsOf, hx]
    have := addOps_length e.txbuf xid lsn table ops
    rw [hops] at this
    exact List.length_eq_zero_iff.mp (by omega)
  · rintro rfl
    exact .refl e

/-- Noting schema drift touches the state unless the table is marked and a catalog check
is due already. -/
theorem untouched_drift {e : Engine} {now : Instant} {lsn : Lsn} {ti : Nat} {t : Table}
    (ht : e.tables[ti]? = some t) :
    Untouched e (e.applyEffect now lsn (.drift ti)) ↔
      t.needsResnapshot = true ∧ e.remapAt.isSome = true := by
  constructor
  · intro h
    constructor
    · have := congrArg (·[ti]?) h.tables
      simp only [applyEffect, noteDrift, List.getElem?_modify, ht, Option.map_eq_map,
        Option.map_some, if_true, Option.some.injEq] at this
      exact (congrArg Table.needsResnapshot this).symm
    · have hremap : some (e.remapAt.getD lsn) = e.remapAt := h.remapAt
      rw [← hremap]
      rfl
  · rintro ⟨hneeds, hremap⟩
    obtain ⟨at_, hat⟩ := Option.isSome_iff_exists.mp hremap
    refine ⟨?_, fun _ => rfl, fun _ => rfl, rfl, ?_⟩
    · refine List.ext_getElem? fun n => ?_
      simp only [applyEffect, noteDrift, List.getElem?_modify]
      by_cases hn : ti = n
      · subst hn
        simp [ht, ← hneeds]
      · simp [hn]
    · simp [applyEffect, noteDrift, hat]

/-- Buffering a toast chunk touches the state unless the same chunk is there already. -/
theorem untouched_toastChunk {e : Engine} {now : Instant} {lsn : Lsn} {xid : Xid}
    {valueid : Oid} {seq : Int} {data : Bytes} :
    Untouched e (e.applyEffect now lsn (.toastChunk xid valueid seq data)) ↔
      ∃ owner chunks, e.toast.vals.lookup valueid = some (owner, chunks) ∧
        insertChunk seq data chunks = chunks := by
  constructor
  · intro h
    have := h.toast valueid
    simp only [applyEffect, ToastCache.addChunk, AList.lookup_insert] at this
    cases hv : e.toast.vals.lookup valueid with
    | none => simp [hv] at this
    | some p =>
      obtain ⟨owner, chunks⟩ := p
      simp only [hv, Option.getD_some, Option.some.injEq, Prod.mk.injEq, true_and] at this
      exact ⟨owner, chunks, rfl, this⟩
  · rintro ⟨owner, chunks, hv, hchunks⟩
    refine ⟨rfl, fun _ => rfl, fun v => ?_, rfl, rfl⟩
    by_cases hne : v = valueid
    · subst hne
      simp [applyEffect, ToastCache.addChunk, hv, hchunks]
    · simp [applyEffect, ToastCache.addChunk, hne]

/-! ## Routing -/

variable (dec : TupleDecoder)

/-- The row changes that a HEAP or HEAP2 record decodes to under a table's descriptor. -/
def rowChange (e : Engine) (lsn : Lsn) (rec : Record) (rmid op : Nat) (fmt : HeapFmt)
    (block0 : BlockRef) (ti : Nat) (t : Table) : Except DecodeError (List Op) :=
  if rmid = Rmgr.heap then e.heapChange dec lsn rec op fmt block0 ti t
  else if op = xlogHeap2MultiInsert then e.multiInsertChange dec rec block0 t fmt
  else .ok []

/-- The record has nothing to apply where its relfilenode is routed: to a tracked toast
relation, to a tracked table, or nowhere. -/
def NothingToApply (e : Engine) (lsn : Lsn) (rec : Record) (rmid op : Nat) (fmt : HeapFmt)
    (block0 : BlockRef) : Prop :=
  if rmid = Rmgr.heap ∧ op = xlogHeapInsert ∧ block0.rel.rel ∈ e.toastRels then
    ∀ valueid seq data, toastChunkOf dec rec block0 fmt = .ok (valueid, seq, data) →
      ∃ owner chunks, e.toast.vals.lookup valueid = some (owner, chunks) ∧
        insertChunk seq data chunks = chunks
  else
    ∀ ti t, e.tableOf block0.rel.rel = some (ti, t) →
      match e.rowChange dec lsn rec rmid op fmt block0 ti t with
      | .ok ops => ops = []
      | .error .schemaDrift => t.needsResnapshot = true ∧ e.remapAt.isSome = true
      | .error (.other _) => True

theorem tableOf_getElem? {e : Engine} {rel : Oid} {ti : Nat} {t : Table}
    (h : e.tableOf rel = some (ti, t)) : e.tables[ti]? = some t := by
  simp only [tableOf, Option.bind_eq_some_iff, Option.map_eq_some_iff, Prod.mk.injEq] at h
  obtain ⟨i, -, u, hu, rfl, rfl⟩ := h
  exact hu

theorem untouched_tableEffect {e : Engine} {now : Instant} {lsn : Lsn} {xid : Xid} {ti : Nat}
    {t : Table} (ht : e.tables[ti]? = some t) (change : Except DecodeError (List Op)) :
    Untouched e (e.applyEffect now lsn (tableEffect xid ti change)) ↔
      match change with
      | .ok ops => ops = []
      | .error .schemaDrift => t.needsResnapshot = true ∧ e.remapAt.isSome = true
      | .error (.other _) => True := by
  cases change with
  | ok ops => exact untouched_ops
  | error err =>
    cases err with
    | schemaDrift => exact untouched_drift ht
    | other msg => exact iff_of_true (.refl e) trivial

/-- A change of the table that the relfilenode is routed to. -/
theorem untouched_routed {e : Engine} {now : Instant} {lsn : Lsn} (xid : Xid) (rel : Oid)
    (change : Nat → Table → Except DecodeError (List Op)) :
    Untouched e (e.applyEffect now lsn (match e.tableOf rel with
      | none => .skip
      | some (ti, t) => tableEffect xid ti (change ti t))) ↔
    ∀ ti t, e.tableOf rel = some (ti, t) →
      match change ti t with
      | .ok ops => ops = []
      | .error .schemaDrift => t.needsResnapshot = true ∧ e.remapAt.isSome = true
      | .error (.other _) => True := by
  cases hroute : e.tableOf rel with
  | none => exact iff_of_true (.refl e) (by simp)
  | some p =>
    obtain ⟨ti, t⟩ := p
    simp only [untouched_tableEffect (tableOf_getElem? hroute), Option.some.injEq, Prod.mk.injEq]
    constructor
    · rintro h ti' t' ⟨rfl, rfl⟩
      exact h
    · exact fun h => h ti t ⟨rfl, rfl⟩

theorem untouched_toastInsertEffect {e : Engine} {now : Instant} {lsn : Lsn} (rec : Record)
    (block0 : BlockRef) (fmt : HeapFmt) :
    Untouched e (e.applyEffect now lsn (toastInsertEffect dec rec block0 fmt)) ↔
      ∀ valueid seq data, toastChunkOf dec rec block0 fmt = .ok (valueid, seq, data) →
        ∃ owner chunks, e.toast.vals.lookup valueid = some (owner, chunks) ∧
          insertChunk seq data chunks = chunks := by
  unfold toastInsertEffect
  split
  · rename_i valueid seq data hchunk
    rw [untouched_toastChunk]
    constructor
    · rintro h v s d heq
      cases hchunk.symm.trans heq
      exact h
    · exact fun h => h valueid seq data hchunk
  · rename_i err hchunk
    refine iff_of_true (.refl e) fun v s d heq => ?_
    cases hchunk.symm.trans heq

/-- A HEAP or HEAP2 record of another database leaves the state alone if and only if it
has nothing to apply where its relfilenode is routed. -/
theorem foreign_untouched_iff {e : Engine} {now : Instant} {lsn : Lsn} {rec : Record}
    {rmid op : Nat} {fmt : HeapFmt} {block0 : BlockRef}
    (hdml : normalizeDml rec.rmid rec.info = some (rmid, op, fmt))
    (hrmid : rmid = Rmgr.heap ∨ rmid = Rmgr.heap2)
    (hblock : rec.blocks.find? (·.id = 0) = some block0) (hdb : block0.rel.db ≠ e.dbOid) :
    Untouched e (e.handleRecord dec now lsn rec) ↔
      e.NothingToApply dec lsn rec rmid op fmt block0 := by
  have hcat : e.writesCatalog block0 = false := by simp [writesCatalog, hdb]
  simp only [handleRecord, effectOf, hdml]
  rcases hrmid with rfl | rfl
  · simp only [heapEffect, hblock, hcat, NothingToApply, rowChange, true_and, if_true,
      Bool.false_eq_true, if_false, show Rmgr.heap ≠ Rmgr.smgr by decide]
    split
    · exact untouched_toastInsertEffect dec rec block0 fmt
    · exact untouched_routed rec.xid block0.rel.rel fun ti t => e.heapChange dec lsn rec op fmt block0 ti t
  · simp only [heap2Effect, hblock, hcat, NothingToApply, rowChange, false_and, if_true,
      Bool.false_eq_true, if_false, show Rmgr.heap2 ≠ Rmgr.smgr by decide,
      show Rmgr.heap2 ≠ Rmgr.heap by decide]
    by_cases hop : op = xlogHeap2MultiInsert
    · simp only [hop, ne_eq, not_true, if_false, if_true]
      exact untouched_routed rec.xid block0.rel.rel fun ti t => e.multiInsertChange dec rec block0 t fmt
    · simp only [hop, ne_eq, not_false_eq_true, if_true, if_false, implies_true, iff_true]
      exact .refl e

/-- `delete` of the tuple `(0, 1)` of relfilenode 16384 in database `db`. -/
def deleteIn (db : Oid) : Record where
  xid := 9
  rmid := Rmgr.heap
  info := xlogHeapDelete
  blocks := [{ id := 0, rel := ⟨1663, db, 16384⟩, blkno := 0, image := none, data := [] }]
  mainData := [9, 0, 0, 0, 1, 0, 0, 0]

/-- With relfilenode 24576 tracked, the record is routed nowhere. -/
theorem foreign_untouched_iff_delete :
    Untouched (Sample.started [Sample.desc "t" 24576] 0x1000000).engine
        ((Sample.started [Sample.desc "t" 24576] 0x1000000).engine.handleRecord .reject 0 0x1000028
          (deleteIn 6)) ↔
      (Sample.started [Sample.desc "t" 24576] 0x1000000).engine.NothingToApply .reject 0x1000028
        (deleteIn 6) Rmgr.heap xlogHeapDelete .vanilla
        { id := 0, rel := ⟨1663, 6, 16384⟩, blkno := 0, image := none, data := [] } :=
  foreign_untouched_iff .reject rfl (.inl rfl) rfl (by decide)

/-- Database 5 has a tracked table with relfilenode 16384. A delete in database 6, from a
table with the same relfilenode, ends up in the transaction buffer. -/
theorem foreign_delete_buffered :
    6 ≠ (Sample.started [Sample.desc "t" 16384] 0x1000000).engine.dbOid ∧
    ¬ Untouched (Sample.started [Sample.desc "t" 16384] 0x1000000).engine
        ((Sample.started [Sample.desc "t" 16384] 0x1000000).engine.handleRecord .reject 0 0x1000028
          (deleteIn 6)) := by
  refine ⟨by decide, fun h => ?_⟩
  have := congrArg Option.isSome (h.txbuf 9)
  exact absurd this (by decide)

end Engine

end Ltap
