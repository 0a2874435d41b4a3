-- SUMMARY: Transaction outcomes as the server logs them, and what the engine makes of each.
import OpenLtap.Engine.Moves
import OpenLtap.Recovery.Calls
import OpenLtap.Recovery.Emission
import OpenLtap.Recovery.RestartFloor
import OpenLtap.Wal.InsertPaths

/-!
# Outcome records

A transaction ends with a record of the XACT resource manager: a commit or an abort in
one phase, or a PREPARE and later the outcome of the prepared transaction. The sections
behind the time stamp are optional. The engine applies one-phase outcomes, whatever
sections they have. Records of prepared transactions pass it by.
-/

namespace Ltap

/-! ## The records -/

structure XactOutcome where
  commit : Bool
  /-- The outcome of a prepared transaction. -/
  twoPhase : Bool
  /-- The transaction that ends. -/
  xid : Xid
  subxids : List Xid
  xactTime : Bytes
  /-- The section flags, where the record has any. -/
  xinfo : Option Nat
  /-- Database and tablespace. -/
  dbInfo : Bytes
  /-- Sections between the subtransactions and the prepared transaction. -/
  middle : Bytes
  later : Bytes
  /-- Bits of the info byte that do not belong to the resource manager. -/
  infoLow : Nat
  xid_lt : xid < 2 ^ 32
  subxids_lt : ∀ x ∈ subxids, x < 2 ^ 32
  subxids_length : subxids.length < 2 ^ 31
  xactTime_length : xactTime.length = 8
  dbInfo_length : dbInfo.length = 8
  xinfo_lt : ∀ x ∈ xinfo, x < 2 ^ 32
  infoLow_lt : infoLow < 16
  /-- A list of subtransactions has its section. -/
  listed : subxids ≠ [] → ∃ x ∈ xinfo, x &&& 2 ≠ 0
  /-- So does the id of a prepared transaction. -/
  prepared : twoPhase → ∃ x ∈ xinfo, x &&& 16 ≠ 0

namespace XactOutcome

variable (o : XactOutcome)

/-- The transactions that end. -/
def xids : List Xid := o.xid :: o.subxids

/-- `XLOG_XACT_COMMIT`, `ABORT`, `COMMIT_PREPARED`, and `ABORT_PREPARED`. -/
def op : Nat :=
  if o.twoPhase then if o.commit then 0x30 else 0x40
  else if o.commit then xlogXactCommit else xlogXactAbort

def info : Nat := o.op ||| (if o.xinfo.isSome then xlogXactHasInfo else 0) ||| o.infoLow

def dbSection (x : Nat) : Bytes := if x &&& 1 ≠ 0 then o.dbInfo else []

def subxactSection (x : Nat) : Bytes :=
  if x &&& 2 ≠ 0 then toLe 4 o.subxids.length ++ o.subxids.flatMap (toLe 4) else []

def twoPhaseSection (x : Nat) : Bytes := if x &&& 16 ≠ 0 then toLe 4 o.xid else []

def mainData : Bytes :=
  match o.xinfo with
  | none => o.xactTime
  | some x =>
    o.xactTime ++ (toLe 4 x ++ (o.dbSection x ++ (o.subxactSection x ++
      (o.middle ++ (o.twoPhaseSection x ++ o.later)))))

/-- The record of an outcome. The outcome of a prepared transaction is logged by another
one, or by none. -/
structure IsRecord (rec : Record) : Prop where
  rmid : rec.rmid = Rmgr.xact
  info : rec.info = o.info
  mainData : rec.mainData = o.mainData
  xid : o.twoPhase = false → rec.xid = o.xid

/-! ## Reading them -/

theorem info_op : o.info &&& xlogXactOpmask = o.op := by
  have hbits : ∀ low < 16, ∀ has ∈ [0, xlogXactHasInfo], ∀ op ∈ [0x00, 0x20, 0x30, 0x40],
      (op ||| has ||| low) &&& xlogXactOpmask = op := by decide
  refine hbits _ o.infoLow_lt _ ?_ _ ?_
  · split <;> simp
  · unfold op
    split <;> split <;> simp [xlogXactCommit, xlogXactAbort]

theorem info_hasInfo (h : o.xinfo.isSome) : o.info &&& xlogXactHasInfo ≠ 0 := by
  have hbits : ∀ low < 16, ∀ op ∈ [0x00, 0x20, 0x30, 0x40],
      (op ||| xlogXactHasInfo ||| low) &&& xlogXactHasInfo ≠ 0 := by decide
  rw [info, if_pos h]
  refine hbits _ o.infoLow_lt _ ?_
  unfold op
  split <;> split <;> simp [xlogXactCommit, xlogXactAbort]

theorem info_noInfo (h : o.xinfo = none) : o.info &&& xlogXactHasInfo = 0 := by
  have hbits : ∀ low < 16, ∀ op ∈ [0x00, 0x20, 0x30, 0x40],
      (op ||| 0 ||| low) &&& xlogXactHasInfo = 0 := by decide
  rw [info, h]
  refine hbits _ o.infoLow_lt _ ?_
  unfold op
  split <;> split <;> simp [xlogXactCommit, xlogXactAbort]

theorem subxids_eq_nil {x : Nat} (hx : o.xinfo = some x) (hsub : x &&& 2 = 0) : o.subxids = [] := by
  by_contra hne
  obtain ⟨y, hy, hlisted⟩ := o.listed hne
  rw [hx, Option.mem_some_iff] at hy
  exact hlisted (hy ▸ hsub)

theorem dbSection_length (x : Nat) :
    12 + (o.dbSection x).length = if x &&& 1 ≠ 0 then 20 else 12 := by
  unfold dbSection
  split
  · rw [o.dbInfo_length]
  · rfl

/-- Whatever sections a record has, its list of subtransactions is found. -/
theorem parseXactSubxacts_eq : parseXactSubxacts o.info o.mainData = .ok o.subxids := by
  cases hx : o.xinfo with
  | none =>
    have hnil : o.subxids = [] := by
      by_contra hne
      obtain ⟨y, hy, -⟩ := o.listed hne
      simp [hx] at hy
    rw [parseXactSubxacts, if_pos (o.info_noInfo hx), hnil]
  | some x =>
    have hinfo := o.info_hasInfo (by simp [hx])
    have hxlt : x < 256 ^ 4 := o.xinfo_lt x (by simp [hx])
    have hread : fromLe (toLe 4 x) = x := fromLe_toLe hxlt
    have hxinfo : slice o.mainData 8 4 = some (toLe 4 x) := by
      simp only [mainData, hx]
      exact slice_append o.xactTime_length (toLe_length 4 x)
    by_cases hsub : x &&& 2 = 0
    · rw [o.subxids_eq_nil hx hsub]
      exact parseXactSubxacts_unlisted hinfo hxinfo (by rw [hread]; exact hsub)
    · have hcount : fromLe (toLe 4 o.subxids.length) = o.subxids.length :=
        fromLe_toLe (by have := o.subxids_length; omega)
      let front := o.xactTime ++ (toLe 4 x ++ o.dbSection x)
      let rest := o.middle ++ (o.twoPhaseSection x ++ o.later)
      have hfront : front.length = if x &&& 1 ≠ 0 then 20 else 12 := by
        rw [← o.dbSection_length x]
        simp only [front, List.length_append, o.xactTime_length, toLe_length]
        omega
      have hlayout : o.mainData = front ++ (toLe 4 o.subxids.length ++
          (o.subxids.flatMap (toLe 4) ++ rest)) := by
        simp [mainData, hx, subxactSection, hsub, front, rest, List.append_assoc]
      have hn : slice o.mainData (if fromLe (toLe 4 x) &&& 1 ≠ 0 then 20 else 12) 4 =
          some (toLe 4 o.subxids.length) := by
        rw [hread, hlayout]
        exact slice_append hfront (toLe_length 4 _)
      have hxids : slice o.mainData ((if fromLe (toLe 4 x) &&& 1 ≠ 0 then 20 else 12) + 4)
          (4 * fromLe (toLe 4 o.subxids.length)) = some (o.subxids.flatMap (toLe 4)) := by
        rw [hread, hcount, hlayout, ← List.append_assoc]
        refine slice_append ?_ ?_
        · rw [List.length_append, hfront, toLe_length]
        · rw [flatMap_toLe_length]
      have hlisted := parseXactSubxacts_listed hinfo hxinfo (by rw [hread]; exact hsub) hn
        (by rw [hcount]; exact o.subxids_length) hxids
      rw [hlisted, hcount, chunksLe_toLe o.subxids_lt]

end XactOutcome

/-! ## Their effect -/

namespace Engine

/-- Records of other kinds, those of prepared transactions among them, change nothing. -/
theorem handleRecord_xact_other (dec : TupleDecoder) (e : Engine) (now : Instant) (lsn : Lsn)
    {rec : Record} (hrmid : rec.rmid = Rmgr.xact)
    (hcommit : rec.info &&& xlogXactOpmask ≠ xlogXactCommit)
    (habort : rec.info &&& xlogXactOpmask ≠ xlogXactAbort) : e.handleRecord dec now lsn rec = e := by
  have hxact : e.effectOf dec lsn rec = xactEffect rec := by
    simp [effectOf, normalizeDml, hrmid, Rmgr.xact, Rmgr.neon, Rmgr.smgr, Rmgr.heap, Rmgr.heap2]
  rw [handleRecord, hxact, xactEffect, if_neg hcommit, if_neg habort, applyEffect]

end Engine

/-- A one-phase record has the effect that it logs. -/
theorem XactOutcome.IsRecord.effectOf {o : XactOutcome} {rec : Record} (h : o.IsRecord rec)
    (honce : o.twoPhase = false) (dec : TupleDecoder) (e : Engine) (lsn : Lsn) :
    e.effectOf dec lsn rec =
      if o.commit then .commit o.xid o.subxids else .abort o.xid o.subxids := by
  have hop : rec.info &&& xlogXactOpmask = if o.commit then xlogXactCommit else xlogXactAbort := by
    rw [h.info, o.info_op, op, if_neg (by simp [honce])]
  have hsubs : parseXactSubxacts rec.info rec.mainData = .ok o.subxids := by
    rw [h.info, h.mainData, o.parseXactSubxacts_eq]
  have hxact : e.effectOf dec lsn rec = Engine.xactEffect rec := by
    simp [Engine.effectOf, normalizeDml, h.rmid, Rmgr.xact, Rmgr.neon, Rmgr.smgr, Rmgr.heap,
      Rmgr.heap2]
  rw [hxact, Engine.xactEffect, hop, hsubs, h.xid honce]
  cases o.commit with
  | true => simp [xlogXactCommit, Except.toOption]
  | false => simp [xlogXactCommit, xlogXactAbort, Except.toOption]

/-! ## The calls of a run -/

namespace Engine

/-- The calls on the buffer that a move makes. -/
def Move.calls : Move → List BufferCall
  | .record _ lsn (.ops xid table ops) => ops.map (.addOp xid lsn table)
  | .record _ _ (.commit xid subxids) => [.commit xid subxids]
  | .record _ _ (.abort xid subxids) => [.abort xid subxids]
  | _ => []

/-- The calls since the buffer was last new, after a further move. -/
def Move.extend (calls : List BufferCall) : Move → List BufferCall
  | .forget => []
  | m => calls ++ m.calls

def callsOf (ms : List Move) : List BufferCall := ms.foldl Move.extend []

theorem ofCalls_addOps (calls : List BufferCall) (xid : Xid) (lsn : Lsn) (table : Nat)
    (ops : List Op) :
    TxBuffer.ofCalls (calls ++ ops.map (.addOp xid lsn table)) =
      addOps (TxBuffer.ofCalls calls) xid lsn table ops := by
  rw [TxBuffer.ofCalls, List.foldl_append, List.foldl_map]
  rfl

theorem move_ofCalls (dec : TupleDecoder) {e : Engine} {calls : List BufferCall}
    (h : e.txbuf = TxBuffer.ofCalls calls) (m : Move) :
    (e.move dec m).1.txbuf = TxBuffer.ofCalls (m.extend calls) := by
  have hkeep : TxBuffer.ofCalls (calls ++ []) = e.txbuf := by rw [List.append_nil, h]
  cases m with
  | record now lsn eff =>
    cases eff with
    | ops xid table ops =>
      simp only [Move.extend, Move.calls, ofCalls_addOps, ← h]
      rfl
    | commit xid subxids =>
      simp only [Move.extend, Move.calls, TxBuffer.ofCalls_concat, ← h]
      rfl
    | abort xid subxids =>
      simp only [Move.extend, Move.calls, TxBuffer.ofCalls_concat, ← h]
      rfl
    | skip | suspect | toastChunk | drift => exact hkeep.symm
  | flush env now persisted =>
    exact (e.flushAll_sameVolatile env.appendOk now persisted).txbuf.trans hkeep.symm
  | compact => exact e.maybeCompact_sameVolatile.txbuf.trans hkeep.symm
  | remap env cfg now ddlLsn persisted =>
    exact (remapCheck_sameVolatile dec { e with remapAt := none } env cfg now ddlLsn
      persisted).txbuf.trans hkeep.symm
  | forget => rfl
  | applied | resnapshot | stop => exact hkeep.symm

theorem moves_ofCalls {dec : TupleDecoder} {e e' : Engine} {ms : List Move}
    {calls : List BufferCall} (h : e.txbuf = TxBuffer.ofCalls calls)
    (hrun : e.moves dec ms = (e', true)) :
    e'.txbuf = TxBuffer.ofCalls (ms.foldl Move.extend calls) := by
  induction ms generalizing e calls with
  | nil =>
    obtain rfl := (Prod.ext_iff.mp hrun).1
    exact h
  | cons m ms ih =>
    have hmove := move_ofCalls dec h m
    rw [moves] at hrun
    split at hrun
    · rename_i e₁ heq
      rw [heq] at hmove
      exact ih hmove hrun
    · cases hrun

end Engine

/-! ## Outcomes are applied -/

/-- The ops taken out are those held for the listed transactions. -/
theorem TxBuffer.Refines.drain_perm {b : TxBuffer} {h : Held} (hb : b.Refines h) (xs : List Xid) :
    (b.drain xs).1.Perm (h.taken xs) := by
  induction xs generalizing b h with
  | nil => simp [TxBuffer.drain, Held.taken]
  | cons x xs ih =>
    have hsplit : (h.taken (x :: xs)).Perm (h.ofXid x ++ (h.rest [x]).taken xs) := by
      rw [Held.taken, Held.ofXid, Held.taken, Held.rest, List.filter_filter, ← List.map_append]
      refine List.Perm.map _ ?_
      have hparts := (List.filter_append_perm (fun p : Xid × PendingOp => decide (p.1 = x))
        (h.filter (·.1 ∈ x :: xs))).symm
      rw [List.filter_filter, List.filter_filter] at hparts
      refine hparts.trans (List.Perm.of_eq ?_)
      congr 1
      · refine List.filter_congr fun p _ => ?_
        by_cases hp : p.1 = x <;> simp [hp]
      · refine List.filter_congr fun p _ => ?_
        by_cases hp : p.1 = x <;> simp [hp]
    simp only [TxBuffer.drain, hb.opsOf]
    exact ((ih (hb.remove x)).append_left _).trans hsplit.symm

namespace Engine

/-- An outcome at `lsn` is applied between two states. `calls` are those made on the buffer
before. -/
structure Applied (e e' : Engine) (calls : List BufferCall) (lsn : Lsn) (o : XactOutcome) :
    Prop where
  drained : ∀ x ∈ o.xids, e'.txbuf.openTxs.lookup x = none
  others : ∀ x ∉ o.xids, e'.txbuf.openTxs.lookup x = e.txbuf.openTxs.lookup x
  dropped : o.commit = false → e'.tables = e.tables
  /-- Every op of the transactions becomes one change row of its table, unless the table
  has it already. -/
  emitted : o.commit = true → ∃ ops : List PendingOp,
    (ops.map some).Perm ((BufferCall.openAdds o.xids calls).map (BufferCall.opAt calls)) ∧
    ∀ i t, e.tables[i]? = some t → ∃ t' rows, e'.tables[i]? = some t' ∧
      t'.pending.rows = t.pending.rows ++ rows ∧
      List.Forall₂ Emits (if t.dedupeBelow < lsn
        then (ops.filter (·.table = i)).map fun p => (lsn, p.op) else []) rows
  /-- No other commit of the run returns them. -/
  once : o.commit = true → ∀ k ∈ BufferCall.openAdds o.xids calls, ∀ later n,
    k ∈ BufferCall.returned (calls ++ .commit o.xid o.subxids :: later) n → n = calls.length

/-- A commit adds a change row for each of its ops to the tables that do not have it yet. -/
theorem commitOps_rows (now : Instant) (lsn : Lsn) {tables : List Table} (ops : List PendingOp)
    {i : Nat} {t : Table} (ht : tables[i]? = some t) :
    ∃ t' rows, (commitOps now lsn tables ops)[i]? = some t' ∧
      t'.pending.rows = t.pending.rows ++ rows ∧
      List.Forall₂ Emits (if t.dedupeBelow < lsn
        then (ops.filter (·.table = i)).map fun p => (lsn, p.op) else []) rows := by
  rw [getElem?_commitOps, ht, Option.map_some]
  by_cases hlt : t.dedupeBelow < lsn
  · obtain ⟨rows, hrows, hemits⟩ :=
      (Table.commitOps_of_lt hlt now ((ops.filter (·.table = i)).map (·.op))).rows
    rw [List.map_map] at hemits
    exact ⟨_, rows, rfl, hrows, by rw [if_pos hlt]; exact hemits⟩
  · rw [Table.commitOps_of_le (not_lt.mp hlt)]
    exact ⟨t, [], rfl, by simp, by rw [if_neg hlt]; exact .nil⟩

end Engine

theorem BufferCall.openAdds_returned (calls later : List BufferCall) (xid : Xid)
    (subxids : List Xid) :
    returned (calls ++ .commit xid subxids :: later) calls.length =
      openAdds (xid :: subxids) calls := by
  simp [returned]

namespace Engine

theorem applied_commit {e : Engine} {calls : List BufferCall} (h : e.txbuf = TxBuffer.ofCalls calls)
    (now : Instant) (lsn : Lsn) {o : XactOutcome} (hcommit : o.commit = true) :
    e.Applied (e.handleCommit now lsn o.xid o.subxids) calls lsn o := by
  have hlookup := e.txbuf.drain_lookup o.xids
  refine ⟨fun x hx => (hlookup x).trans (if_pos hx), fun x hx => (hlookup x).trans (if_neg hx),
    fun habort => absurd (hcommit.symm.trans habort) (by decide),
    fun _ => ⟨(e.txbuf.commit o.xid o.subxids).1, ?_, ?_⟩, ?_⟩
  · have hdrain : (e.txbuf.commit o.xid o.subxids).1.Perm ((BufferCall.held calls).taken o.xids) := by
      have hrefines := BufferCall.refines_held calls
      rw [← h] at hrefines
      exact (List.perm_insertionSort _ _).trans (hrefines.drain_perm o.xids)
    exact (hdrain.map some).trans (List.Perm.of_eq (BufferCall.held_taken o.xids calls))
  · intro i t ht
    exact commitOps_rows now lsn _ ht
  · intro _ k hk later n hn
    have hself : k ∈ BufferCall.returned (calls ++ .commit o.xid o.subxids :: later) calls.length := by
      rw [BufferCall.openAdds_returned]
      exact hk
    exact le_antisymm (BufferCall.returned_once hn hself) (BufferCall.returned_once hself hn)

theorem applied_abort {e : Engine} (calls : List BufferCall) (lsn : Lsn) {o : XactOutcome}
    (habort : o.commit = false) : e.Applied (e.handleAbort o.xid o.subxids) calls lsn o := by
  have hno : ¬ o.commit = true := by simp [habort]
  have hlookup := e.txbuf.drain_lookup o.xids
  exact ⟨fun x hx => (hlookup x).trans (if_pos hx), fun x hx => (hlookup x).trans (if_neg hx), fun _ => rfl,
    fun hcommit => absurd hcommit hno, fun hcommit => absurd hcommit hno⟩

/-- After any run of the engine, the record of a one-phase outcome is applied, whatever
sections it has. The records of prepared transactions leave the engine as it is. -/
theorem handleRecord_outcome {dec : TupleDecoder} {e₀ e : Engine} {ms : List Move}
    (hempty : e₀.txbuf = .empty) (hrun : e₀.moves dec ms = (e, true)) (now : Instant) (lsn : Lsn)
    (o : XactOutcome) {rec : Record} (hrec : o.IsRecord rec) :
    (o.twoPhase = false → e.Applied (e.handleRecord dec now lsn rec) (callsOf ms) lsn o) ∧
    (o.twoPhase = true → e.handleRecord dec now lsn rec = e) ∧
    ∀ prepare : Record, prepare.rmid = Rmgr.xact → prepare.info &&& xlogXactOpmask = 0x10 →
      e.handleRecord dec now lsn prepare = e := by
  have hbuf : e.txbuf = TxBuffer.ofCalls (callsOf ms) := moves_ofCalls hempty hrun
  refine ⟨fun honce => ?_, fun htwo => ?_, fun prepare hrmid hop => ?_⟩
  · rw [handleRecord, hrec.effectOf honce]
    cases hcommit : o.commit with
    | true => exact applied_commit hbuf now lsn hcommit
    | false => exact applied_abort (callsOf ms) lsn hcommit
  · have hop : rec.info &&& xlogXactOpmask = if o.commit then 0x30 else 0x40 := by
      rw [hrec.info, o.info_op, XactOutcome.op, if_pos htwo]
    refine handleRecord_xact_other dec e now lsn hrec.rmid ?_ ?_
    · rw [hop]
      split <;> decide
    · rw [hop]
      split <;> decide
  · refine handleRecord_xact_other dec e now lsn hrmid ?_ ?_
    · rw [hop]
      decide
    · rw [hop]
      decide

end Engine

namespace Sample

/-- The commit of transaction 7 with its subtransaction 8. -/
def outcome (twoPhase : Bool) : XactOutcome where
  commit := true
  twoPhase := twoPhase
  xid := 7
  subxids := [8]
  xactTime := List.replicate 8 0
  xinfo := some 0x13
  dbInfo := List.replicate 8 0
  middle := []
  later := []
  infoLow := 0
  xid_lt := by decide
  subxids_lt := by decide
  subxids_length := by decide
  xactTime_length := rfl
  dbInfo_length := rfl
  xinfo_lt := by decide
  infoLow_lt := by decide
  listed := fun _ => ⟨0x13, rfl, by decide⟩
  prepared := fun _ => ⟨0x13, rfl, by decide⟩

def outcomeRecord (twoPhase : Bool) : Record where
  xid := if twoPhase then 0 else 7
  rmid := Rmgr.xact
  info := (outcome twoPhase).info
  blocks := []
  mainData := (outcome twoPhase).mainData

theorem outcomeRecord_isRecord (twoPhase : Bool) :
    (outcome twoPhase).IsRecord (outcomeRecord twoPhase) :=
  ⟨rfl, rfl, rfl, fun h => by cases h; rfl⟩

/-- `XLOG_XACT_PREPARE` of transaction 7. -/
def prepareRecord : Record where
  xid := 7
  rmid := Rmgr.xact
  info := 0x10
  blocks := []
  mainData := []

/-- Both transactions insert a row. -/
def inserts : List Engine.Move :=
  [.record 0 10 (.ops 7 0 [.insert (0, 1) ⟨[some (.i32 1)], none⟩]),
   .record 0 20 (.ops 8 0 [.insert (0, 2) ⟨[some (.i32 2)], none⟩])]

/-- The engine with both inserts buffered. -/
def bothOpen : Engine := ((engine [desc "t" 16384]).moves .reject inserts).1

end Sample

theorem Engine.handleRecord_outcome_sample :
    BufferCall.openAdds (Sample.outcome false).xids (callsOf Sample.inserts) = [0, 1] ∧
    Sample.bothOpen.Applied (Sample.bothOpen.handleRecord .reject 0 30 (Sample.outcomeRecord false))
      (callsOf Sample.inserts) 30 (Sample.outcome false) := by
  have hempty : (Sample.engine [Sample.desc "t" 16384]).txbuf = .empty := rfl
  have hrun : (Sample.engine [Sample.desc "t" 16384]).moves .reject Sample.inserts =
      (Sample.bothOpen, true) := rfl
  exact ⟨by decide, (handleRecord_outcome hempty hrun 0 30 (Sample.outcome false)
    (Sample.outcomeRecord_isRecord false)).1 rfl⟩

/-- The commit of a prepared transaction leaves its ops in the buffer. -/
theorem Engine.handleRecord_prepared_kept :
    (Sample.outcome true).IsRecord (Sample.outcomeRecord true) ∧
    ¬ (Sample.bothOpen.handleRecord .reject 0 25 Sample.prepareRecord).Applied
      ((Sample.bothOpen.handleRecord .reject 0 25 Sample.prepareRecord).handleRecord .reject 0 30
        (Sample.outcomeRecord true))
      (callsOf Sample.inserts) 30 (Sample.outcome true) := by
  refine ⟨Sample.outcomeRecord_isRecord true, fun h => ?_⟩
  have hgone := congrArg Option.isSome (h.drained 7 (List.mem_cons_self ..))
  have hheld : (((Sample.bothOpen.handleRecord .reject 0 25 Sample.prepareRecord).handleRecord .reject
      0 30 (Sample.outcomeRecord true)).txbuf.openTxs.lookup 7).isSome = true := by decide
  rw [hgone] at hheld
  cases hheld

end Ltap
