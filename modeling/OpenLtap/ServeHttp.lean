-- SUMMARY: Requests to the freshness endpoint, and what is answered to one for a tail (`serve.rs`).
import OpenLtap.HttpRequest
import OpenLtap.SlotPosition
import OpenLtap.Freshness
import OpenLtap.Tail
import OpenLtap.Wire.Rows

/-!
# The freshness endpoint

A request for a tail may wait until the stream has applied a position, and is then answered with
the batches of the table that have the newest schema.
-/

namespace Ltap

/-! ## Answering -/

/-- An answer. A `HEAD` has the length of a body that it does not send. -/
structure HttpAnswer where
  code : Nat
  ctype : String
  length : Nat
  applied : Lsn
  acceptRanges : Bool
  body : Bytes
  deriving DecidableEq, Repr

namespace HttpAnswer

def reason : Nat → String
  | 200 => "OK"
  | 204 => "No Content"
  | 404 => "Not Found"
  | 405 => "Method Not Allowed"
  | 408 => "Request Timeout"
  | _ => "Error"

/-- What is written. -/
def bytes (a : HttpAnswer) : Bytes :=
  Utf8.encode s!"HTTP/1.1 {a.code} {reason a.code}\r\nContent-Type: {a.ctype}\r\n" ++
    Utf8.encode s!"Content-Length: {a.length}\r\nX-Ltap-Applied-Lsn: {a.applied}\r\n" ++
    Utf8.encode ((if a.acceptRanges then "Accept-Ranges: none\r\n" else "") ++ "Connection: close\r\n\r\n") ++ a.body

end HttpAnswer

def respond (code : Nat) (ctype : String) (body : Bytes) (applied : Lsn) : HttpAnswer :=
  { code, ctype, length := body.length, applied, acceptRanges := false, body }

def respondHead (length : Nat) (applied : Lsn) : HttpAnswer :=
  { code := 200, ctype := "application/octet-stream", length, applied, acceptRanges := true, body := [] }

/-- The Arrow schema of a batch. -/
def RecordBatch.schema (b : RecordBatch) : List (String × ArrowType) := buildArrowSchema b.cols

namespace TailStore

/-- The batches with the newest schema. -/
def served (s : TailStore) (table : String) : List RecordBatch :=
  match (s.batches table).getLast? with
  | none => []
  | some latest => ((s.batches table).filter fun b => b.batch.schema = latest.batch.schema).map (·.batch)

/-- One table of the status. -/
def statusEntry (name : String) (bs : List TailBatch) : String :=
  s!"\"{name}\":\x7b\"tail_rows\":{numRows bs},\"unflushed_rows\":{numRows (bs.filter (·.flushedAt.isNone))}\x7d"

def status (s : TailStore) : String :=
  let tables := ",".intercalate (s.tables.entries.map fun e => statusEntry e.1 e.2).mergeSort
  s!"\x7b\"applied_lsn\":{s.appliedLsn},\"tables\":\x7b{tables}\x7d\x7d\n"

end TailStore

/-- A look at the store, and at the clock. -/
structure Look where
  now : Instant
  store : TailStore

/-- The wait for a position: what is left of the looks, or nothing when the time is over. No answer
when there are no more looks. -/
def awaitApplied (minLsn : Lsn) (deadline : Instant) : List Look → Option (Option (List Look))
  | [] => none
  | look :: looks =>
    if look.store.ready minLsn then some (some looks)
    else if deadline ≤ look.now then some none
    else awaitApplied minLsn deadline looks

section Handle

variable (encode : List RecordBatch → Except Fault Bytes)

/-- The tail of a table. Writing the file can fail. -/
def answerTail (method table : String) (s : TailStore) : Except Fault HttpAnswer :=
  let batches := s.served table
  if batches = [] then return respond 204 "application/octet-stream" [] s.appliedLsn
  else do
    let bytes ← encode batches
    if method = "HEAD" then return respondHead bytes.length s.appliedLsn
    else return respond 200 "application/octet-stream" bytes s.appliedLsn

/-- The answer to a request, over the looks that are taken for it. -/
def answerRequest (r : HttpRequest) (started : Instant) (looks : List Look) : Option (Except Fault HttpAnswer) :=
  if r.method ≠ "GET" ∧ r.method ≠ "HEAD" then
    some (.ok (respond 405 "text/plain" (Utf8.encode "method not allowed") 0))
  else if r.path = "/status".toList then do
    let look ← looks.head?
    some (.ok (respond 200 "application/json" (Utf8.encode look.store.status) look.store.appliedLsn))
  else
    match tailTable r.path with
    | none => some (.ok (respond 404 "text/plain" (Utf8.encode "not found") 0))
    | some table =>
      let number (name : String) : Option Nat := (r.param name).bind fun v => (fromStrRadix 10 64 v).toOption
      match number "min_lsn" with
      | none => do
        let look ← looks.head?
        some (answerTail encode r.method table look.store)
      | some minLsn => do
        match ← awaitApplied minLsn (started + (number "timeout_ms").getD 10000) looks with
        | none => some (.ok (respond 408 "text/plain" (Utf8.encode "timed out waiting for min_lsn") 0))
        | some looks => do
          let look ← looks.head?
          some (answerTail encode r.method table look.store)

/-- A connection. Nothing is answered to one that is closed in front of the blank line. -/
def handleHttp (reads : List Bytes) (started : Instant) (looks : List Look) :
    Except Fault (Option (Except Fault HttpAnswer)) := do
  match ← readHead [] reads with
  | none => return none
  | some buf => return answerRequest encode (parseRequest buf) started looks

end Handle

/-! ## Waiting -/

theorem TailStore.ready_iff {s : TailStore} {minLsn : Lsn} : s.ready minLsn = true ↔ minLsn ≤ s.appliedLsn :=
  decide_eq_true_iff

theorem TailStore.not_ready_iff {s : TailStore} {minLsn : Lsn} : ¬ s.ready minLsn = true ↔ s.appliedLsn < minLsn :=
  ready_iff.not.trans not_le

/-- The looks before an outcome are neither ready nor late. -/
inductive Awaited (minLsn : Lsn) (deadline : Instant) (looks : List Look) : Option (Option (List Look)) → Prop
  | waiting : (∀ l ∈ looks, ¬ l.store.ready minLsn ∧ l.now < deadline) → Awaited minLsn deadline looks none
  | late (pre : List Look) (look : Look) (rest : List Look) : looks = pre ++ look :: rest →
      ¬ look.store.ready minLsn → deadline ≤ look.now → Awaited minLsn deadline looks (some none)
  | ready (pre : List Look) (look : Look) (rest : List Look) : looks = pre ++ look :: rest →
      (∀ l ∈ pre, ¬ l.store.ready minLsn ∧ l.now < deadline) → look.store.ready minLsn →
      Awaited minLsn deadline looks (some (some rest))

theorem awaitApplied_awaited (minLsn : Lsn) (deadline : Instant) (looks : List Look) :
    Awaited minLsn deadline looks (awaitApplied minLsn deadline looks) := by
  induction looks with
  | nil => exact .waiting (List.forall_mem_nil _)
  | cons look looks ih =>
    rw [awaitApplied]
    split
    · exact .ready [] look looks rfl (List.forall_mem_nil _) ‹_›
    · rename_i hready
      split
      · exact .late [] look looks rfl hready ‹_›
      · rename_i hlate
        have hlook := And.intro hready (not_le.mp hlate)
        generalize awaitApplied minLsn deadline looks = outcome at ih ⊢
        cases ih with
        | waiting hall => exact .waiting (List.forall_mem_cons.mpr ⟨hlook, hall⟩)
        | late pre l rest hlooks hnot hdeadline => exact .late (look :: pre) l rest (by rw [hlooks]; rfl) hnot hdeadline
        | ready pre l rest hlooks hpre hl =>
          exact .ready (look :: pre) l rest (by rw [hlooks]; rfl) (List.forall_mem_cons.mpr ⟨hlook, hpre⟩) hl

/-- The answer to a request for a tail. -/
theorem answerRequest_tail (encode : List RecordBatch → Except Fault Bytes) (table : String) {minLsn : Lsn}
    {timeoutMs : Nat} (hmin : minLsn < 2 ^ 64) (htimeout : timeoutMs < 2 ^ 64) (started : Instant) (looks : List Look) :
    answerRequest encode (.tail table minLsn timeoutMs) started looks =
      match awaitApplied minLsn (started + timeoutMs) looks with
      | none => none
      | some none => some (.ok (respond 408 "text/plain" (Utf8.encode "timed out waiting for min_lsn") 0))
      | some (some looks) => looks.head?.map fun look => answerTail encode "GET" table look.store := by
  have hpath : (HttpRequest.tail table minLsn timeoutMs).path ≠ "/status".toList := by
    intro heq
    have hat := congrArg (·[1]?) heq
    simp [HttpRequest.tail] at hat
  unfold answerRequest
  rw [if_neg fun h => h.1 rfl, if_neg hpath]
  have htable : tailTable (HttpRequest.tail table minLsn timeoutMs).path = some table := tailTable_path table
  simp only [htable, HttpRequest.tail_minLsn minLsn timeoutMs table hmin,
    HttpRequest.tail_timeoutMs minLsn timeoutMs table htimeout, Option.getD_some]
  cases awaitApplied minLsn (started + timeoutMs) looks with
  | none => rfl
  | some outcome =>
    cases outcome with
    | none => rfl
    | some rest => cases rest <;> rfl

/-! ## The batches of a table -/

namespace TailStore

/-- Unflushed batches stand behind the flushed ones. -/
def Ordered (bs : List TailBatch) : Prop := bs.Pairwise fun a b => a.flushedAt = none → b.flushedAt = none

theorem Ordered.push {bs : List TailBatch} (h : Ordered bs) (batch : RecordBatch) :
    Ordered (bs ++ [{ batch, flushedAt := none }]) := by
  refine List.pairwise_append.mpr ⟨h, List.pairwise_singleton _ _, ?_⟩
  rintro a - b hb -
  rw [List.mem_singleton.mp hb]

theorem Ordered.last {bs : List TailBatch} (h : Ordered bs) {b latest : TailBatch} (hb : b ∈ bs)
    (hflushed : b.flushedAt = none) (hlast : bs.getLast? = some latest) : latest.flushedAt = none := by
  obtain ⟨init, rfl⟩ := List.getLast?_eq_some_iff.mp hlast
  rcases List.mem_append.mp hb with hb | hb
  · exact (List.pairwise_append.mp h).2.2 b hb latest (List.mem_singleton.mpr rfl) hflushed
  · rwa [← List.mem_singleton.mp hb]

theorem markFlushed_batches (s : TailStore) (now : Instant) (table : String) (retain : Nat) {b : TailBatch}
    (hb : b ∈ (s.markFlushed now table retain).batches table) : b.flushedAt ≠ none := by
  unfold markFlushed batches at hb
  cases hlookup : s.tables.lookup table with
  | none => simp [hlookup] at hb
  | some bs =>
    simp only [hlookup, AList.lookup_insert, Option.getD_some] at hb
    obtain ⟨a, -, rfl⟩ := List.mem_map.mp (List.mem_of_mem_filter hb)
    simp

/-- No batch of a table is unflushed. -/
def Flushed (s : TailStore) (name : String) : Prop := ∀ b ∈ s.batches name, b.flushedAt ≠ none

theorem Flushed.enforceCap {s : TailStore} {name : String} (h : s.Flushed name) (table : String) (cap : Nat) :
    (s.enforceCap table cap).Flushed name := by
  intro b hb
  rw [enforceCap_batches] at hb
  split at hb
  · exact h b ((evict_evicted le_rfl).sublist.subset hb)
  · exact h b hb

theorem Flushed.markFlushed {s : TailStore} {name : String} (h : s.Flushed name) (now : Instant) (table : String)
    (retain : Nat) : (s.markFlushed now table retain).Flushed name := by
  by_cases hname : name = table
  · subst hname
    exact fun b => s.markFlushed_batches now name retain
  · intro b hb
    rw [markFlushed_batches_of_ne hname] at hb
    exact h b hb

end TailStore

namespace Engine

/-- A batch has the columns of a table of this name that has pending rows. -/
def Owned (tables : List Table) (name : String) (b : TailBatch) : Prop :=
  ∃ t ∈ tables, t.desc.name = name ∧ t.pending.rows ≠ [] ∧ b.batch.cols = t.sink.deltaCols

/-- The batches of every table are in order, and the unflushed ones have the columns of today. -/
structure TailFresh (e : Engine) : Prop where
  ordered : ∀ name, TailStore.Ordered (e.tail.batches name)
  owned : ∀ name, ∀ b ∈ e.tail.batches name, b.flushedAt = none → Owned e.tables name b

theorem TailFresh.of_flushed {e : Engine} (h : ∀ name, e.tail.Flushed name) : e.TailFresh where
  ordered name := List.pairwise_of_forall_mem_list fun a ha _ _ hnone => absurd hnone (h name a ha)
  owned name b hb hnone := absurd hnone (h name b hb)

/-- An invariant of the batches of a name, over a commit. -/
theorem publish_batches (maxRows : Nat) {start : Nat} {tail : TailStore} {t : Table} {name : String}
    {P : TailBatch → Prop} (hordered : TailStore.Ordered (tail.batches name))
    (hold : ∀ b ∈ tail.batches name, b.flushedAt = none → P b)
    (hnew : start < t.pending.rows.length → t.desc.name = name → ∀ b, b.batch.cols = t.sink.deltaCols → P b) :
    TailStore.Ordered ((publish maxRows tail start t).batches name) ∧
      ∀ b ∈ (publish maxRows tail start t).batches name, b.flushedAt = none → P b := by
  unfold publish
  split
  · rename_i hlt
    by_cases hname : name = t.desc.name
    · rw [TailStore.enforceCap_batches, if_pos hname, TailStore.push_batches, if_pos hname]
      generalize hbatches :
        tail.batches name ++ [(⟨t.sink.makeBatch (t.pending.rows.drop start), none⟩ : TailBatch)] = bs
      have hsub : (TailStore.evict maxRows bs.length bs).Sublist bs := (TailStore.evict_evicted le_rfl).sublist
      subst hbatches
      refine ⟨(hordered.push _).sublist hsub, fun b hb hnone => ?_⟩
      rcases List.mem_append.mp (hsub.subset hb) with hb | hb
      · exact hold b hb hnone
      · rw [List.mem_singleton.mp hb]
        exact hnew hlt hname.symm _ rfl
    · rw [TailStore.enforceCap_batches, if_neg hname, TailStore.push_batches, if_neg hname]
      exact ⟨hordered, hold⟩
  · exact ⟨hordered, hold⟩

theorem publishAll_batches (maxRows : Nat) {name : String} {P : TailBatch → Prop} (pairs : List (Table × Table))
    {tail : TailStore} (hordered : TailStore.Ordered (tail.batches name))
    (hold : ∀ b ∈ tail.batches name, b.flushedAt = none → P b)
    (hnew : ∀ p ∈ pairs, p.1.pending.rows.length < p.2.pending.rows.length → p.2.desc.name = name →
      ∀ b : TailBatch, b.batch.cols = p.2.sink.deltaCols → P b) :
    let tail' : TailStore := pairs.foldl (fun tail (t, t') => publish maxRows tail t.pending.rows.length t') tail
    TailStore.Ordered (tail'.batches name) ∧ ∀ b ∈ tail'.batches name, b.flushedAt = none → P b := by
  induction pairs generalizing tail with
  | nil => exact ⟨hordered, hold⟩
  | cons p pairs ih =>
    simp only [List.mem_cons, forall_eq_or_imp] at hnew
    obtain ⟨hordered', hold'⟩ := publish_batches maxRows hordered hold hnew.1
    exact ih hordered' hold' hnew.2

theorem handleCommit_fresh {e : Engine} (h : e.TailFresh) (now : Instant) (lsn : Lsn) (xid : Xid) (subxids : List Xid) :
    (e.handleCommit now lsn xid subxids).TailFresh := by
  have hall : ∀ name, TailStore.Ordered ((e.handleCommit now lsn xid subxids).tail.batches name) ∧
      ∀ b ∈ (e.handleCommit now lsn xid subxids).tail.batches name, b.flushedAt = none →
        Owned (e.handleCommit now lsn xid subxids).tables name b := by
    intro name
    refine publishAll_batches e.tailMaxRows (e.tables.zip (e.handleCommit now lsn xid subxids).tables)
      (h.ordered name) ?_ ?_
    · intro b hb hnone
      obtain ⟨t, ht, hname, hrows, hcols⟩ := h.owned name b hb hnone
      obtain ⟨i, ht⟩ := List.mem_iff_getElem?.mp ht
      obtain ⟨t', ht', hsink, hdesc, rows, hpending⟩ : ∃ t',
          (e.handleCommit now lsn xid subxids).tables[i]? = some t' ∧ t'.sink = t.sink ∧ t'.desc = t.desc ∧
            ∃ rows, t'.pending.rows = t.pending.rows ++ rows := by
        simp only [handleCommit, getElem?_commitOps, ht, Option.map_some]
        exact ⟨_, rfl, t.commitOps_rows now lsn _⟩
      refine ⟨t', List.mem_of_getElem? ht', by rw [hdesc, hname], ?_, by rw [hsink, hcols]⟩
      rw [hpending]
      exact List.append_ne_nil_of_left_ne_nil hrows rows
    · intro p hp hlt hname b hcols
      exact ⟨p.2, (List.of_mem_zip hp).2, hname, List.ne_nil_of_length_pos (Nat.zero_lt_of_lt hlt), hcols⟩
  exact ⟨fun name => (hall name).1, fun name => (hall name).2⟩

theorem applyEffect_fresh {e : Engine} (h : e.TailFresh) (now : Instant) (lsn : Lsn) (eff : Effect) :
    (e.applyEffect now lsn eff).TailFresh := by
  cases eff with
  | commit xid subxids => exact handleCommit_fresh h now lsn xid subxids
  | drift table =>
    refine ⟨h.ordered, fun name b hb hnone => ?_⟩
    obtain ⟨t, ht, hname, hrows, hcols⟩ := h.owned name b hb hnone
    obtain ⟨i, ht⟩ := List.mem_iff_getElem?.mp ht
    refine ⟨if table = i then { t with needsResnapshot := true } else t, List.mem_of_getElem? (i := i) ?_, ?_⟩
    · simp only [applyEffect, noteDrift, List.getElem?_modify, ht, Option.map_eq_map, Option.map_some]
    · split
      · exact ⟨hname, hrows, hcols⟩
      · exact ⟨hname, hrows, hcols⟩
  | skip | suspect | toastChunk | ops | abort => exact ⟨h.ordered, h.owned⟩

theorem flushTail_flushed {now : Instant} {retain maxRows : Nat} {name : String} (pairs : List (Table × Table))
    {tail : TailStore} (h : tail.Flushed name ∨
      ∃ p ∈ pairs, p.2.pending.rows.length < p.1.pending.rows.length ∧ p.1.desc.name = name) :
    TailStore.Flushed (pairs.foldl (fun tail (t, t') =>
      if t'.pending.rows.length < t.pending.rows.length then
        (tail.markFlushed now t.desc.name retain).enforceCap t.desc.name maxRows
      else tail) tail) name := by
  induction pairs generalizing tail with
  | nil => simpa using h
  | cons p pairs ih =>
    rw [List.foldl_cons]
    refine ih ?_
    dsimp only
    by_cases hlt : p.2.pending.rows.length < p.1.pending.rows.length
    · rw [if_pos hlt]
      rcases h with h | ⟨q, hq, hshrinks, hname⟩
      · exact .inl ((h.markFlushed now _ retain).enforceCap _ _)
      · rcases List.mem_cons.mp hq with rfl | hq
        · left
          rw [hname]
          exact TailStore.Flushed.enforceCap (fun b => tail.markFlushed_batches now name retain) name maxRows
        · exact .inr ⟨q, hq, hshrinks, hname⟩
    · rw [if_neg hlt]
      rcases h with h | ⟨q, hq, hshrinks, hname⟩
      · exact .inl h
      · rcases List.mem_cons.mp hq with rfl | hq
        · exact absurd hshrinks hlt
        · exact .inr ⟨q, hq, hshrinks, hname⟩

/-- A complete round leaves no unflushed batch of any table. -/
theorem flushAll_flushed {e : Engine} (h : e.TailFresh) {ok : AppendOk} {now : Instant} {persisted : Lsn}
    (hdone : (e.flushAll ok now persisted).2.2 = true) (name : String) :
    (e.flushAll ok now persisted).1.tail.Flushed name := by
  unfold flushAll at hdone ⊢
  by_cases hzero : e.pendingTotal = 0
  · rw [if_pos hzero]
    intro b hb hnone
    obtain ⟨t, ht, -, hrows, -⟩ := h.owned name b hb hnone
    have hlen := List.sum_eq_zero_iff_forall_eq_nat.mp hzero _ (List.mem_map_of_mem ht)
    exact hrows (List.length_eq_zero_iff.mp hlen)
  · rw [if_neg hzero] at hdone ⊢
    dsimp only at hdone ⊢
    generalize hround : flushTables ok e.restartLsn 0 e.tables = round at hdone ⊢
    obtain ⟨tables, done⟩ := round
    obtain rfl : done = true := hdone
    obtain rfl := flushTables_done hround
    refine flushTail_flushed _ ?_
    by_cases hflushed : e.tail.Flushed name
    · exact .inl hflushed
    · obtain ⟨b, hb, hnone⟩ : ∃ b ∈ e.tail.batches name, b.flushedAt = none := by
        simpa [TailStore.Flushed] using hflushed
      obtain ⟨t, ht, hname, hrows, -⟩ := h.owned name b hb hnone
      obtain ⟨i, ht⟩ := List.mem_iff_getElem?.mp ht
      refine .inr ⟨(t, t.flush e.restartLsn), List.mem_of_getElem? (i := i) ?_, ?_, hname⟩
      · rw [List.getElem?_zip_eq_some]
        exact ⟨ht, by rw [List.getElem?_map, ht, Option.map_some, if_neg hrows]⟩
      · exact List.length_pos_iff.mpr hrows

theorem attachNew_tail (dec : TupleDecoder) (env : PgEnv) (cfg : Config) (e : Engine) :
    (e.attachNew dec env cfg).tail = e.tail := by
  simp only [attachNew]
  split
  · generalize tablesToAttach _ _ _ = names
    induction names generalizing e with
    | nil => rfl
    | cons name names ih =>
      rw [List.foldl_cons, ih]
      unfold attachOne
      split
      · rfl
      · rfl
  · rfl

/-! ## Runs -/

variable {dec : TupleDecoder} {e e' : Engine}

theorem tailStep_fresh {input : TailInput} (h : e.TailFresh) (hstep : e.tailStep dec input = (e', true)) :
    e'.TailFresh := by
  obtain ⟨rfl, hok⟩ := Prod.ext_iff.mp hstep
  cases input with
  | record now lsn eff => exact applyEffect_fresh h now lsn eff
  | flush ok now persisted => exact .of_flushed (flushAll_flushed h hok)
  | remap env cfg now ddlLsn persisted =>
    rw [tailStep] at hok ⊢
    generalize hremap : e.remapCheck dec env cfg now ddlLsn persisted = res at hok ⊢
    obtain ⟨e', persisted', ok⟩ := res
    obtain rfl : ok = true := hok
    obtain ⟨e₁, flushed, hflush, hcase⟩ := remapCheck_cases hremap
    rcases hcase with ⟨-, hfailed, -⟩ | ⟨rfl, nodes, tables, changed, done, -, hcase⟩
    · cases hfailed
    rcases hcase with ⟨-, hfailed, -⟩ | ⟨-, -, e₂, rfl, he'⟩
    · cases hfailed
    have hflushed : ∀ name, e₁.tail.Flushed name := by
      have hdone : (e.flushAll env.appendOk now persisted).2.2 = true := by rw [hflush]
      have hall := flushAll_flushed h hdone
      rwa [hflush] at hall
    have htail : e'.tail = e₁.tail := by
      rcases he' with rfl | rfl
      · exact attachNew_tail dec env cfg _
      · exact attachNew_tail dec env cfg _
    exact .of_flushed fun name => htail ▸ hflushed name
  | enforceCap table cap =>
    have hsub : ∀ name, ((e.tail.enforceCap table cap).batches name).Sublist (e.tail.batches name) := by
      intro name
      rw [TailStore.enforceCap_batches]
      split
      · exact (TailStore.evict_evicted le_rfl).sublist
      · exact .refl _
    exact ⟨fun name => (h.ordered name).sublist (hsub name), fun name b hb => h.owned name b ((hsub name).subset hb)⟩

/-- The tail has every pending row, in batches that are served. -/
structure TailSound (e : Engine) : Prop where
  fresh : e.TailFresh
  covers : e.TailCovers

theorem TailSound.of_flushed {e : Engine} (hflushed : ∀ name, e.tail.Flushed name)
    (hrows : ∀ t ∈ e.tables, t.pending.rows = []) : e.TailSound :=
  ⟨.of_flushed hflushed, .of_empty hrows⟩

theorem TailSound.step {input : TailInput} (h : e.TailSound) (hstep : e.tailStep dec input = (e', true)) :
    e'.TailSound :=
  ⟨tailStep_fresh h.fresh hstep, tailStep_covers h.covers hstep⟩

/-- The newest schema hides no pending row. -/
theorem TailSound.served (h : e.TailSound) (hnames : e.PendingNamed) {t : Table} (ht : t ∈ e.tables) {row : EmitRow}
    (hrow : row ∈ t.pending.rows) : ∃ b ∈ e.tail.served t.desc.name, row ∈ b.rows := by
  obtain ⟨b, hb, hnone, hin⟩ := h.covers t ht row hrow
  obtain ⟨latest, hlast⟩ : ∃ latest, (e.tail.batches t.desc.name).getLast? = some latest :=
    ⟨_, List.getLast?_eq_some_getLast (List.ne_nil_of_mem hb)⟩
  have hcols : ∀ b ∈ e.tail.batches t.desc.name, b.flushedAt = none → b.batch.cols = t.sink.deltaCols := by
    intro b hb hnone
    obtain ⟨u, hu, hname, hrows, hcols⟩ := h.fresh.owned _ b hb hnone
    obtain ⟨i, ht⟩ := List.mem_iff_getElem?.mp ht
    obtain ⟨j, hu⟩ := List.mem_iff_getElem?.mp hu
    obtain rfl := hnames i j t u ht hu (List.ne_nil_of_mem hrow) hrows hname.symm
    obtain rfl := Option.some.inj (ht.symm.trans hu)
    exact hcols
  have hlatest := (h.fresh.ordered _).last hb hnone hlast
  refine ⟨b.batch, ?_, hin⟩
  simp only [TailStore.served, hlast]
  refine List.mem_map_of_mem (List.mem_filter.mpr ⟨hb, decide_eq_true ?_⟩)
  rw [RecordBatch.schema, RecordBatch.schema, hcols b hb hnone, hcols latest (List.mem_of_getLast? hlast) hlatest]

end Engine

/-! ## Runs of the loop -/

namespace MainState

open Engine (TailSound TailInput)

variable {dec : TupleDecoder} {cfg : Config} {env : PgEnv} {now : Instant} {s s' : MainState}

theorem handleRecords_sound {recs : List (Lsn × Bytes)} {e e' : Engine} (h : e.TailSound)
    (hrun : handleRecords dec now recs e = (e', true)) : e'.TailSound := by
  induction recs generalizing e with
  | nil =>
    obtain rfl := (Prod.ext_iff.mp hrun).1
    exact h
  | cons r recs ih =>
    obtain ⟨lsn, bytes⟩ := r
    rw [handleRecords] at hrun
    split at hrun
    · rename_i rec _
      have hstep : e.tailStep dec (.record now lsn (e.effectOf dec lsn rec)) =
          (e.handleRecord dec now lsn rec, true) := rfl
      exact ih (h.step hstep) hrun
    · cases hrun
    · exact ih h hrun

theorem receive_sound {startLsn walEnd : Lsn} {data : Bytes} (h : s.engine.TailSound)
    (hrecv : s.receive dec now startLsn walEnd data = (s', true)) : s'.engine.TailSound := by
  simp only [receive] at hrecv
  split at hrecv
  · cases hrecv
  · obtain ⟨rfl, hok⟩ := Prod.ext_iff.mp hrecv
    exact handleRecords_sound h (Prod.ext rfl hok)

theorem checkRemap_sound (h : s.engine.TailSound) (hcheck : s.checkRemap dec env cfg now = (s', true)) :
    s'.engine.TailSound := by
  simp only [checkRemap] at hcheck
  split at hcheck
  · obtain rfl := (Prod.ext_iff.mp hcheck).1
    exact h
  · rename_i ddlLsn _
    obtain ⟨rfl, hok⟩ := Prod.ext_iff.mp hcheck
    have hstart : TailSound { s.engine with remapAt := none } := ⟨⟨h.fresh.ordered, h.fresh.owned⟩, h.covers⟩
    have hstep : Engine.tailStep dec { s.engine with remapAt := none } (.remap env cfg now ddlLsn s.persistedRestart) =
        (_, true) := Prod.ext rfl hok
    exact hstart.step hstep

theorem setApplied_sound (h : s.engine.TailSound) : s.setApplied.engine.TailSound :=
  ⟨⟨h.fresh.ordered, h.fresh.owned⟩, h.covers⟩

theorem flush_sound (h : s.engine.TailSound) (hflush : s.flush env now = (s', true)) : s'.engine.TailSound := by
  simp only [flush] at hflush
  split at hflush
  · rename_i hdone
    obtain ⟨rfl, -⟩ := Prod.ext_iff.mp hflush
    have hflushed := Engine.flushAll_flushed h.fresh hdone
    have hrows := Engine.flushAll_pending hdone
    refine .of_flushed ?_ ?_
    · dsimp only
      rw [Engine.maybeCompact_tail]
      exact hflushed
    · intro t' ht'
      obtain ⟨i, ht'⟩ := List.mem_iff_getElem?.mp ht'
      obtain ⟨t, ht, hcase⟩ := Engine.maybeCompact_stepped ht'
      have ht := hrows t (List.mem_of_getElem? ht)
      rcases hcase with rfl | rfl | ⟨-, sink, before, after, -, rfl⟩
      · exact ht
      · exact ht
      · exact ht
  · cases hflush

theorem iterate_sound {input : MainInput} (h : s.engine.TailSound)
    (hstep : s.iterate dec env cfg now input = (s', true)) : s'.engine.TailSound := by
  cases input with
  | xlogData startLsn walEnd data =>
    obtain ⟨s₁, s₂, hrecv, hcheck, hcase⟩ := iterate_xlogData hstep
    have hsound := setApplied_sound (checkRemap_sound (receive_sound h hrecv) hcheck)
    rcases hcase with rfl | hflush
    · exact hsound
    · exact flush_sound hsound hflush
  | keepalive walEnd replyRequested =>
    obtain rfl := (Prod.ext_iff.mp hstep).1
    have hsound : ({ s with lastRecvLsn := max walEnd s.lastRecvLsn }.setApplied).engine.TailSound :=
      setApplied_sound h
    rw [iterate]
    split
    · exact hsound
    · exact hsound
  | flushTick =>
    rcases iterate_flushTick hstep with rfl | ⟨s₁, hflush, rfl⟩
    · exact h
    · have hsound := flush_sound h hflush
      exact hsound
  | statusTick =>
    obtain rfl := (Prod.ext_iff.mp hstep).1
    exact h

theorem run_sound {its : List Iteration} (h : s.engine.TailSound) (hrun : s.run dec cfg its = some s') :
    s'.engine.TailSound := by
  induction its generalizing s with
  | nil =>
    obtain rfl := Option.some.inj hrun
    exact h
  | cons it its ih =>
    rw [run] at hrun
    split at hrun
    · exact ih (iterate_sound h ‹_›) hrun
    · cases hrun

/-- The loop has started: nothing is pending, and the tail is empty. -/
def Fresh (s : MainState) : Prop :=
  (∀ t ∈ s.engine.tables, t.pending.rows = []) ∧ ∀ name, s.engine.tail.batches name = []

theorem Fresh.sound (h : s.Fresh) : s.engine.TailSound :=
  .of_flushed (fun name b hb => by rw [h.2 name] at hb; cases hb) h.1

theorem pendingNamed_of_nodup {e : Engine} (h : (e.tables.map (·.desc.name)).Nodup) : e.PendingNamed := by
  intro i j t u ht hu _ _ hname
  have hlt : i < (e.tables.map (·.desc.name)).length := by
    rw [List.length_map]
    exact (List.getElem?_eq_some_iff.mp ht).1
  refine (List.getElem?_inj hlt h).mp ?_
  rw [List.getElem?_map, List.getElem?_map, ht, hu, Option.map_some, Option.map_some, hname]

/-- Every pending row is served, whatever schema its table had before. -/
theorem run_served {its : List Iteration} (h : s.Fresh) (hrun : s.run dec cfg its = some s')
    (hnames : s'.engine.PendingNamed) :
    ∀ t ∈ s'.engine.tables, ∀ row ∈ t.pending.rows, ∃ b ∈ s'.engine.tail.served t.desc.name, row ∈ b.rows :=
  fun _ ht _ hrow => (run_sound h.sound hrun).served hnames ht hrow

end MainState

namespace Sample

/-- Up to the tick of the flush. -/
def deleteOnly : List MainState.Iteration := (deleteAndFlush (env twoTables 0x1000000)).take 1

theorem started_fresh : (started twoTables 0x1000000).Fresh := ⟨by decide +kernel, fun _ => rfl⟩

/-- Table `a` has a pending row. -/
theorem deleteOnly_pending :
    ∃ s t row, (started twoTables 0x1000000).run .reject cfg deleteOnly = some s ∧ s.engine.PendingNamed ∧
      t ∈ s.engine.tables ∧ t.desc.name = "a" ∧ row ∈ t.pending.rows := by
  have hrun : ((started twoTables 0x1000000).run .reject cfg deleteOnly).map
      (fun s => s.engine.tables.map fun t => (t.desc.name, t.pending.rows)) =
        some [("a", [⟨0x1000060, 1, true, (0, 1), [none]⟩]), ("b", [])] := by decide +kernel
  obtain ⟨s, hs, htables⟩ := Option.map_eq_some_iff.mp hrun
  obtain ⟨t, ht, hrows⟩ := List.mem_map.mp (htables ▸ List.mem_cons_self)
  obtain ⟨hname, hpending⟩ := Prod.ext_iff.mp hrows
  have hnames : (s.engine.tables.map (·.desc.name)).Nodup := by
    have hfst := congrArg (List.map Prod.fst) htables
    rw [List.map_map] at hfst
    exact hfst ▸ by decide
  have hpending : t.pending.rows = [⟨0x1000060, 1, true, (0, 1), [none]⟩] := hpending
  exact ⟨s, t, ⟨0x1000060, 1, true, (0, 1), [none]⟩, hs, MainState.pendingNamed_of_nodup hnames, ht, hname,
    by rw [hpending]; exact List.mem_singleton.mpr rfl⟩

end Sample

namespace MainState

variable {dec : TupleDecoder} {cfg : Config} {s : MainState}

/-- The delete is served while it is pending. -/
theorem run_served_delete :
    ∃ s t row, (Sample.started Sample.twoTables 0x1000000).run .reject Sample.cfg Sample.deleteOnly = some s ∧
      t ∈ s.engine.tables ∧ row ∈ t.pending.rows ∧ ∃ b ∈ s.engine.tail.served t.desc.name, row ∈ b.rows := by
  obtain ⟨s, t, row, hrun, hnames, ht, -, hrow⟩ := Sample.deleteOnly_pending
  exact ⟨s, t, row, hrun, ht, hrow, run_served Sample.started_fresh hrun hnames t ht row hrow⟩

/-! ## What a reader is told -/

/-- States of one run, each reached from the one before. -/
inductive Watched (dec : TupleDecoder) (cfg : Config) : MainState → List (Instant × MainState) → Prop
  | nil (s : MainState) : Watched dec cfg s []
  | cons {s s' : MainState} (now : Instant) {states : List (Instant × MainState)} (its : List Iteration) :
      s.run dec cfg its = some s' → Watched dec cfg s' states → Watched dec cfg s ((now, s') :: states)

/-- Every state is reached, and every later one from it. -/
theorem Watched.reached {pre states : List (Instant × MainState)} {p : Instant × MainState}
    (h : Watched dec cfg s (pre ++ p :: states)) :
    (∃ its, s.run dec cfg its = some p.2) ∧ Watched dec cfg p.2 states := by
  induction pre generalizing s with
  | nil =>
    obtain _ | ⟨now, its, hrun, hrest⟩ := h
    exact ⟨⟨its, hrun⟩, hrest⟩
  | cons q pre ih =>
    obtain _ | ⟨now, its, hrun, hrest⟩ := h
    obtain ⟨⟨its', hrun'⟩, hlater⟩ := ih hrest
    exact ⟨⟨its ++ its', run_append.mpr ⟨_, hrun, hrun'⟩⟩, hlater⟩

/-- What a reader is told that waits for a position. -/
inductive Told (dec : TupleDecoder) (cfg : Config) (encode : List RecordBatch → Except Fault Bytes) (table : String)
    (minLsn : Lsn) (deadline : Instant) (states : List (Instant × MainState)) :
    Option (Except Fault HttpAnswer) → Prop
  /-- Nothing yet: the position is not applied, or the tail has not been looked at again. -/
  | nothing : (∀ p ∈ states.dropLast, p.2.engine.tail.appliedLsn < minLsn ∧ p.1 < deadline) →
      Told dec cfg encode table minLsn deadline states none
  | late (p : Instant × MainState) : p ∈ states → p.2.engine.tail.appliedLsn < minLsn → deadline ≤ p.1 →
      Told dec cfg encode table minLsn deadline states
        (some (.ok (respond 408 "text/plain" (Utf8.encode "timed out waiting for min_lsn") 0)))
  /-- The batches of such a state could not be written as Parquet. -/
  | unwritten (p q : Instant × MainState) (its : List Iteration) (f : Fault) :
      p ∈ states → q ∈ states → minLsn ≤ p.2.engine.tail.appliedLsn → p.2.run dec cfg its = some q.2 →
      encode (q.2.engine.tail.served table) = .error f →
      Told dec cfg encode table minLsn deadline states (some (.error f))
  /-- The pending rows of a state behind one that has applied the position. -/
  | tail (p q : Instant × MainState) (its : List Iteration) (bs : List RecordBatch) (a : HttpAnswer) :
      p ∈ states → q ∈ states → minLsn ≤ p.2.engine.tail.appliedLsn → p.2.run dec cfg its = some q.2 →
      a.applied = q.2.engine.tail.appliedLsn →
      (a.code = 204 ∧ bs = [] ∨ a.code = 200 ∧ encode bs = .ok a.body) →
      (∀ t ∈ q.2.engine.tables, t.desc.name = table → ∀ row ∈ t.pending.rows, ∃ b ∈ bs, row ∈ b.rows) →
      Told dec cfg encode table minLsn deadline states (some (.ok a))

theorem answerTail_told {encode : List RecordBatch → Except Fault Bytes} {table : String} {minLsn : Lsn}
    {deadline : Instant} {states : List (Instant × MainState)} {p q : Instant × MainState} {its : List Iteration}
    (hp : p ∈ states) (hq : q ∈ states) (hready : minLsn ≤ p.2.engine.tail.appliedLsn)
    (hrun : p.2.run dec cfg its = some q.2) (hsound : q.2.engine.TailSound) (hnames : q.2.engine.PendingNamed) :
    Told dec cfg encode table minLsn deadline states (some (answerTail encode "GET" table q.2.engine.tail)) := by
  have hrows : ∀ t ∈ q.2.engine.tables, t.desc.name = table → ∀ row ∈ t.pending.rows,
      ∃ b ∈ q.2.engine.tail.served table, row ∈ b.rows := by
    rintro t ht rfl row hrow
    exact hsound.served hnames ht hrow
  unfold answerTail
  dsimp only
  by_cases hempty : q.2.engine.tail.served table = []
  · rw [if_pos hempty]
    exact .tail p q its _ _ hp hq hready hrun rfl (.inl ⟨rfl, hempty⟩) hrows
  · rw [if_neg hempty]
    cases hbytes : encode (q.2.engine.tail.served table) with
    | error f => exact .unwritten p q its f hp hq hready hrun hbytes
    | ok bytes => exact .tail p q its _ _ hp hq hready hrun rfl (.inr ⟨rfl, hbytes⟩) hrows

/-- What the endpoint sees of a state. -/
def look (p : Instant × MainState) : Look := { now := p.1, store := p.2.engine.tail }

/-- The states behind some looks, the one behind another, and the later ones. -/
theorem exists_of_looks {states : List (Instant × MainState)} {pre rest : List Look} {l : Look}
    (h : states.map look = pre ++ l :: rest) :
    ∃ before p after, states = before ++ p :: after ∧ before.map look = pre ∧ look p = l ∧ after.map look = rest := by
  obtain ⟨before, behind, rfl, hpre, hbehind⟩ := List.map_eq_append_iff.mp h
  obtain ⟨p, after, rfl, hp, hafter⟩ := List.map_eq_cons_iff.mp hbehind
  exact ⟨before, p, after, rfl, hpre, hp, hafter⟩

/-- A reader that waits for a position is told every row that is pending once it is applied. -/
theorem handleHttp_told {encode : List RecordBatch → Except Fault Bytes} {states : List (Instant × MainState)}
    (h : s.Fresh) (hwatched : Watched dec cfg s states) (hnames : ∀ p ∈ states, p.2.engine.PendingNamed)
    {table : String} (htable : Addressable table) {minLsn : Lsn} {timeoutMs : Nat} (hmin : minLsn < 2 ^ 64)
    (htimeout : timeoutMs < 2 ^ 64) {headers more : Bytes} {reads : List Bytes} (hreads : ∀ r ∈ reads, r ≠ [])
    (hblank : blankLine <:+ Utf8.encode (tailRequest table minLsn timeoutMs ++ "\r\n") ++ headers)
    (hlen : (Utf8.encode (tailRequest table minLsn timeoutMs ++ "\r\n") ++ headers).length ≤ 8193)
    (hstream : reads.flatten = Utf8.encode (tailRequest table minLsn timeoutMs ++ "\r\n") ++ headers ++ more)
    (started : Instant) :
    ∃ outcome, handleHttp encode reads started (states.map look) = .ok outcome ∧
      Told dec cfg encode table minLsn (started + timeoutMs) states outcome := by
  obtain ⟨buf, hbuf, hparse⟩ := readHead_tail minLsn timeoutMs htable hreads hblank hlen hstream
  refine ⟨answerRequest encode (.tail table minLsn timeoutMs) started (states.map look), ?_, ?_⟩
  · rw [handleHttp, hbuf, ← hparse]
    rfl
  rw [answerRequest_tail encode table hmin htimeout]
  have hawaited := awaitApplied_awaited minLsn (started + timeoutMs) (states.map look)
  generalize awaitApplied minLsn (started + timeoutMs) (states.map look) = outcome at hawaited ⊢
  cases hawaited with
  | waiting hall =>
    refine .nothing fun p hp => ?_
    obtain ⟨hready, hnow⟩ := hall _ (List.mem_map_of_mem (List.mem_of_mem_dropLast hp))
    exact ⟨TailStore.not_ready_iff.mp hready, hnow⟩
  | late pre look' rest hlooks hready hlate =>
    obtain ⟨pre, p, states, rfl, rfl, rfl, rfl⟩ := exists_of_looks hlooks
    exact .late p (by simp) (TailStore.not_ready_iff.mp hready) hlate
  | ready pre look' rest hlooks hpre hready =>
    obtain ⟨pre, p, states, rfl, rfl, rfl, rfl⟩ := exists_of_looks hlooks
    obtain ⟨-, hlater⟩ := hwatched.reached
    cases states with
    | nil =>
      refine .nothing fun q hq => ?_
      rw [List.dropLast_concat] at hq
      obtain ⟨hready, hnow⟩ := hpre _ (List.mem_map_of_mem hq)
      exact ⟨TailStore.not_ready_iff.mp hready, hnow⟩
    | cons q states =>
      obtain ⟨⟨its, hrun⟩, -⟩ := (show Watched dec cfg p.2 ([] ++ q :: states) from hlater).reached
      have hsplit : pre ++ p :: q :: states = (pre ++ [p]) ++ q :: states := by simp
      obtain ⟨⟨its₀, hrun₀⟩, -⟩ := (hsplit ▸ hwatched).reached
      exact answerTail_told (p := p) (by simp) (by simp) (TailStore.ready_iff.mp hready) hrun
        (run_sound h.sound hrun₀) (hnames q (by simp))

/-- A request in two chunks, when the position was applied before the first look. -/
theorem handleHttp_told_delete :
    let request := Utf8.encode (tailRequest "a" 0x1000082 1000 ++ "\r\n")
    ∃ s, (Sample.started Sample.twoTables 0x1000000).run .reject Sample.cfg Sample.deleteOnly = some s ∧
      ∃ outcome, handleHttp (fun _ => .ok [0x50, 0x41, 0x52, 0x31]) [request, [0x0D, 0x0A]] 0
          (List.map look [(0, s), (50, s)]) = .ok outcome ∧
        Told .reject Sample.cfg (fun _ => .ok [0x50, 0x41, 0x52, 0x31]) "a" 0x1000082 (0 + 1000) [(0, s), (50, s)]
          outcome := by
  intro request
  obtain ⟨s, t, row, hrun, hnames, ht, -, hrow⟩ := Sample.deleteOnly_pending
  refine ⟨s, hrun, ?_⟩
  have hrequest : request = Utf8.encode (tailRequest "a" 0x1000082 1000) ++ [0x0D, 0x0A] := by
    simp [request, Utf8.encode, String.utf8EncodeChar]
  have hwatched : Watched .reject Sample.cfg (Sample.started Sample.twoTables 0x1000000) [(0, s), (50, s)] :=
    .cons 0 Sample.deleteOnly hrun (.cons 50 [] rfl (.nil s))
  have htable : Addressable "a" := by
    intro c hc
    rw [show "a".toList = ['a'] from rfl, List.mem_singleton] at hc
    subst hc
    decide
  have hblank : blankLine <:+ request ++ [0x0D, 0x0A] :=
    ⟨Utf8.encode (tailRequest "a" 0x1000082 1000), by rw [hrequest, List.append_assoc]; rfl⟩
  have hlen : (request ++ [0x0D, 0x0A]).length ≤ 8193 := by
    have hbytes := encode_length_le (tailRequest "a" 0x1000082 1000)
    have hshort : (tailRequest "a" 0x1000082 1000).length ≤ 100 := by
      rw [← String.length_toList]
      decide +kernel
    rw [hrequest]
    simp only [List.length_append, List.length_cons, List.length_nil]
    omega
  have hstream : [request, [0x0D, 0x0A]].flatten = request ++ [0x0D, 0x0A] ++ [] := by simp
  exact handleHttp_told Sample.started_fresh hwatched (by simp [hnames]) htable (by decide) (by decide)
    (by simp [hrequest]) hblank hlen hstream 0

end MainState

end Ltap
