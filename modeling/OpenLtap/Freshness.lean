-- SUMMARY: How far the freshness endpoint's applied position may run ahead of the records handled.
import OpenLtap.Driver.Main
import OpenLtap.Wal.Chunking

/-!
# The applied position

`/tail?min_lsn=N` is answered once `appliedLsn` has reached `N`. The loop sets it to
the greatest end of WAL that any message advertised. What the engine has been handed are
the records that are complete in the received bytes, as long as no payload leaves the
reader stuck. The two agree if no message advertises the end of a record that has not been
received whole.
-/

namespace Ltap

/-! ## What changes the applied position -/

namespace TailStore

@[simp] theorem push_appliedLsn (s : TailStore) (table : String) (b : RecordBatch) :
    (s.push table b).appliedLsn = s.appliedLsn := rfl

@[simp] theorem markFlushed_appliedLsn (s : TailStore) (now : Instant) (table : String)
    (retain : Nat) : (s.markFlushed now table retain).appliedLsn = s.appliedLsn := by
  unfold markFlushed
  split <;> rfl

@[simp] theorem enforceCap_appliedLsn (s : TailStore) (table : String) (cap : Nat) :
    (s.enforceCap table cap).appliedLsn = s.appliedLsn := by
  unfold enforceCap
  split <;> rfl

end TailStore

@[simp] theorem flushTail_appliedLsn (now : Instant) (retain maxRows : Nat)
    (before after : List Table) (tail : TailStore) :
    (flushTail now retain maxRows before after tail).appliedLsn = tail.appliedLsn := by
  unfold flushTail
  induction before.zip after generalizing tail with
  | nil => rfl
  | cons p ps ih =>
    obtain ⟨t, t'⟩ := p
    rw [List.foldl_cons, ih]
    dsimp only
    split
    · simp
    · rfl

@[simp] theorem Engine.flushAll_appliedLsn (e : Engine) (ok : AppendOk) (now : Instant)
    (persisted : Lsn) :
    (e.flushAll ok now persisted).1.tail.appliedLsn = e.tail.appliedLsn := by
  unfold flushAll
  split
  · rfl
  · simp

@[simp] theorem Engine.maybeCompact_tail (e : Engine) : e.maybeCompact.1.tail = e.tail := by
  unfold maybeCompact
  split <;> rfl

/-! ## Messages and records -/

/-- The end of WAL that a message advertises. -/
def MainInput.walEnd : MainInput → Option Lsn
  | .xlogData _ walEnd _ | .keepalive walEnd _ => some walEnd
  | .flushTick | .statusTick => none

/-- The bytes that a message delivers. -/
def MainInput.payload : MainInput → Option Bytes
  | .xlogData _ _ data => some data
  | .keepalive .. | .flushTick | .statusTick => none

namespace MainState

variable {dec : TupleDecoder} {cfg : Config} {env : PgEnv} {now : Instant}

def payloads (its : List Iteration) : List Bytes := its.filterMap (·.input.payload)

theorem payloads_split (its : List Iteration) (n : Nat) :
    payloads its = payloads (its.take n) ++ payloads (its.drop n) := by
  rw [payloads, payloads, payloads, ← List.filterMap_append, List.take_append_drop]

/-- The records of the payload that an iteration handles. -/
def records (s : MainState) : MainInput → List (Lsn × Bytes)
  | .xlogData startLsn _ data =>
    match s.reader.feed startLsn data with
    | .ok (_, recs) => recs
    | .error _ => []
  | .keepalive .. | .flushTick | .statusTick => []

/-- The records that a run hands to the engine. -/
def runRecords (dec : TupleDecoder) (cfg : Config) : MainState → List Iteration → List (Lsn × Bytes)
  | _, [] => []
  | s, it :: its => s.records it.input ++ runRecords dec cfg (s.iterate dec it.env cfg it.now it.input).1 its

/-! ## Iterations -/

theorem flush_frame (s : MainState) (env : PgEnv) (now : Instant) :
    (s.flush env now).1.reader = s.reader ∧ (s.flush env now).1.lastRecvLsn = s.lastRecvLsn ∧
      (s.flush env now).1.engine.tail.appliedLsn = s.engine.tail.appliedLsn := by
  simp only [flush]
  split
  · refine ⟨rfl, rfl, ?_⟩
    rw [Engine.maybeCompact_tail, Engine.flushAll_appliedLsn]
  · exact ⟨rfl, rfl, Engine.flushAll_appliedLsn ..⟩

theorem checkRemap_frame {s s' : MainState} (h : s.checkRemap dec env cfg now = (s', true)) :
    s'.reader = s.reader ∧ s'.lastRecvLsn = s.lastRecvLsn := by
  have hstate : (s.checkRemap dec env cfg now).1 = s' := congrArg Prod.fst h
  rw [← hstate]
  unfold checkRemap
  split <;> exact ⟨rfl, rfl⟩

theorem receive_frame {s s' : MainState} {startLsn walEnd : Lsn} {data : Bytes}
    (h : s.receive dec now startLsn walEnd data = (s', true)) :
    s.reader.feed s.reader.receivedEnd data = .ok (s'.reader, s.records (.xlogData startLsn walEnd data)) ∧
      s'.lastRecvLsn = max walEnd s.lastRecvLsn := by
  simp only [receive] at h
  split at h
  · cases h
  · rename_i reader recs hfeed
    obtain ⟨rfl, -⟩ := Prod.ext_iff.mp h
    refine ⟨?_, rfl⟩
    rw [← WalReader.feed_start hfeed, records, hfeed]

/-- What an iteration does to the positions that the loop announces. -/
structure Iterated (s : MainState) (inp : MainInput) (s' : MainState) : Prop where
  lastRecvLsn : s'.lastRecvLsn = max (inp.walEnd.getD 0) s.lastRecvLsn
  appliedLsn : s'.engine.tail.appliedLsn =
    if inp.walEnd.isSome then s'.lastRecvLsn else s.engine.tail.appliedLsn

theorem iterate_frame {s s' : MainState} {inp : MainInput}
    (h : s.iterate dec env cfg now inp = (s', true)) : Iterated s inp s' := by
  cases inp with
  | xlogData startLsn walEnd data =>
    obtain ⟨s₁, s₂, hrecv, hremap, hcase⟩ := iterate_xlogData h
    have hset : Iterated s (.xlogData startLsn walEnd data) s₂.setApplied :=
      ⟨(checkRemap_frame hremap).2.trans (receive_frame hrecv).2, rfl⟩
    rcases hcase with rfl | hflush
    · exact hset
    · obtain ⟨-, hl, ha⟩ := hflush ▸ flush_frame s₂.setApplied env now
      exact ⟨hl ▸ hset.lastRecvLsn, ha.trans (hset.appliedLsn.trans hl.symm)⟩
  | keepalive walEnd replyRequested =>
    simp only [iterate, Prod.mk.injEq] at h
    obtain ⟨rfl, -⟩ := h
    split <;> exact ⟨rfl, rfl⟩
  | flushTick =>
    rcases iterate_flushTick h with rfl | ⟨s₁, hflush, rfl⟩
    · exact ⟨(Nat.zero_max _).symm, rfl⟩
    · obtain ⟨-, hl, ha⟩ := hflush ▸ flush_frame s env now
      exact ⟨hl.trans (Nat.zero_max _).symm, ha⟩
  | statusTick =>
    simp only [iterate, Prod.mk.injEq] at h
    obtain ⟨rfl, -⟩ := h
    exact ⟨(Nat.zero_max _).symm, rfl⟩

/-- What an iteration does to the reader: it takes in a payload, or nothing. -/
theorem iterate_reader {s s' : MainState} {inp : MainInput}
    (h : s.iterate dec env cfg now inp = (s', true)) :
    (∃ data, inp.payload = some data ∧
      s.reader.feed s.reader.receivedEnd data = .ok (s'.reader, s.records inp)) ∨
    inp.payload = none ∧ s'.reader = s.reader ∧ s.records inp = [] := by
  cases inp with
  | xlogData startLsn walEnd data =>
    obtain ⟨s₁, s₂, hrecv, hremap, hcase⟩ := iterate_xlogData h
    have hreader : s'.reader = s₁.reader := by
      rw [← (checkRemap_frame hremap).1]
      rcases hcase with rfl | hflush
      · rfl
      · exact (hflush ▸ flush_frame s₂.setApplied env now).1
    rw [hreader]
    exact .inl ⟨data, rfl, (receive_frame hrecv).1⟩
  | keepalive walEnd replyRequested =>
    simp only [iterate, Prod.mk.injEq] at h
    obtain ⟨rfl, -⟩ := h
    split <;> exact .inr ⟨rfl, rfl, rfl⟩
  | flushTick =>
    rcases iterate_flushTick h with rfl | ⟨s₁, hflush, rfl⟩
    · exact .inr ⟨rfl, rfl, rfl⟩
    · exact .inr ⟨rfl, (hflush ▸ flush_frame s env now).1, rfl⟩
  | statusTick =>
    simp only [iterate, Prod.mk.injEq] at h
    obtain ⟨rfl, -⟩ := h
    exact .inr ⟨rfl, rfl, rfl⟩

/-! ## Runs -/

theorem start_frame {opened : List Table} {slotRestart : Option Lsn} {flushLsn : Lsn}
    {oracle : Option Oracle} {s : MainState}
    (h : start dec env cfg now opened slotRestart flushLsn oracle = some s) :
    s.reader = .new s.reader.pos ∧ s.reader.pos % xlogPageSize = 0 ∧ s.lastRecvLsn = s.reader.pos ∧
      s.engine.tail.appliedLsn = 0 := by
  simp only [start] at h
  split at h
  · obtain ⟨e, he, rfl⟩ := Option.map_eq_some_iff.mp h
    refine ⟨rfl, Nat.mul_mod_left _ _, rfl, ?_⟩
    simp only [buildEngine, bind, Option.bind_eq_some_iff, pure, Option.some.injEq] at he
    obtain ⟨_, -, _, -, rfl⟩ := he
    rfl
  · cases h

/-- The applied position is where the loop started, or some message advertised it. -/
theorem le_lastRecvLsn (lsn : Lsn) {s u : MainState} {its : List Iteration}
    (happlied : s.engine.tail.appliedLsn ≤ s.lastRecvLsn) (h : s.run dec cfg its = some u) :
    u.engine.tail.appliedLsn ≤ u.lastRecvLsn ∧
      (lsn ≤ u.lastRecvLsn → lsn ≤ s.lastRecvLsn ∨
        ∃ (n : Nat) (it : Iteration) (walEnd : Lsn),
          its[n]? = some it ∧ it.input.walEnd = some walEnd ∧ lsn ≤ walEnd) := by
  induction its using List.reverseRecOn generalizing u with
  | nil =>
    obtain rfl : s = u := Option.some.inj h
    exact ⟨happlied, .inl⟩
  | append_singleton its it ih =>
    obtain ⟨v, hv, hit⟩ := run_concat.mp h
    obtain ⟨hva, hvl⟩ := ih hv
    have hiter := iterate_frame hit
    constructor
    · rw [hiter.appliedLsn]
      split
      · exact le_rfl
      · rw [hiter.lastRecvLsn]
        exact le_trans hva (le_max_right _ _)
    · intro hle
      rw [hiter.lastRecvLsn, le_max_iff] at hle
      rcases hle with hle | hle
      · cases hw : it.input.walEnd with
        | none =>
          rw [hw] at hle
          exact .inl (le_trans hle (Nat.zero_le _))
        | some walEnd =>
          rw [hw] at hle
          exact .inr ⟨its.length, it, walEnd, by simp, hw, hle⟩
      · refine (hvl hle).imp_right ?_
        rintro ⟨n, jt, walEnd, hn, hw, hle⟩
        exact ⟨n, jt, walEnd, by rw [List.getElem?_append_left (List.getElem?_eq_some_iff.mp hn).1, hn], hw, hle⟩

/-- A run whose payloads are the next bytes of the stream hands out its next records, and those
are the ones that are complete. -/
theorem run_settled {hdr : PageHeaders} {future : Bytes} {s s' : MainState} {its : List Iteration}
    {out : List (Lsn × Bytes)} {tails : List (Lsn × Lsn)}
    (hsettled : s.reader.Settled hdr ((payloads its).flatten ++ future) out tails)
    (hcuts : SafeCuts tails (WalReader.chunkEnds s.reader.receivedEnd (payloads its)))
    (h : s.run dec cfg its = some s') :
    ∃ out' tails', out = s.runRecords dec cfg its ++ out' ∧
      (∀ e ∈ s.runRecords dec cfg its, recordEnd e ≤ s'.reader.receivedEnd) ∧
      s'.reader.Settled hdr future out' tails' ∧
      s'.reader.receivedEnd = s.reader.receivedEnd + (payloads its).flatten.length := by
  induction its generalizing s out tails with
  | nil =>
    obtain rfl : s = s' := Option.some.inj h
    exact ⟨out, tails, rfl, by simp [runRecords], hsettled, rfl⟩
  | cons it its ih =>
    simp only [run] at h
    split at h
    · rename_i u hit
      have hrest : (s.iterate dec it.env cfg it.now it.input).1 = u := congrArg Prod.fst hit
      rcases iterate_reader hit with ⟨data, hdata, hfeed⟩ | ⟨hdata, hreader, hrecords⟩
      · have hpayloads : payloads (it :: its) = data :: payloads its := List.filterMap_cons_some hdata
        rw [hpayloads] at hsettled hcuts ⊢
        rw [List.flatten_cons, List.append_assoc] at hsettled
        obtain ⟨r', out₁, out₂, tails₁, hfeed', rfl, hends, hsettled₁, hend, hsame⟩ :=
          hsettled.feed hcuts.roomy
        obtain ⟨rfl, hrecs⟩ := Prod.ext_iff.mp (Except.ok.inj (hfeed'.symm.trans hfeed))
        obtain rfl : out₁ = s.records it.input := hrecs
        rw [WalReader.chunkEnds, ← hend, hsame _ fun e he => WalReader.le_chunkEnds he,
          hsettled₁.safeCuts_cons] at hcuts
        obtain ⟨out', tails', rfl, hends', hsettled', hend'⟩ := ih hsettled₁ hcuts h
        refine ⟨out', tails', ?_, ?_, hsettled', ?_⟩
        · rw [runRecords, hrest, List.append_assoc]
        · intro e he
          rw [runRecords, hrest] at he
          rcases List.mem_append.mp he with he | he
          · exact le_trans (hends e he) (hend' ▸ Nat.le_add_right _ _)
          · exact hends' e he
        · rw [hend', hend, List.flatten_cons, List.length_append, Nat.add_assoc]
      · have hpayloads : payloads (it :: its) = payloads its := List.filterMap_cons_none hdata
        rw [hpayloads, ← hreader] at hsettled hcuts
        obtain ⟨out', tails', rfl, hends', hsettled', hend'⟩ := ih hsettled hcuts h
        rw [hpayloads, runRecords, hrest, hrecords, ← hreader]
        exact ⟨out', tails', rfl, hends', hsettled', hend'⟩
    · cases h

/-! ## The WAL that the loop is sent -/

/-- The payloads are WAL from `pos` on, inside a stream of framed records, and none of them leaves
the reader stuck in a zero-filled page tail. -/
structure Carried (hdr : PageHeaders) (origin : Lsn) (fs : List WalFrame) (pos : Lsn) (chunks : List Bytes) :
    Prop where
  boundary : origin % xlogPageSize = 0
  start : origin ≤ pos
  reach : pos < origin + (hdr.stream origin fs).length
  wal : chunks.flatten <+: (hdr.stream origin fs).drop (pos - origin)
  cuts : SafeCuts (zeroTails origin fs) (WalReader.chunkEnds pos chunks)

theorem Carried.append {hdr : PageHeaders} {origin pos : Lsn} {fs : List WalFrame} {cs ds : List Bytes}
    (h : Carried hdr origin fs pos (cs ++ ds)) : Carried hdr origin fs pos cs where
  boundary := h.boundary
  start := h.start
  reach := h.reach
  wal := by
    have hwal := h.wal
    rw [List.flatten_append] at hwal
    exact (List.prefix_append _ _).trans hwal
  cuts := by
    have hcuts := h.cuts
    rw [WalReader.chunkEnds_append] at hcuts
    exact hcuts.append

/-- The records handed to the engine are those that lie in the received part of the WAL. -/
theorem run_handed {hdr : PageHeaders} {origin : Lsn} {fs : List WalFrame} {s s' : MainState}
    {its : List Iteration} (hreader : s.reader = .new s.reader.pos) (hpos : s.reader.pos % xlogPageSize = 0)
    (hwal : Carried hdr origin fs s.reader.pos (payloads its)) (h : s.run dec cfg its = some s') {e : Lsn × Bytes}
    (he : e ∈ framedRecords origin fs) (hstart : s.reader.pos ≤ e.1) :
    e ∈ s.runRecords dec cfg its ↔ recordEnd e ≤ s.reader.pos + (payloads its).flatten.length := by
  have hbegin : s.reader.receivedEnd = s.reader.pos := by
    rw [hreader]
    rfl
  have hsettled := WalReader.boundary_settled hdr hwal.boundary hpos hwal.start hwal.reach
  rw [← hreader] at hsettled
  obtain ⟨future, hfuture⟩ := hwal.wal
  rw [← hfuture] at hsettled
  obtain ⟨out', tails', hout, hends, hsettled', hend⟩ :=
    run_settled hsettled (by rw [hbegin]; exact hwal.cuts.filter _) h
  rw [← hbegin, ← hend]
  constructor
  · exact hends e
  · intro hle
    have hmem : e ∈ s.runRecords dec cfg its ++ out' := hout ▸ List.mem_filter.mpr ⟨he, decide_eq_true hstart⟩
    exact (List.mem_append.mp hmem).resolve_right fun hlate =>
      absurd hle (not_le.mpr (hsettled'.lt_recordEnd hlate))

/-! ## Requests -/

/-- When a request for a position is answered, the engine has been handed every record that ends
at or below it. -/
def ReadsItsWrites (dec : TupleDecoder) (cfg : Config) (s : MainState) (its : List Iteration) (origin : Lsn)
    (fs : List WalFrame) : Prop :=
  ∀ n u, s.run dec cfg (its.take n) = some u → ∀ minLsn, u.engine.tail.ready minLsn →
    ∀ e ∈ framedRecords origin fs, s.reader.pos ≤ e.1 → recordEnd e ≤ minLsn →
      e ∈ s.runRecords dec cfg (its.take n)

/-- One message, with the first byte of the segment at `0/1000000`. -/
def firstByte (walEnd : Lsn) : List Iteration :=
  [⟨Sample.env [Sample.desc "t" 16384] 0x1000000, 0, .xlogData 0x1000000 walEnd [0x16]⟩]

/-- Two records with a segment switch between them, cut into two payloads. Each message advertises
the end of its own payload. -/
def switchedAt (n : Nat) : List Iteration :=
  [⟨Sample.env [Sample.desc "t" 16384] 0, 0, .xlogData 0 n (switched.take n)⟩,
    ⟨Sample.env [Sample.desc "t" 16384] 0, 0, .xlogData n 8240 (switched.drop n)⟩]

theorem start_sample :
    start .reject (Sample.env [Sample.desc "t" 16384] 0) Sample.cfg 0
      [Table.opened (Sample.desc "t" 16384) (Sample.sink (Sample.desc "t" 16384))] none 0 none =
        some (Sample.started [Sample.desc "t" 16384] 0) := rfl

theorem switchedAt_carried :
    Carried pg17Headers 0 [minimal none, minimal (some 0)] 0 (payloads (switchedAt 8188)) where
  boundary := by decide
  start := le_rfl
  reach := by decide +kernel
  wal := by
    rw [show payloads (switchedAt 8188) = [switched.take 8188, switched.drop 8188] from rfl]
    simp [switched]
  cuts := by decide +kernel

/-- A record that ends at or below the applied position and was not handed to the engine. -/
theorem not_readsItsWrites {s u : MainState} {its : List Iteration} {origin : Lsn} {fs : List WalFrame}
    (e : Lsn × Bytes) (hrun : s.run dec cfg its = some u) (he : e ∈ framedRecords origin fs)
    (hstart : s.reader.pos ≤ e.1) (hend : recordEnd e ≤ u.engine.tail.appliedLsn)
    (hmissed : e ∉ s.runRecords dec cfg its) : ¬ s.ReadsItsWrites dec cfg its origin fs := fun h => by
  have htake : its.take its.length = its := List.take_length
  have hhanded := h its.length u (htake.symm ▸ hrun) _ (decide_eq_true hend) e he hstart le_rfl
  rw [htake] at hhanded
  exact hmissed hhanded

end MainState

end Ltap
