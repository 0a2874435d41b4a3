-- SUMMARY: The replication stream on its connection (`pgwire.rs`), and the loop of `main.rs` that reads it.
import OpenLtap.Driver.Main
import OpenLtap.Wire.Messages

/-!
# The replication stream

The server sends WAL payloads and keepalives, and notices between them. The loop waits for a
message, a flush tick or a status tick at once. When a tick comes first, the wait for the
message is given up, and what has arrived stays in the receive buffer.
-/

namespace Ltap

open Incremental

inductive ReplMsg where
  | xLogData (startLsn walEnd : Lsn) (data : Bytes)
  | keepalive (walEnd : Lsn) (replyRequested : Bool)
  deriving DecidableEq, Repr

/-! ## Reading messages -/

/-- The payload of a `CopyData` message. -/
def replMsg (payload : Bytes) : Except Fault ReplMsg := do
  let (kind, payload) ← getUint 1 payload
  if kind = 0x77 then
    let (startLsn, payload) ← getUint 8 payload
    let (walEnd, payload) ← getUint 8 payload
    let (_, payload) ← getUint 8 payload
    return .xLogData startLsn walEnd payload
  else if kind = 0x6B then
    let (walEnd, payload) ← getUint 8 payload
    let (_, payload) ← getUint 8 payload
    let (reply, _) ← getUint 1 payload
    return .keepalive walEnd (reply ≠ 0)
  else bail s!"unexpected CopyData kind '{Char.ofNat kind}'"

/-- One turn of `next_msg`: a message to hand out, or none and the loop goes on. -/
def streamMsg (m : WireMsg) : Except Fault (Option ReplMsg) :=
  if m.1 = 0x64 then some <$> replMsg m.2
  else if m.1 = 0x4E then .ok none
  else if m.1 = 0x45 then bail s!"stream error: {parseError m.2}"
  else if m.1 = 0x63 ∨ m.1 = 0x5A then bail "server ended the replication stream"
  else bail s!"unexpected message '{tagChar m.1}' in stream"

/-- `next_msg`. -/
def nextMsg : Decoder UInt8 ReplMsg Fault := readMsg.select streamMsg

/-- `send_status`. The flushed position is reported as applied too. -/
def statusMsg (received flushed : Lsn) (micros : BitVec 64) : Bytes :=
  0x64 :: (toBe 4 (4 + 1 + 8 * 3 + 8 + 1) ++
    (0x72 :: (toBe 8 received ++ (toBe 8 flushed ++ (toBe 8 flushed ++ (toBe 8 micros.toNat ++ [0]))))))

/-! ## The loop -/

def ReplMsg.input : ReplMsg → MainInput
  | .xLogData startLsn walEnd data => .xlogData startLsn walEnd data
  | .keepalive walEnd replyRequested => .keepalive walEnd replyRequested

def MainInput.msg : MainInput → Option ReplMsg
  | .xlogData startLsn walEnd data => some (.xLogData startLsn walEnd data)
  | .keepalive walEnd replyRequested => some (.keepalive walEnd replyRequested)
  | .flushTick | .statusTick => none

inductive Ticker where
  | flush
  | status
  deriving DecidableEq, Repr

def Ticker.input : Ticker → MainInput
  | .flush => .flushTick
  | .status => .statusTick

def MainInput.ticker : MainInput → Option Ticker
  | .flushTick => some .flush
  | .statusTick => some .status
  | .xlogData .. | .keepalive .. => none

@[simp] theorem ReplMsg.input_msg (m : ReplMsg) : m.input.msg = some m := by cases m <;> rfl

@[simp] theorem ReplMsg.input_ticker (m : ReplMsg) : m.input.ticker = none := by cases m <;> rfl

@[simp] theorem Ticker.input_msg (t : Ticker) : t.input.msg = none := by cases t <;> rfl

@[simp] theorem Ticker.input_ticker (t : Ticker) : t.input.ticker = some t := by cases t <;> rfl

/-- The surroundings of one iteration, with the wall clock for the status update. -/
structure Now where
  env : PgEnv
  now : Instant
  micros : BitVec 64

/-- What happens to the waiting loop. -/
inductive Wake where
  /-- The socket returns these bytes. -/
  | arrive (chunk : Bytes)
  /-- The wait for a message is looked at first. -/
  | message (n : Now)
  /-- A tick comes first. -/
  | tick (n : Now) (t : Ticker)

def Wake.chunk : Wake → Bytes
  | .arrive chunk => chunk
  | .message _ | .tick .. => []

def Wake.ticker : Wake → Option Ticker
  | .tick _ t => some t
  | .arrive _ | .message _ => none

/-- The loop and its connection. -/
structure Attached where
  state : MainState
  /-- Received and not yet taken off. -/
  buf : Bytes
  /-- Sent to the server. -/
  written : Bytes

namespace Attached

variable (dec : TupleDecoder) (cfg : Config)

/-- An iteration. The status update it makes goes out on the connection. -/
def iterate (a : Attached) (n : Now) (input : MainInput) : Option Attached :=
  match a.state.iterate dec n.env cfg n.now input with
  | (s, true) =>
    let updates := s.statuses.drop a.state.statuses.length
    some { a with state := s, written := a.written ++ updates.flatMap fun p => statusMsg p.1 p.2 n.micros }
  | (_, false) => none

def step (a : Attached) : Wake → Option Attached
  | .arrive chunk => some { a with buf := a.buf ++ chunk }
  | .message n =>
    match nextMsg.poll a.buf with
    | .pending rest => some { a with buf := rest }
    | .failed _ => none
    | .ready m rest => { a with buf := rest }.iterate dec cfg n m.input
  | .tick n t => a.iterate dec cfg n t.input

/-- Run through some events; `none` when the process stopped. -/
def run : Attached → List Wake → Option Attached
  | a, [] => some a
  | a, w :: ws =>
    match a.step dec cfg w with
    | some a' => run a' ws
    | none => none

variable {dec cfg}

theorem iterate_some {a a' : Attached} {n : Now} {input : MainInput} (h : a.iterate dec cfg n input = some a') :
    a.state.iterate dec n.env cfg n.now input = (a'.state, true) ∧ a'.buf = a.buf ∧
      a'.written = a.written ++
        (a'.state.statuses.drop a.state.statuses.length).flatMap fun p => statusMsg p.1 p.2 n.micros := by
  simp only [iterate] at h
  split at h
  · cases h
    exact ⟨by assumption, rfl, rfl⟩
  · cases h

end Attached

namespace Sample

/-- The loop on no tables, right after its start. -/
def attached : Attached := { state := started [] 0, buf := [], written := [] }

def noTables : Now := { env := env [] 0, now := 0, micros := 0 }

end Sample

/-! ## Nothing is lost, doubled or torn -/

namespace MainState

theorem run_cons {dec : TupleDecoder} {cfg : Config} {s s' u : MainState} {it : Iteration} {its : List Iteration}
    (h : s.iterate dec it.env cfg it.now it.input = (u, true)) (hrest : u.run dec cfg its = some s') :
    s.run dec cfg (it :: its) = some s' := by
  simp only [run, h]
  exact hrest

end MainState

namespace Attached

variable {dec : TupleDecoder} {cfg : Config}

/-- What one event does to the messages handled and the bytes that are left. -/
theorem step_taken {a a' : Attached} {w : Wake} {total : Bytes} {out : List ReplMsg}
    (htaken : nextMsg.Taken total out a.buf) (h : a.step dec cfg w = some a') :
    ∃ its, a.state.run dec cfg its = some a'.state ∧ its.filterMap (·.input.ticker) = w.ticker.toList ∧
      nextMsg.Taken (total ++ w.chunk) (out ++ its.filterMap (·.input.msg)) a'.buf := by
  cases w with
  | arrive chunk =>
    cases h
    exact ⟨[], rfl, rfl, by simpa [Wake.chunk] using htaken.arrive chunk⟩
  | message n =>
    simp only [step] at h
    split at h
    · rename_i hpoll
      cases h
      exact ⟨[], rfl, rfl, by simpa [Wake.chunk] using htaken.pending hpoll⟩
    · cases h
    · rename_i m rest hpoll
      obtain ⟨hiterate, hbuf, -⟩ := iterate_some h
      refine ⟨[⟨n.env, n.now, m.input⟩], MainState.run_cons hiterate rfl, by simp [Wake.ticker], ?_⟩
      rw [hbuf]
      simpa [Wake.chunk] using htaken.ready hpoll
  | tick n t =>
    obtain ⟨hiterate, hbuf, -⟩ := iterate_some h
    refine ⟨[⟨n.env, n.now, t.input⟩], MainState.run_cons hiterate rfl, by simp [Wake.ticker], ?_⟩
    rw [hbuf]
    simpa [Wake.chunk] using htaken

theorem run_taken {a a' : Attached} {ws : List Wake} {total : Bytes} {out : List ReplMsg}
    (htaken : nextMsg.Taken total out a.buf) (h : a.run dec cfg ws = some a') :
    ∃ its, a.state.run dec cfg its = some a'.state ∧
      its.filterMap (·.input.ticker) = ws.filterMap Wake.ticker ∧
      nextMsg.Taken (total ++ ws.flatMap Wake.chunk) (out ++ its.filterMap (·.input.msg)) a'.buf := by
  induction ws generalizing a total out with
  | nil =>
    cases h
    exact ⟨[], rfl, rfl, by simpa using htaken⟩
  | cons w ws ih =>
    simp only [run] at h
    split at h
    · rename_i u hstep
      obtain ⟨its₁, hrun₁, hticks₁, htaken₁⟩ := step_taken htaken hstep
      obtain ⟨its₂, hrun₂, hticks₂, htaken₂⟩ := ih htaken₁ h
      refine ⟨its₁ ++ its₂, MainState.run_append.mpr ⟨_, hrun₁, hrun₂⟩, ?_, ?_⟩
      · rw [List.filterMap_append, hticks₁, hticks₂]
        cases hw : w.ticker <;> simp [hw]
      · rw [List.flatMap_cons, List.filterMap_append, ← List.append_assoc, ← List.append_assoc]
        exact htaken₂
    · cases h

/-- Whatever the server sends, however it is cut and however the ticks fall between: the loop makes
the iterations of a run on the messages that the bytes spell, in order, and what it has not handled
yet is spelled by what its buffer holds. -/
theorem run_reads {a a' : Attached} {ws : List Wake} (h : a.run dec cfg ws = some a') :
    ∃ its, a.state.run dec cfg its = some a'.state ∧
      its.filterMap (·.input.ticker) = ws.filterMap Wake.ticker ∧
      nextMsg.decode (a.buf ++ ws.flatMap Wake.chunk) =
        (its.filterMap (·.input.msg) ++ (nextMsg.decode a'.buf).1, (nextMsg.decode a'.buf).2) := by
  obtain ⟨its, hrun, hticks, htaken⟩ := run_taken (Decoder.Taken.start a.buf) h
  exact ⟨its, hrun, hticks, htaken⟩

/-- A keepalive arrives in two pieces, with a look at the wait and a tick between. -/
theorem run_reads_torn :
    ∃ a', Sample.attached.run .reject Sample.cfg
        [.arrive [0x64, 0, 0, 0, 22, 0x6B, 0], .message Sample.noTables, .tick Sample.noTables .status,
          .arrive [0, 0, 0, 0, 0, 0, 5, 0, 0, 0, 0, 0, 0, 0, 0, 1], .message Sample.noTables] = some a' ∧
      ∃ its, Sample.attached.state.run .reject Sample.cfg its = some a'.state ∧
        its.filterMap (·.input.ticker) = [.status] ∧
        nextMsg.decode [0x64, 0, 0, 0, 22, 0x6B, 0, 0, 0, 0, 0, 0, 0, 5, 0, 0, 0, 0, 0, 0, 0, 0, 1] =
          (its.filterMap (·.input.msg) ++ (nextMsg.decode a'.buf).1, (nextMsg.decode a'.buf).2) := by
  obtain ⟨a', h⟩ := Option.isSome_iff_exists.mp (show (Sample.attached.run .reject Sample.cfg
    [.arrive [0x64, 0, 0, 0, 22, 0x6B, 0], .message Sample.noTables, .tick Sample.noTables .status,
      .arrive [0, 0, 0, 0, 0, 0, 5, 0, 0, 0, 0, 0, 0, 0, 0, 1], .message Sample.noTables]).isSome = true by
    decide +kernel)
  exact ⟨a', h, run_reads h⟩

end Attached

/-! ## What a server sends -/

/-- What a server sends while it streams. -/
inductive StreamMsg where
  | wal (startLsn walEnd sendTime : BitVec 64) (data : Bytes) (fits : data.length + 29 < 2 ^ 32)
  | keepalive (walEnd sendTime : BitVec 64) (replyRequested : Bool)
  | notice (payload : Bytes) (fits : payload.length + 4 < 2 ^ 32)

namespace StreamMsg

def frame : StreamMsg → WireFrame
  | wal startLsn walEnd sendTime data fits =>
    { tag := 0x64
      payload := 0x77 :: (toBe 8 startLsn.toNat ++ (toBe 8 walEnd.toNat ++ (toBe 8 sendTime.toNat ++ data)))
      fits := by
        simp only [List.length_cons, List.length_append, toBe_length]
        omega }
  | keepalive walEnd sendTime replyRequested =>
    { tag := 0x64
      payload := 0x6B :: (toBe 8 walEnd.toNat ++ (toBe 8 sendTime.toNat ++ [if replyRequested then 1 else 0]))
      fits := by
        simp only [List.length_cons, List.length_append, toBe_length, List.length_nil]
        omega }
  | notice payload fits => { tag := 0x4E, payload, fits }

/-- What the client makes of it. -/
def repl : StreamMsg → Option ReplMsg
  | wal startLsn walEnd _ data _ => some (.xLogData startLsn.toNat walEnd.toNat data)
  | keepalive walEnd _ replyRequested => some (.keepalive walEnd.toNat replyRequested)
  | notice .. => none

theorem streamMsg_frame (m : StreamMsg) : streamMsg m.frame.msg = .ok m.repl := by
  have hlong : ∀ (x : BitVec 64) (rest : Bytes), getUint 8 (toBe 8 x.toNat ++ rest) = .ok (x.toNat, rest) :=
    fun x rest => getUint_append (n := 8) x.isLt rest
  have hbyte : ∀ (b : UInt8) (rest : Bytes), getUint 1 (b :: rest) = .ok (b.toNat, rest) := fun b rest => rfl
  cases m with
  | wal startLsn walEnd sendTime data fits =>
    have hrepl : replMsg (frame (.wal startLsn walEnd sendTime data fits)).payload =
        .ok (.xLogData startLsn.toNat walEnd.toNat data) := by
      simp only [replMsg, frame, hbyte, hlong, bind, Except.bind]
      rfl
    simp only [streamMsg, WireFrame.msg, hrepl]
    rfl
  | keepalive walEnd sendTime replyRequested =>
    have hrepl : replMsg (frame (.keepalive walEnd sendTime replyRequested)).payload =
        .ok (.keepalive walEnd.toNat replyRequested) := by
      simp only [replMsg, frame, hbyte, hlong, bind, Except.bind]
      cases replyRequested <;> rfl
    simp only [streamMsg, WireFrame.msg, hrepl]
    rfl
  | notice payload fits => rfl

theorem readMsg_frame (m : StreamMsg) (more : Bytes) :
    readMsg.poll (m.frame.bytes ++ more) = .ready m.frame.msg more :=
  m.frame.readMsg_bytes more

/-- The client keeps of the frames what the messages are to it. -/
theorem keep_frames (ms : List StreamMsg) :
    Decoder.keep streamMsg (ms.map (·.frame.msg)) = (ms.filterMap repl, none) := by
  induction ms with
  | nil => rfl
  | cons m ms ih =>
    simp only [List.map_cons, Decoder.keep, streamMsg_frame, ih]
    cases hm : m.repl <;> simp [hm]

theorem decode_frames (ms : List StreamMsg) :
    nextMsg.decode (ms.flatMap (·.frame.bytes)) = (ms.filterMap repl, .waiting []) := by
  have hframes := Decoder.decode_flatMap (fun m (_ : m ∈ ms) => readMsg_frame m) []
  rw [List.append_nil, Decoder.decode_pending readMsg_nil, List.append_nil] at hframes
  rw [nextMsg, Decoder.decode_select, hframes, keep_frames]

/-- As much of the stream as has come spells the first messages, and is never refused. -/
theorem decode_prefix {bs : Bytes} {ms : List StreamMsg} (h : bs <+: ms.flatMap (·.frame.bytes)) :
    (nextMsg.decode bs).1 <+: ms.filterMap repl ∧ ∃ rest, (nextMsg.decode bs).2 = .waiting rest := by
  obtain ⟨hmsgs, rest, hrest⟩ := Decoder.decode_of_prefix (fun m _ => readMsg_frame m) ⟨[], readMsg_nil⟩ h
  rw [List.prefix_iff_eq_take, ← List.map_take] at hmsgs
  rw [nextMsg, Decoder.decode_select, hmsgs, keep_frames, hrest]
  exact ⟨(List.take_prefix _ ms).filterMap repl, rest, rfl⟩

end StreamMsg

/-- A notice, and a keepalive that asks for a reply. -/
def Sample.noticed : List StreamMsg := [.notice [0x43, 0x30, 0, 0] (by decide), .keepalive 5 0 true]

/-- The first byte of the WAL, between two ticks. -/
def Sample.ticking : List Wake :=
  [.tick noTables .status, .arrive (StreamMsg.wal 0 64 0 [0x16] (by decide : 1 + 29 < 2 ^ 32)).frame.bytes,
    .message noTables, .tick noTables .status]

namespace Attached

variable {dec : TupleDecoder} {cfg : Config}

/-- With a server that streams, however its messages are cut and however the ticks fall between: the
loop never refuses what has come, it handles the first messages of the stream in order, and all of
them once all have come and it waits. -/
theorem run_stream {a a' : Attached} {ws : List Wake} {ms : List StreamMsg} (hbuf : a.buf = [])
    (hsent : ws.flatMap Wake.chunk <+: ms.flatMap (·.frame.bytes)) (h : a.run dec cfg ws = some a') :
    ∃ its, a.state.run dec cfg its = some a'.state ∧
      its.filterMap (·.input.ticker) = ws.filterMap Wake.ticker ∧
      its.filterMap (·.input.msg) <+: ms.filterMap StreamMsg.repl ∧
      (∀ e, nextMsg.poll a'.buf ≠ .failed e) ∧
      (ws.flatMap Wake.chunk = ms.flatMap (·.frame.bytes) → (∃ rest, nextMsg.poll a'.buf = .pending rest) →
        its.filterMap (·.input.msg) = ms.filterMap StreamMsg.repl) := by
  obtain ⟨its, hrun, hticks, htaken⟩ := run_taken (Decoder.Taken.start a.buf) h
  rw [hbuf, List.nil_append, List.nil_append] at htaken
  obtain ⟨hmsgs, rest, hrest⟩ := StreamMsg.decode_prefix hsent
  refine ⟨its, hrun, hticks, htaken.isPrefix.trans hmsgs, ?_, ?_⟩
  · intro e hfailed
    rw [htaken, Decoder.decode_failed hfailed] at hrest
    cases hrest
  · rintro hall ⟨r, hwait⟩
    have heq := htaken
    rw [Decoder.Taken, hall, StreamMsg.decode_frames, Decoder.decode_pending hwait, List.append_nil] at heq
    exact (congrArg Prod.fst heq).symm

/-- A notice and a keepalive, of which the last ten bytes are still on their way. -/
theorem run_stream_cut :
    ∃ a', Sample.attached.run .reject Sample.cfg
        [.arrive (Sample.noticed.flatMap (·.frame.bytes) |>.take 20), .message Sample.noTables] = some a' ∧
      ∃ its, Sample.attached.state.run .reject Sample.cfg its = some a'.state ∧
        its.filterMap (·.input.msg) <+: Sample.noticed.filterMap StreamMsg.repl := by
  obtain ⟨a', h⟩ := Option.isSome_iff_exists.mp (show (Sample.attached.run .reject Sample.cfg
    [.arrive (Sample.noticed.flatMap (·.frame.bytes) |>.take 20), .message Sample.noTables]).isSome = true by
    decide +kernel)
  have hsent : [Wake.arrive (Sample.noticed.flatMap (·.frame.bytes) |>.take 20),
      .message Sample.noTables].flatMap Wake.chunk <+: Sample.noticed.flatMap (·.frame.bytes) := by
    simpa [Wake.chunk] using List.take_prefix 20 (Sample.noticed.flatMap (·.frame.bytes))
  obtain ⟨its, hrun, -, hmsgs, -⟩ := run_stream rfl hsent h
  exact ⟨a', h, its, hrun, hmsgs⟩

end Attached

/-! ## Status updates -/

/-- What the server reads in a message: the positions received, flushed and applied. -/
def standbyStatus (m : WireMsg) : Except Fault (Option (Lsn × Lsn × Lsn)) :=
  if m.1 ≠ 0x64 then .ok none
  else do
    let (kind, payload) ← getUint 1 m.2
    if kind ≠ 0x72 then return none
    else
      let (received, payload) ← getUint 8 payload
      let (flushed, payload) ← getUint 8 payload
      let (applied, _) ← getUint 8 payload
      return some (received, flushed, applied)

/-- What the server reads of the client, however it arrives. -/
def standbyStatuses : Decoder UInt8 (Lsn × Lsn × Lsn) Fault := readMsg.select standbyStatus

theorem standbyStatuses_statusMsg {received flushed : Lsn} (hr : received < 2 ^ 64) (hf : flushed < 2 ^ 64)
    (micros : BitVec 64) (more : Bytes) :
    standbyStatuses.poll (statusMsg received flushed micros ++ more) = .ready (received, flushed, flushed) more := by
  have hlong : ∀ {v : Nat} (rest : Bytes), v < 2 ^ 64 → getUint 8 (toBe 8 v ++ rest) = .ok (v, rest) :=
    fun rest h => getUint_append (n := 8) h rest
  let f : WireFrame :=
    { tag := 0x64
      payload := 0x72 :: (toBe 8 received ++ (toBe 8 flushed ++ (toBe 8 flushed ++ (toBe 8 micros.toNat ++ [0]))))
      fits := by
        simp only [List.length_cons, List.length_append, toBe_length, List.length_nil]
        omega }
  have hbytes : statusMsg received flushed micros = f.bytes := by
    simp only [statusMsg, f, WireFrame.bytes, wireMsg, List.length_cons, List.length_append, toBe_length,
      List.length_nil]
  have hstatus : standbyStatus f.msg = .ok (some (received, flushed, flushed)) := by
    have hbyte : getUint 1 f.payload = .ok (0x72, f.payload.drop 1) := rfl
    simp only [standbyStatus, WireFrame.msg, hbyte, f, List.drop_succ_cons, List.drop_zero, hlong _ hr, hlong _ hf,
      bind, Except.bind]
    rfl
  rw [hbytes]
  exact Decoder.selectPoll_kept (f.readMsg_bytes more) hstatus

namespace MainState

variable {dec : TupleDecoder} {cfg : Config} {env : PgEnv} {now : Instant}

/-- An iteration only adds to the status updates. -/
theorem iterate_statuses {s s' : MainState} {input : MainInput}
    (h : s.iterate dec env cfg now input = (s', true)) : s.statuses <+: s'.statuses := by
  have hreceive : ∀ {s₁ : MainState} {startLsn walEnd data ok},
      s.receive dec now startLsn walEnd data = (s₁, ok) → s₁.statuses = s.statuses := by
    intro s₁ startLsn walEnd data ok hrecv
    simp only [receive] at hrecv
    split at hrecv <;> cases hrecv <;> rfl
  have hremap : ∀ {s₁ s₂ : MainState} {ok}, s₁.checkRemap dec env cfg now = (s₂, ok) → s₂.statuses = s₁.statuses := by
    intro s₁ s₂ ok hcheck
    simp only [checkRemap] at hcheck
    split at hcheck <;> cases hcheck <;> rfl
  have hflush : ∀ {s₁ s₂ : MainState} {ok}, s₁.flush env now = (s₂, ok) → s₂.statuses = s₁.statuses := by
    intro s₁ s₂ ok hround
    simp only [flush] at hround
    split at hround <;> cases hround <;> rfl
  cases input with
  | xlogData startLsn walEnd data =>
    obtain ⟨s₁, s₂, hrecv, hcheck, rfl | hround⟩ := iterate_xlogData h
    · rw [setApplied, hremap hcheck, hreceive hrecv]
    · rw [hflush hround, setApplied, hremap hcheck, hreceive hrecv]
  | keepalive walEnd replyRequested =>
    simp only [iterate, Prod.mk.injEq] at h
    obtain ⟨rfl, -⟩ := h
    cases replyRequested
    · exact List.prefix_refl _
    · exact List.prefix_append _ _
  | flushTick =>
    obtain rfl | ⟨s₁, hround, rfl⟩ := iterate_flushTick h
    · exact List.prefix_refl _
    · rw [sendStatus, hflush hround]
      exact List.prefix_append _ _
  | statusTick =>
    simp only [iterate, Prod.mk.injEq] at h
    obtain ⟨rfl, -⟩ := h
    exact List.prefix_append _ _

end MainState

namespace Attached

variable {dec : TupleDecoder} {cfg : Config}

/-- What has been written is the status updates that have been recorded. -/
structure Reports (a : Attached) : Prop where
  written : ∃ micros : List (BitVec 64), a.state.statuses.length = micros.length ∧
    a.written = (a.state.statuses.zip micros).flatMap fun u => statusMsg u.1.1 u.1.2 u.2

theorem Reports.iterate {a a' : Attached} {n : Now} {input : MainInput} (hr : a.Reports)
    (h : a.iterate dec cfg n input = some a') : a'.Reports := by
  obtain ⟨hiterate, -, hwritten⟩ := iterate_some h
  obtain ⟨more, hmore⟩ := MainState.iterate_statuses hiterate
  obtain ⟨micros, hlen, hprev⟩ := hr.written
  refine ⟨micros ++ List.replicate more.length n.micros, ?_, ?_⟩
  · rw [← hmore, List.length_append, List.length_append, List.length_replicate, hlen]
  · rw [hwritten, hprev, ← hmore, List.drop_left, List.zip_append hlen, List.flatMap_append]
    congr 1
    clear hmore hwritten
    induction more with
    | nil => rfl
    | cons p more ih => rw [List.flatMap_cons, ih]; rfl

theorem Reports.run {a a' : Attached} {ws : List Wake} (hr : a.Reports) (h : a.run dec cfg ws = some a') :
    a'.Reports := by
  induction ws generalizing a with
  | nil =>
    cases h
    exact hr
  | cons w ws ih =>
    simp only [Attached.run] at h
    split at h
    · rename_i u hstep
      refine ih ?_ h
      cases w with
      | arrive chunk =>
        cases hstep
        exact ⟨hr.written⟩
      | message n =>
        simp only [step] at hstep
        split at hstep
        · cases hstep
          exact ⟨hr.written⟩
        · cases hstep
        · rename_i rest _
          have hkept : { a with buf := rest }.Reports := ⟨hr.written⟩
          exact hkept.iterate hstep
      | tick n t => exact hr.iterate hstep
    · cases h

/-- Over any run, the server reads the status updates that the loop recorded, in order: the first
of them from any part of what was written, all of them from all of it. -/
theorem run_reports {a a' : Attached} {ws : List Wake} (hwritten : a.written = []) (hnone : a.state.statuses = [])
    (h : a.run dec cfg ws = some a') (hfit : ∀ p ∈ a'.state.statuses, p.1 < 2 ^ 64 ∧ p.2 < 2 ^ 64) :
    (∀ got, got <+: a'.written →
        (standbyStatuses.decode got).1 <+: (a'.state.statuses.map fun p => (p.1, p.2, p.2)) ∧
          ∃ rest, (standbyStatuses.decode got).2 = .waiting rest) ∧
      standbyStatuses.decode a'.written = (a'.state.statuses.map fun p => (p.1, p.2, p.2), .waiting []) := by
  have hstart : a.Reports := ⟨[], by rw [hnone]; rfl, by rw [hwritten, hnone]; rfl⟩
  obtain ⟨micros, hlen, hall⟩ := (hstart.run h).written
  have henc : ∀ u ∈ a'.state.statuses.zip micros, ∀ more,
      standbyStatuses.poll (statusMsg u.1.1 u.1.2 u.2 ++ more) = .ready (u.1.1, u.1.2, u.1.2) more := by
    intro u hu more
    obtain ⟨hr, hf⟩ := hfit _ (List.of_mem_zip hu).1
    exact standbyStatuses_statusMsg hr hf _ more
  have hvalues : (a'.state.statuses.zip micros).map (fun u => (u.1.1, u.1.2, u.1.2)) =
      a'.state.statuses.map fun p => (p.1, p.2, p.2) := by
    conv_rhs => rw [← List.map_fst_zip hlen.le, List.map_map]
    rfl
  have hnil : standbyStatuses.poll [] = .pending [] := rfl
  rw [← hvalues, hall]
  refine ⟨fun got hgot => Decoder.decode_of_prefix henc ⟨_, hnil⟩ hgot, ?_⟩
  have hdecode := Decoder.decode_flatMap henc []
  rwa [List.append_nil, Decoder.decode_pending hnil, List.append_nil] at hdecode

/-- A status update before a payload, and one behind it. -/
theorem run_reports_tick :
    ∃ a', Sample.attached.run .reject Sample.cfg Sample.ticking = some a' ∧
      standbyStatuses.decode a'.written = ([(0, 0, 0), (64, 0, 0)], .waiting []) := by
  have hrun : (Sample.attached.run .reject Sample.cfg Sample.ticking).map (·.state.statuses) =
      some [(0, 0), (64, 0)] := by
    decide +kernel
  obtain ⟨a', h, hstatuses⟩ := Option.map_eq_some_iff.mp hrun
  have hfit : ∀ p ∈ a'.state.statuses, p.1 < 2 ^ 64 ∧ p.2 < 2 ^ 64 := by
    rw [hstatuses]
    decide
  have hall := (run_reports rfl rfl h hfit).2
  rw [hstatuses] at hall
  exact ⟨a', h, hall⟩

end Attached

end Ltap
