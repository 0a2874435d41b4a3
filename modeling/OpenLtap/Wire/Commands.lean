-- SUMMARY: The commands of a replication connection: startup, system identification, slots (`pgwire.rs`).
import OpenLtap.Wire.Lsn
import OpenLtap.Wire.Messages

/-!
# Commands

The client writes a message and reads messages until the answer is complete. The server is
known by what it sends: at the start, and in answer to each write. How the bytes are cut on
their way makes no difference (`readMsgFrom_eq`), so a connection holds all that the server
has sent and the client has not read.
-/

namespace Ltap

open Incremental

structure Conn where
  /-- Sent by the server and not yet taken off; behind it the connection is closed. -/
  incoming : Bytes
  /-- What the server sends in answer to each further write. -/
  replies : List Bytes
  /-- The writes so far. -/
  written : List Bytes
  reqid : Nat
  deriving DecidableEq, Repr

/-- What is left of all that the server sends. -/
def Conn.size (c : Conn) : Nat := c.incoming.length + (c.replies.map List.length).sum

/-! ## Reading and writing -/

/-- An operation of the connection. The connection is there after a failure, too. -/
def Wire (α : Type) : Type := Conn → Except Fault α × Conn

namespace Wire

variable {α β σ : Type}

instance : Monad Wire where
  pure a := fun c => (.ok a, c)
  bind p f := fun c =>
    match p c with
    | (.ok a, c) => f a c
    | (.error e, c) => (.error e, c)

def lift (r : Except Fault α) : Wire α := fun c => (r, c)

/-- `bail!`. -/
def fail (what : String) : Wire α := lift (bail what)

def context (what : String) (p : Wire α) : Wire α := fun c =>
  let (r, c) := p c
  (withContext what r, c)

/-- `write_all`. -/
def write (msg : Bytes) : Wire Unit := fun c =>
  (.ok (), { c with
    written := c.written ++ [msg], incoming := c.incoming ++ c.replies.headD [], replies := c.replies.tail })

/-- `read_msg`. -/
def readMsg : Wire WireMsg := fun c =>
  match pollMsg c.incoming with
  | .ready m rest => (.ok m, { c with incoming := rest })
  | .failed e => (.error e, c)
  | .pending _ => (bail "connection closed by server", c)

def eachMsg (turn : σ → WireMsg → Wire (σ ⊕ α)) : Nat → σ → Wire α
  | 0, _ => fail "connection closed by server"
  | fuel + 1, s => do
    let m ← readMsg
    match ← turn s m with
    | .inl s => eachMsg turn fuel s
    | .inr a => return a

/-- `loop { let (tag, payload) = self.read_msg().await?; … }`: a turn goes on or ends the loop. Every
message takes at least a byte of what the server sends, so their number bounds the turns. -/
def messages (turn : σ → WireMsg → Wire (σ ⊕ α)) (s : σ) : Wire α := fun c => eachMsg turn (c.size + 1) s c

end Wire

/-! ## The commands -/

open Wire

def cstring (s : String) : Bytes := Utf8.encode s ++ [0]

def queryMsg (q : String) : Bytes := 0x51 :: (toBe 4 (4 + (Utf8.encode q).length + 1) ++ cstring q)

def sendQuery (q : String) : Wire Unit := write (queryMsg q)

def startupParams (user : String) (replication : Bool) (extraParams : List (String × String)) :
    List (String × String) :=
  (("user", user) :: if replication then [("replication", "true")] else []) ++ extraParams

/-- Protocol 3.0 and the parameters. -/
def startupBody (params : List (String × String)) : Bytes :=
  toBe 4 196608 ++ ((params.flatMap fun p => cstring p.1 ++ cstring p.2) ++ [0])

def startupMsg (user : String) (replication : Bool) (extraParams : List (String × String)) : Bytes :=
  let body := startupBody (startupParams user replication extraParams)
  toBe 4 (body.length + 4) ++ body

def sendStartup (user : String) (replication : Bool) (extraParams : List (String × String)) : Wire Unit :=
  write (startupMsg user replication extraParams)

def passwordMsg (pw : String) : Bytes := 0x70 :: (toBe 4 (4 + (Utf8.encode pw).length + 1) ++ cstring pw)

def awaitReadyTurn (password : Option String) (m : WireMsg) : Wire (Unit ⊕ Unit) :=
  if m.1 = 0x52 then do
    let (code, _) ← lift (getUint 4 m.2)
    match code, password with
    | 0, _ => return .inl ()
    | 3, some pw =>
      write (passwordMsg pw)
      return .inl ()
    | 3, none => fail "server wants a password and none is configured"
    | code, _ =>
      fail s!"server requires auth method {code}; dev setup expects `host replication ... trust` in pg_hba.conf"
  else if m.1 = 0x53 ∨ m.1 = 0x4B ∨ m.1 = 0x4E then return .inl ()
  else if m.1 = 0x5A then return .inr ()
  else if m.1 = 0x45 then fail s!"server error: {parseError m.2}"
  else fail s!"unexpected message '{tagChar m.1}' during startup"

def awaitReady (password : Option String) : Wire Unit := messages (fun _ => awaitReadyTurn password) ()

/-- `connect`, behind the opening of the socket. -/
def connect (user : String) (extraParams : List (String × String)) (password : Option String) : Wire Unit := do
  sendStartup user true extraParams
  awaitReady password

/-- A turn of the loops that wait for one row. The two differ in whether a notice may come. -/
def rowTurn (what : String) (notices : Bool) (row : Option (List (Option String))) (m : WireMsg) :
    Wire (Option (List (Option String)) ⊕ Option (List (Option String))) :=
  if m.1 = 0x54 ∨ m.1 = 0x43 ∨ (notices = true ∧ m.1 = 0x4E) then return .inl row
  else if m.1 = 0x44 then do
    let fields ← lift (parseDataRow m.2)
    return .inl (some fields)
  else if m.1 = 0x5A then return .inr row
  else if m.1 = 0x45 then fail s!"{what} failed: {parseError m.2}"
  else fail s!"unexpected message '{tagChar m.1}' in {what}"

/-- `context` of an option. -/
def orBail {α : Type} (what : String) : Option α → Except Fault α
  | some a => .ok a
  | none => bail what

def systemOf (row : Option (List (Option String))) : Except Fault (Nat × Lsn) := do
  let row ← orBail "IDENTIFY_SYSTEM returned no row" row
  let tli ← orBail "missing timeline" (row[1]?.bind id)
  let tli ← fromStrRadix 10 32 tli
  let lsn ← orBail "missing xlogpos" (row[2]?.bind id)
  let lsn ← parseLsn lsn
  return (tli, lsn)

/-- The timeline and the flush position. -/
def identifySystem : Wire (Nat × Lsn) := do
  sendQuery "IDENTIFY_SYSTEM"
  let row ← messages (rowTurn "IDENTIFY_SYSTEM" false) none
  lift (systemOf row)

/-- Whether the slot was created, and the error of the server if there was another. -/
def createSlotTurn (s : Bool × Option String) (m : WireMsg) :
    Wire ((Bool × Option String) ⊕ (Bool × Option String)) :=
  if m.1 = 0x54 ∨ m.1 = 0x44 ∨ m.1 = 0x43 ∨ m.1 = 0x4E then return .inl s
  else if m.1 = 0x45 then
    let err := parseErrorFields m.2
    if err.1 = some "42710" then return .inl (false, s.2) else return .inl (s.1, some err.2)
  else if m.1 = 0x5A then return .inr s
  else fail s!"unexpected message '{tagChar m.1}' in CREATE_REPLICATION_SLOT"

def createSlot (name : String) : Wire Bool := do
  sendQuery s!"CREATE_REPLICATION_SLOT {name} PHYSICAL RESERVE_WAL"
  match ← messages createSlotTurn (true, none) with
  | (_, some e) => fail s!"CREATE_REPLICATION_SLOT failed: {e}"
  | (created, none) => return created

def slotRestartLsn (name : String) : Wire (Option Lsn) := do
  sendQuery s!"READ_REPLICATION_SLOT {name}"
  let row ← messages (rowTurn "READ_REPLICATION_SLOT" true) none
  match row.bind fun r => r[1]?.bind id with
  | some lsn =>
    let lsn ← lift (parseLsn lsn)
    return some lsn
  | none => return none

def copyBothTurn (m : WireMsg) : Wire (Unit ⊕ Unit) :=
  if m.1 = 0x57 then return .inr ()
  else if m.1 = 0x4E then return .inl ()
  else if m.1 = 0x45 then fail s!"START_REPLICATION failed: {parseError m.2}"
  else fail s!"unexpected message '{tagChar m.1}' starting replication"

def awaitCopyBoth : Wire Unit := messages (fun _ => copyBothTurn) ()

def startReplication (slot : String) (startLsn : Lsn) (timeline : Nat) : Wire Unit := do
  sendQuery s!"START_REPLICATION SLOT {slot} PHYSICAL {fmtLsn startLsn} TIMELINE {timeline}"
  awaitCopyBoth

def startReplicationSafekeeper (startLsn : Lsn) : Wire Unit := do
  sendQuery s!"START_REPLICATION PHYSICAL {fmtLsn startLsn}"
  awaitCopyBoth

/-! ## Attaching to the WAL -/

/-- What `main.rs` learns of a server before it opens the stream: where the slot retains WAL
from, the timeline and the flush position. -/
structure Attachment where
  slotRestart : Option Lsn
  timeline : Nat
  flushLsn : Lsn
  deriving DecidableEq, Repr

/-- The vanilla source: a slot keeps the WAL. -/
def attachPostgres (user slot : String) : Wire Attachment := do
  connect user [] none
  let _ ← createSlot slot
  let slotRestart ← slotRestartLsn slot
  let (timeline, flushLsn) ← identifySystem
  return { slotRestart, timeline, flushLsn }

/-- The parameters that tell a safekeeper what to stream. -/
def safekeeperParams (tenant timelineId : String) : List (String × String) :=
  [("options", s!"tenant_id={tenant} timeline_id={timelineId}"), ("application_name", "open-ltap")]

def attachSafekeeper (user tenant timelineId : String) (token : Option String) : Wire Attachment := do
  connect user (safekeeperParams tenant timelineId) token
  let (timeline, flushLsn) ← identifySystem
  return { slotRestart := none, timeline, flushLsn }

/-! ## The loop over the messages -/

namespace Wire

variable {α β σ : Type} {c : Conn}

@[simp] theorem pure_apply (a : α) : (pure a : Wire α) c = (.ok a, c) := rfl

@[simp] theorem lift_apply (r : Except Fault α) : lift r c = (r, c) := rfl

@[simp] theorem fail_apply (what : String) : (fail what : Wire α) c = (bail what, c) := rfl

theorem bind_apply (p : Wire α) (f : α → Wire β) :
    (p >>= f) c =
      match p c with
      | (.ok a, c) => f a c
      | (.error e, c) => (.error e, c) :=
  rfl

theorem bind_ok {p : Wire α} {a : α} {c' : Conn} (h : p c = (.ok a, c')) (f : α → Wire β) : (p >>= f) c = f a c' := by
  rw [bind_apply, h]

theorem readMsg_frame {f : WireFrame} {rest : Bytes} (h : c.incoming = f.bytes ++ rest) :
    readMsg c = (.ok f.msg, { c with incoming := rest }) := by
  have hpoll : pollMsg c.incoming = .ready f.msg rest := h ▸ f.readMsg_bytes rest
  simp only [readMsg, hpoll]

theorem readMsg_closed (h : c.incoming = []) : readMsg c = (bail "connection closed by server", c) := by
  rw [readMsg, h]
  rfl

theorem readMsg_ok {m : WireMsg} {c' : Conn} (h : readMsg c = (.ok m, c')) :
    ∃ rest, pollMsg c.incoming = .ready m rest ∧ c' = { c with incoming := rest } := by
  simp only [readMsg] at h
  split at h
  · cases h
    exact ⟨_, by assumption, rfl⟩
  · cases h
  · cases h

theorem readMsg_size {m : WireMsg} {c' : Conn} (h : readMsg c = (.ok m, c')) : c'.size < c.size := by
  obtain ⟨rest, hpoll, rfl⟩ := readMsg_ok h
  have hlen := (pollMsg_length hpoll).2
  simp only [Conn.size]
  omega

/-- An operation does not make the server send more than it would. -/
def Bounded (p : Wire α) : Prop := ∀ c, (p c).2.size ≤ c.size

theorem Bounded.pure (a : α) : Bounded (pure a) := fun _ => le_rfl

theorem Bounded.lift (r : Except Fault α) : Bounded (lift r) := fun _ => le_rfl

theorem Bounded.fail (what : String) : Bounded (fail what : Wire α) := fun _ => le_rfl

theorem Bounded.write (msg : Bytes) : Bounded (write msg) := by
  intro c
  cases hreplies : c.replies with
  | nil => simp [Wire.write, Conn.size, hreplies]
  | cons r rs =>
    simp only [Wire.write, Conn.size, hreplies, List.headD_cons, List.tail_cons, List.length_append, List.map_cons,
      List.sum_cons]
    omega

theorem Bounded.bind {p : Wire α} {f : α → Wire β} (hp : Bounded p) (hf : ∀ a, Bounded (f a)) : Bounded (p >>= f) := by
  intro c
  have hfirst := hp c
  rw [bind_apply]
  generalize p c = res at hfirst ⊢
  obtain ⟨_ | a, c'⟩ := res
  · exact hfirst
  · exact le_trans (hf a c') hfirst

theorem Bounded.ite {P : Prop} [Decidable P] {p q : Wire α} (hp : Bounded p) (hq : Bounded q) :
    Bounded (if P then p else q) := by
  split
  · exact hp
  · exact hq

variable {turn : σ → WireMsg → Wire (σ ⊕ α)}

theorem eachMsg_eq (hturn : ∀ s m, Bounded (turn s m)) {n k : Nat} {s : σ} {c : Conn} (hn : c.size < n)
    (hk : c.size < k) : eachMsg turn n s c = eachMsg turn k s c := by
  induction n generalizing s c k with
  | zero => omega
  | succ n ih =>
    obtain ⟨k, rfl⟩ : ∃ j, k = j + 1 := ⟨k - 1, by omega⟩
    simp only [eachMsg, bind_apply]
    cases hread : readMsg c with
    | mk r c₁ =>
      cases r with
      | error e => rfl
      | ok m =>
        have hlt := readMsg_size hread
        have hle := hturn s m c₁
        dsimp only
        generalize turn s m c₁ = res at hle ⊢
        obtain ⟨_ | next, c₂⟩ := res
        · rfl
        · cases next with
          | inl s' => exact ih (by dsimp only at hle; omega) (by dsimp only at hle; omega)
          | inr a => rfl

/-- One turn of the loop. -/
theorem messages_turn (hturn : ∀ s m, Bounded (turn s m)) (s : σ) {f : WireFrame} {rest : Bytes}
    (h : c.incoming = f.bytes ++ rest) :
    messages turn s c =
      match turn s f.msg { c with incoming := rest } with
      | (.ok (.inl s'), c') => messages turn s' c'
      | (.ok (.inr a), c') => (.ok a, c')
      | (.error e, c') => (.error e, c') := by
  have hread := readMsg_frame h
  have hlt := readMsg_size hread
  have hle := hturn s f.msg { c with incoming := rest }
  rw [messages, eachMsg, bind_apply, hread]
  dsimp only
  rw [bind_apply]
  generalize turn s f.msg { c with incoming := rest } = res at hle ⊢
  obtain ⟨_ | next, c'⟩ := res
  · rfl
  · cases next with
    | inl s' => exact eachMsg_eq hturn (by dsimp only at hle; omega) (Nat.lt_succ_self _)
    | inr a => rfl

/-- Frames that take the loop from one state to another. -/
inductive Passes (turn : σ → WireMsg → Wire (σ ⊕ α)) : σ → List WireFrame → σ → Prop where
  | nil (s : σ) : Passes turn s [] s
  | cons {s s' s'' : σ} {f : WireFrame} {fs : List WireFrame} :
    (∀ c, turn s f.msg c = (.ok (.inl s'), c)) → Passes turn s' fs s'' → Passes turn s (f :: fs) s''

theorem Passes.same {s : σ} {fs : List WireFrame} (h : ∀ f ∈ fs, ∀ c, turn s f.msg c = (.ok (.inl s), c)) :
    Passes turn s fs s := by
  induction fs with
  | nil => exact .nil s
  | cons f fs ih => exact .cons (h f List.mem_cons_self) (ih fun g hg => h g (List.mem_cons_of_mem f hg))

theorem Passes.append {s s' s'' : σ} {fs gs : List WireFrame} (h : Passes turn s fs s') (h' : Passes turn s' gs s'') :
    Passes turn s (fs ++ gs) s'' := by
  induction h with
  | nil => exact h'
  | cons hf _ ih => exact .cons hf (ih h')

/-- The loop over an answer. -/
theorem messages_passes (hturn : ∀ s m, Bounded (turn s m)) {s s' : σ} {fs : List WireFrame} {last : WireFrame} {a : α}
    (h : Passes turn s fs s') (hlast : ∀ c, turn s' last.msg c = (.ok (.inr a), c)) (rest : Bytes) {c : Conn}
    (hc : c.incoming = (fs ++ [last]).flatMap WireFrame.bytes ++ rest) :
    messages turn s c = (.ok a, { c with incoming := rest }) := by
  induction h generalizing c with
  | nil s =>
    rw [List.nil_append, List.flatMap_singleton] at hc
    rw [messages_turn hturn s hc, hlast]
  | cons hf _ ih =>
    rw [List.cons_append, List.flatMap_cons, List.append_assoc] at hc
    rw [messages_turn hturn _ hc, hf]
    exact ih hlast rfl

end Wire

end Ltap
