-- SUMMARY: What is documented of a server of the replication protocol: which messages it takes, and how it answers.
import OpenLtap.Wire.Rows
import OpenLtap.Wire.Startup

/-!
# The server

The server is not part of the program. It is a parameter: how a session of it takes a message,
and what can be observed of a session. What the protocol documents of it are hypotheses, one
for each message that the client sends.
-/

namespace Ltap

open Incremental Wire

/-! ## Messages -/

/-- A startup packet of protocol 3.0. The empty name would end the parameters. -/
def StartupPacket (params : List (String × String)) (msg : Bytes) : Prop :=
  msg.length < 2 ^ 32 ∧ (∀ p ∈ params, p.1 ≠ "" ∧ 0 ∉ Utf8.encode p.1 ∧ 0 ∉ Utf8.encode p.2) ∧
    msg = toBe 4 msg.length ++ (toBe 4 196608 ++
      ((params.flatMap fun p => (Utf8.encode p.1 ++ [0]) ++ (Utf8.encode p.2 ++ [0])) ++ [0]))

/-- A message that carries a text, ended by a zero. -/
def TextMessage (tag : UInt8) (text : String) (msg : Bytes) : Prop :=
  0 ∉ Utf8.encode text ∧ 4 + (Utf8.encode text).length + 1 < 2 ^ 32 ∧
    msg = tag :: (toBe 4 (4 + (Utf8.encode text).length + 1) ++ (Utf8.encode text ++ [0]))

/-- Lower-case letters, digits and underscores, with no digit in front. -/
structure SlotName (name : String) : Prop where
  chars : ∀ c ∈ name.toList, c.isLower ∨ c.isDigit ∨ c = '_'
  head : ∀ c ∈ name.toList.head?, ¬ c.isDigit
  short : name.length ≤ 63

/-! ## Answers -/

namespace WireFrame

def authOk : WireFrame := { tag := 0x52, payload := toBe 4 0, fits := by decide }

def cleartextPassword : WireFrame := { tag := 0x52, payload := toBe 4 3, fits := by decide }

def ready : WireFrame := { tag := 0x5A, payload := [0x49], fits := by decide }

def copyBoth : WireFrame := { tag := 0x57, payload := [0, 0, 0], fits := by decide }

end WireFrame

/-- Notices may stand in front of an answer. -/
def Notices (fs : List WireFrame) : Prop := ∀ f ∈ fs, f.tag = 0x4E

/-- Parameters, key data and notices behind the authentication. -/
def Greeting (fs : List WireFrame) : Prop := ∀ f ∈ fs, f.tag = 0x53 ∨ f.tag = 0x4B ∨ f.tag = 0x4E

/-- A row with its description in front and its completion behind. -/
structure RowAnswer (fields : List (Option String)) where
  description : WireFrame
  row : WireFrame
  complete : WireFrame
  description_tag : description.tag = 0x54
  row_tag : row.tag = 0x44
  row_payload : row.payload = dataRow fields
  fields_short : ∀ s, some s ∈ fields → (Utf8.encode s).length < 2 ^ 31
  complete_tag : complete.tag = 0x43

def RowAnswer.frames {fields : List (Option String)} (r : RowAnswer fields) : List WireFrame :=
  [r.description, r.row, r.complete]

/-- An error with this `SQLSTATE`. -/
structure ErrorAnswer (code : String) where
  frame : WireFrame
  fields : List (UInt8 × String)
  tag : frame.tag = 0x45
  payload : frame.payload = errorResponse fields
  fields_terminated : ∀ f ∈ fields, f.1 ≠ 0 ∧ 0 ∉ Utf8.encode f.2
  code_only : fields.filter (·.1 = 0x43) = [(0x43, code)]

/-! ## Sessions -/

/-- How far a session has come. -/
inductive Phase where
  | fresh
  | challenged (params : List (String × String))
  | idle (params : List (String × String))
  | streaming (params : List (String × String)) (slot : Option String) (start : Nat) (timeline : Option Nat)
  deriving DecidableEq, Repr

/-- A server, by the states `σ` of its sessions. -/
structure PgServer (σ : Type) where
  /-- The answer to a message of the client. -/
  react : σ → Bytes → σ × List WireFrame
  phase : σ → Phase
  /-- The slots, and from where each retains WAL if it does. -/
  slots : σ → String → Option (Option (Fin (2 ^ 64)))
  timeline : σ → Fin (2 ^ 32)
  flushLsn : σ → Fin (2 ^ 64)
  /-- The password it asks for, if it asks for one. -/
  password : Option String

namespace PgServer

variable {σ : Type} (srv : PgServer σ)

/-- Answer some messages in turn. -/
def serve : σ → List Bytes → σ × List Bytes
  | s, [] => (s, [])
  | s, msg :: msgs =>
    let (s, fs) := srv.react s msg
    let (s, replies) := serve s msgs
    (s, fs.flatMap WireFrame.bytes :: replies)

/-- A message is answered with these frames. The session goes on in this phase, and `name` stays as it was
among the slots. -/
structure Answers (name : String) (s : σ) (msg : Bytes) (p : Phase) (s' : σ) (fs : List WireFrame) : Prop where
  react : srv.react s msg = (s', fs)
  phase : srv.phase s' = p
  slot : srv.slots s' name = srv.slots s name

/-- What is documented of logging in with these parameters. -/
structure LogsIn (params : List (String × String)) : Prop where
  trusted : ∀ {s msg}, srv.phase s = .fresh → StartupPacket params msg → srv.password = none →
    ∃ s' greeting, Greeting greeting ∧
      ∀ name, srv.Answers name s msg (.idle params) s' (.authOk :: (greeting ++ [.ready]))
  asked : ∀ {s msg}, srv.phase s = .fresh → StartupPacket params msg → srv.password.isSome →
    ∃ s', ∀ name, srv.Answers name s msg (.challenged params) s' [.cleartextPassword]
  admitted : ∀ {s msg pw}, srv.phase s = .challenged params → srv.password = some pw → TextMessage 0x70 pw msg →
    ∃ s' greeting, Greeting greeting ∧
      ∀ name, srv.Answers name s msg (.idle params) s' (.authOk :: (greeting ++ [.ready]))

/-- What is documented of `IDENTIFY_SYSTEM`: the row has the timeline and the flush position. -/
def Identifies (params : List (String × String)) : Prop :=
  ∀ {s msg}, srv.phase s = .idle params → TextMessage 0x51 "IDENTIFY_SYSTEM" msg →
    ∃ s' systemid db, ∃ r : RowAnswer [some systemid, some (srv.timeline s').val.repr,
        some (fmtLsn (srv.flushLsn s').val), db],
      ∀ name, srv.Answers name s msg (.idle params) s' (r.frames ++ [.ready])

/-- What is documented of the commands for a physical slot. -/
structure KeepsSlot (params : List (String × String)) (name : String) : Prop where
  creates : ∀ {s msg}, srv.phase s = .idle params → srv.slots s name = none →
    TextMessage 0x51 s!"CREATE_REPLICATION_SLOT {name} PHYSICAL RESERVE_WAL" msg →
    ∃ s' notices fields, ∃ r : RowAnswer fields, Notices notices ∧
      srv.react s msg = (s', notices ++ (r.frames ++ [.ready])) ∧ srv.phase s' = .idle params ∧ (srv.slots s' name).isSome
  /-- `duplicate_object`. -/
  refuses : ∀ {s msg}, srv.phase s = .idle params → (srv.slots s name).isSome →
    TextMessage 0x51 s!"CREATE_REPLICATION_SLOT {name} PHYSICAL RESERVE_WAL" msg →
    ∃ s' notices, ∃ e : ErrorAnswer "42710", Notices notices ∧
      srv.Answers name s msg (.idle params) s' (notices ++ [e.frame, .ready])
  /-- The row has the position from which the slot retains WAL, or a null. -/
  reads : ∀ {s msg}, srv.phase s = .idle params → TextMessage 0x51 s!"READ_REPLICATION_SLOT {name}" msg →
    ∃ s' notices kind timeline, ∃ r : RowAnswer [kind, ((srv.slots s name).bind id).map fun lsn => fmtLsn lsn.val, timeline],
      Notices notices ∧ srv.Answers name s msg (.idle params) s' (notices ++ (r.frames ++ [.ready]))
  starts : ∀ {s msg} {start : Fin (2 ^ 64)}, srv.phase s = .idle params → (srv.slots s name).isSome →
    TextMessage 0x51 s!"START_REPLICATION SLOT {name} PHYSICAL {fmtLsn start.val} TIMELINE {(srv.timeline s).val}" msg →
    ∃ s' notices, Notices notices ∧ srv.Answers name s msg
      (.streaming params (some name) start.val (some (srv.timeline s).val)) s' (notices ++ [.copyBoth])

/-- What is documented of streaming without a slot, from the server's own timeline. -/
def Streams (params : List (String × String)) : Prop :=
  ∀ {s msg} {start : Fin (2 ^ 64)}, srv.phase s = .idle params →
    TextMessage 0x51 s!"START_REPLICATION PHYSICAL {fmtLsn start.val}" msg →
    ∃ s' notices, Notices notices ∧
      ∀ name, srv.Answers name s msg (.streaming params none start.val none) s' (notices ++ [.copyBoth])

/-! ### Turns -/

variable {srv} {s s' s'' : σ}

theorem serve_cons {msg : Bytes} {msgs : List Bytes} {fs : List WireFrame} {replies : List Bytes}
    (h : srv.react s msg = (s', fs)) (hs : srv.serve s' msgs = (s'', replies)) :
    srv.serve s (msg :: msgs) = (s'', fs.flatMap WireFrame.bytes :: replies) := by
  rw [serve, h]
  simp only [hs]

theorem serve_fst {msgs replies : List Bytes} (h : srv.serve s msgs = (s', replies)) :
    srv.serve s msgs = ((srv.serve s msgs).1, replies) := by
  rw [h]

theorem serve_append {msgs msgs' : List Bytes} {replies replies' : List Bytes}
    (h : srv.serve s msgs = (s', replies)) (h' : srv.serve s' msgs' = (s'', replies')) :
    srv.serve s (msgs ++ msgs') = (s'', replies ++ replies') := by
  induction msgs generalizing s replies with
  | nil =>
    cases h
    exact h'
  | cons msg msgs ih =>
    simp only [serve] at h
    cases h
    exact serve_cons rfl (ih rfl)

end PgServer

end Ltap
