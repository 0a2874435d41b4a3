-- SUMMARY: Messages of the frontend protocol: framing, and the payloads of rows and errors (`pgwire.rs`).
import OpenLtap.Base.Incremental
import OpenLtap.CopyBinary

/-!
# Messages on the wire

A message is a tag, a length that counts itself, and a payload. The client takes messages off
its receive buffer and reads the socket only when the buffer holds no whole one. The fields of
a payload are read without a check: a payload that ends too early is a panic.
-/

namespace Ltap

open Incremental

/-- A message: its tag and its payload. -/
abbrev WireMsg := UInt8 × Bytes

/-! ## Framing -/

def pollMsg (buf : Bytes) : Poll UInt8 WireMsg Fault :=
  if buf.length < 5 then .pending buf
  else
    let len := fromBe ((buf.drop 1).take 4)
    if len < 4 then .failed (.error (.other "corrupt message length"))
    else if buf.length < 1 + len then .pending buf
    else .ready (buf.headD 0, (buf.drop 5).take (len - 4)) (buf.drop (1 + len))

section Poll

variable {bs rest : Bytes} {m : WireMsg}

theorem pollMsg_pending (h : pollMsg bs = .pending rest) : rest = bs := by
  simp only [pollMsg] at h
  split at h
  · cases h; rfl
  split at h
  · cases h
  split at h
  · cases h; rfl
  · cases h

theorem pollMsg_length (h : pollMsg bs = .ready m rest) : 5 ≤ bs.length ∧ rest.length + 5 ≤ bs.length := by
  simp only [pollMsg] at h
  split at h
  · cases h
  split at h
  · cases h
  split at h
  · cases h
  · cases h
    rw [List.length_drop]
    omega

/-- Once the length has arrived, more bytes behind do not change it. -/
theorem length_append (h : 5 ≤ bs.length) (more : Bytes) :
    ((bs ++ more).drop 1).take 4 = (bs.drop 1).take 4 := by
  rw [List.drop_append_of_le_length (by omega), List.take_append_of_le_length (by rw [List.length_drop]; omega)]

theorem pollMsg_ready_append (h : pollMsg bs = .ready m rest) (more : Bytes) :
    pollMsg (bs ++ more) = .ready m (rest ++ more) := by
  have hlen := (pollMsg_length h).1
  simp only [pollMsg] at h ⊢
  rw [length_append hlen more]
  generalize fromBe ((bs.drop 1).take 4) = len at h ⊢
  rw [if_neg (by omega)] at h
  rw [if_neg (by rw [List.length_append]; omega)]
  split at h
  · cases h
  rename_i hshort
  split at h
  · cases h
  rename_i hwhole
  rw [if_neg hshort, if_neg (by rw [List.length_append]; omega)]
  cases h
  obtain ⟨b, bs, rfl⟩ := List.exists_cons_of_length_pos (l := bs) (by omega)
  rw [List.drop_append_of_le_length (by omega), List.drop_append_of_le_length (by omega),
    List.take_append_of_le_length (by rw [List.length_drop]; omega)]
  rfl

theorem pollMsg_failed_append {e : Fault} (h : pollMsg bs = .failed e) (more : Bytes) :
    pollMsg (bs ++ more) = .failed e := by
  simp only [pollMsg] at h ⊢
  split at h
  · cases h
  rename_i hlen
  rw [length_append (by omega) more, if_neg (by rw [List.length_append]; omega)]
  split at h
  · rename_i hshort
    rw [if_pos hshort]
    exact h
  · split at h <;> cases h

end Poll

/-- `read_msg`, as a decoder of what the server sends. -/
def readMsg : Decoder UInt8 WireMsg Fault where
  poll := pollMsg
  resume h more := by rw [pollMsg_pending h]
  ready_append := pollMsg_ready_append
  failed_append := pollMsg_failed_append
  ready_lt h := by
    have hlen := pollMsg_length h
    omega

@[simp] theorem readMsg_nil : readMsg.poll [] = .pending [] := rfl

/-- The loop of `read_msg` over what the reads of the socket return. A read of no bytes is the
end of the connection. -/
def readMsgFrom : Bytes → List Bytes → Except Fault WireMsg × Bytes × List Bytes
  | buf, [] =>
    match pollMsg buf with
    | .ready m rest => (.ok m, rest, [])
    | .failed e => (.error e, buf, [])
    | .pending _ => (bail "connection closed by server", buf, [])
  | buf, chunk :: reads =>
    match pollMsg buf with
    | .ready m rest => (.ok m, rest, chunk :: reads)
    | .failed e => (.error e, buf, chunk :: reads)
    | .pending _ =>
      if chunk = [] then (bail "connection closed by server", buf, reads)
      else readMsgFrom (buf ++ chunk) reads

/-- The pieces in which the bytes come make no difference. -/
theorem readMsgFrom_eq {buf : Bytes} {reads : List Bytes} (hreads : [] ∉ reads) :
    match pollMsg (buf ++ reads.flatten) with
    | .ready m rest => ∃ buf' reads', readMsgFrom buf reads = (.ok m, buf', reads') ∧
        buf' ++ reads'.flatten = rest ∧ [] ∉ reads'
    | .failed e => (readMsgFrom buf reads).1 = .error e
    | .pending _ => (readMsgFrom buf reads).1 = bail "connection closed by server" := by
  induction reads generalizing buf with
  | nil =>
    rw [List.flatten_nil, List.append_nil]
    cases hpoll : pollMsg buf with
    | ready m rest => exact ⟨rest, [], by simp only [readMsgFrom, hpoll], by simp, by simp⟩
    | failed e => simp only [readMsgFrom, hpoll]
    | pending rest => simp only [readMsgFrom, hpoll]
  | cons chunk reads ih =>
    cases hpoll : pollMsg buf with
    | ready m rest =>
      rw [pollMsg_ready_append hpoll]
      exact ⟨rest, chunk :: reads, by simp only [readMsgFrom, hpoll], rfl, hreads⟩
    | failed e =>
      rw [pollMsg_failed_append hpoll]
      simp only [readMsgFrom, hpoll]
    | pending rest =>
      have hne : chunk ≠ [] := fun h => hreads (h ▸ List.mem_cons_self)
      rw [List.flatten_cons, ← List.append_assoc]
      simp only [readMsgFrom, hpoll, if_neg hne]
      exact ih fun h => hreads (List.mem_cons_of_mem _ h)

/-- A message as it is sent. -/
def wireMsg (tag : UInt8) (payload : Bytes) : Bytes := tag :: (toBe 4 (4 + payload.length) ++ payload)

/-- A message that fits its length field. -/
structure WireFrame where
  tag : UInt8
  payload : Bytes
  fits : payload.length + 4 < 2 ^ 32

namespace WireFrame

def bytes (f : WireFrame) : Bytes := wireMsg f.tag f.payload

def msg (f : WireFrame) : WireMsg := (f.tag, f.payload)

theorem readMsg_bytes (f : WireFrame) (more : Bytes) : readMsg.poll (f.bytes ++ more) = .ready f.msg more := by
  have hfits := f.fits
  have hlen : fromBe (toBe 4 (4 + f.payload.length)) = 4 + f.payload.length := fromBe_toBe (by omega)
  have hsize : (f.bytes ++ more).length = 5 + f.payload.length + more.length := by
    simp only [bytes, wireMsg, List.length_append, List.length_cons, toBe_length]
    omega
  have hread : ((f.bytes ++ more).drop 1).take 4 = toBe 4 (4 + f.payload.length) := by
    simp only [bytes, wireMsg, List.cons_append, List.drop_succ_cons, List.drop_zero, List.append_assoc]
    exact toBe_take _ _ _
  have hbody : (f.bytes ++ more).drop 5 = f.payload ++ more := by
    simp only [bytes, wireMsg, List.cons_append, List.drop_succ_cons, List.append_assoc]
    exact toBe_drop _ _ _
  simp only [readMsg, pollMsg]
  rw [if_neg (by omega), hread, hlen, if_neg (by omega), if_neg (by omega), hbody,
    List.take_append_of_le_length (by omega), List.take_of_length_le (by omega),
    show 1 + (4 + f.payload.length) = 5 + f.payload.length by omega, ← List.drop_drop, hbody, List.drop_left]
  rfl

end WireFrame

/-! ## Reading a payload -/

/-- `get_u8`, `get_u16`, `get_u32` and `get_u64`. -/
def getUint (n : Nat) (payload : Bytes) : Except Fault (Nat × Bytes) :=
  if payload.length < n then .error .panic else .ok (fromBe (payload.take n), payload.drop n)

theorem getUint_append {n v : Nat} (h : v < 256 ^ n) (rest : Bytes) : getUint n (toBe n v ++ rest) = .ok (v, rest) := by
  rw [getUint, if_neg (not_toBe_lt n v rest), toBe_take, toBe_drop, fromBe_toBe h]

/-- The bytes of a field, and what follows it. -/
def splitTo (n : Nat) (payload : Bytes) : Except Fault (Bytes × Bytes) :=
  if payload.length < n then .error .panic else .ok (payload.take n, payload.drop n)

def dataRowFields : Nat → Bytes → Except Fault (List (Option String))
  | 0, _ => .ok []
  | n + 1, payload => do
    let (len, payload) ← getUint 4 payload
    if fromTwos 32 len < 0 then
      let fields ← dataRowFields n payload
      return none :: fields
    else
      let (bytes, payload) ← splitTo len payload
      let fields ← dataRowFields n payload
      return some (Utf8.lossy bytes) :: fields

def parseDataRow (payload : Bytes) : Except Fault (List (Option String)) := do
  let (n, payload) ← getUint 2 payload
  dataRowFields n payload

/-- One field of an error response. -/
def errorField (acc : Option String × String) (field : UInt8) (val : String) : Option String × String :=
  if field = 0x4D ∨ field = 0x53 then (acc.1, (if acc.2 = "" then acc.2 else acc.2 ++ ": ") ++ val)
  else if field = 0x43 then (some val, acc.2)
  else acc

/-- The fields up to a zero where a field would begin. Each takes at least a byte, so the
number of bytes bounds the turns. -/
def errorFields : Nat → Bytes → Option String × String → Option String × String
  | 0, _, acc => acc
  | _ + 1, [], acc => acc
  | fuel + 1, field :: rest, acc =>
    if field = 0 then acc
    else
      let val := Utf8.lossy (rest.takeWhile (· ≠ 0))
      errorFields fuel ((rest.dropWhile (· ≠ 0)).drop 1) (errorField acc field val)

/-- The SQLSTATE and the message of an error response. -/
def parseErrorFields (payload : Bytes) : Option String × String :=
  let (code, msg) := errorFields payload.length payload (none, "")
  (code, if msg = "" then "unknown error" else msg)

def parseError (payload : Bytes) : String := (parseErrorFields payload).2

/-- `tag as char`. -/
def tagChar (tag : UInt8) : Char := Char.ofNat tag.toNat

end Ltap
