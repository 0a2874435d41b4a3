-- SUMMARY: Pages over the wire: the requests of the pagestream, and that answers are matched (`pgwire.rs`).
import OpenLtap.Wire.Commands
import OpenLtap.Wire.Rows

/-!
# The pagestream

A request carries a number and the answer repeats it, with the fields of the request. The client
writes a request and takes the next answer off the stream; one with another number is an
error.
-/

namespace Ltap

open Incremental Wire

/-- `pgwire::RelTag`: a fork of a relation, as the pageserver addresses its pages. -/
structure ForkTag where
  spcnode : Oid
  dbnode : Oid
  relnode : Oid
  forknum : UInt8
  deriving DecidableEq, Repr

structure ForkTag.Fits (rel : ForkTag) : Prop where
  spcnode : rel.spcnode < 2 ^ 32
  dbnode : rel.dbnode < 2 ^ 32
  relnode : rel.relnode < 2 ^ 32

/-! ## Requests -/

def putReltag (rel : ForkTag) : Bytes :=
  toBe 4 rel.spcnode ++ (toBe 4 rel.dbnode ++ (toBe 4 rel.relnode ++ [rel.forknum]))

def pagestreamHdr (tag : UInt8) (lsn : Lsn) : Wire Bytes := fun c =>
  let reqid := (c.reqid + 1) % 2 ^ 64
  (.ok (tag :: (toBe 8 reqid ++ (toBe 8 lsn ++ toBe 8 lsn))), { c with reqid })

/-- `self.reqid`. -/
def currentReqid : Wire Nat := fun c => (.ok c.reqid, c)

/-- `advance`. -/
def advance (n : Nat) (payload : Bytes) : Except Fault Bytes :=
  if payload.length < n then .error .panic else .ok (payload.drop n)

def pagestreamTurn (what : String) (m : WireMsg) : Wire (Unit ⊕ Bytes) :=
  if m.1 = 0x64 then return .inr m.2
  else if m.1 = 0x4E then return .inl ()
  else if m.1 = 0x45 then fail s!"{what} failed: {parseError m.2}"
  else if m.1 = 0x63 ∨ m.1 = 0x5A then fail "server ended the pagestream"
  else fail s!"unexpected message '{tagChar m.1}' in pagestream"

/-- What stands behind the number in an answer to the current request. -/
def matchResponse (wantTag : UInt8) (what : String) (reqid : Nat) (resp : Bytes) : Except Fault Bytes :=
  if resp.length < 25 then bail s!"{what}: truncated pagestream response ({resp.length} bytes)"
  else do
    let tag := resp.headD 0
    let (gotReqid, resp) ← getUint 8 (resp.drop 1)
    if tag = 103 then do
      let resp ← advance 16 resp
      bail s!"{what}: pageserver error: {Utf8.lossy (resp.takeWhile (· ≠ 0))}"
    else if tag ≠ wantTag then bail s!"{what}: unexpected pagestream response tag {tag}"
    else if gotReqid ≠ reqid then bail s!"{what}: response for reqid {gotReqid}, want {reqid}"
    else return resp

def pagestreamRoundtrip (req : Bytes) (wantTag : UInt8) (what : String) : Wire Bytes := do
  write (wireMsg 0x64 req)
  let resp ← messages (fun _ => pagestreamTurn what) ()
  let reqid ← currentReqid
  lift (matchResponse wantTag what reqid resp)

def getPage (rel : ForkTag) (blkno : Nat) (lsn : Lsn) : Wire Bytes := do
  let hdr ← pagestreamHdr 2 lsn
  let resp ← pagestreamRoundtrip (hdr ++ (putReltag rel ++ toBe 4 blkno)) 102 "GetPage"
  let resp ← lift (advance 33 resp)
  if resp.length ≠ 8192 then fail s!"GetPage returned {resp.length} bytes, want 8192" else return resp

def relNblocks (rel : ForkTag) (lsn : Lsn) : Wire Nat := do
  let hdr ← pagestreamHdr 1 lsn
  let resp ← pagestreamRoundtrip (hdr ++ putReltag rel) 101 "Nblocks"
  let resp ← lift (advance 29 resp)
  let (n, _) ← lift (getUint 4 resp)
  return n

def relExists (rel : ForkTag) (lsn : Lsn) : Wire Bool := do
  let hdr ← pagestreamHdr 0 lsn
  let resp ← pagestreamRoundtrip (hdr ++ putReltag rel) 100 "Exists"
  let resp ← lift (advance 29 resp)
  let (b, _) ← lift (getUint 1 resp)
  return b ≠ 0

/-- `connect_pageserver`, behind the opening of the socket. -/
def connectPageserver (user tenant timeline : String) (password : Option String) : Wire Unit := do
  sendStartup user false []
  awaitReady password
  sendQuery s!"pagestream_v3 {tenant} {timeline}"
  context "entering pagestream" awaitCopyBoth

/-! ## The three requests as one -/

inductive PageCall where
  | exists_ (rel : ForkTag) (lsn : Nat)
  | nblocks (rel : ForkTag) (lsn : Nat)
  | page (rel : ForkTag) (blkno lsn : Nat)
  deriving DecidableEq, Repr

inductive PageResult where
  | exists_ (b : Bool)
  | nblocks (n : Nat)
  | page (p : Bytes)
  deriving DecidableEq, Repr

namespace PageCall

def run : PageCall → Wire PageResult
  | .exists_ rel lsn => do return .exists_ (← relExists rel lsn)
  | .nblocks rel lsn => do return .nblocks (← relNblocks rel lsn)
  | .page rel blkno lsn => do return .page (← getPage rel blkno lsn)

def tag : PageCall → UInt8
  | .exists_ .. => 0
  | .nblocks .. => 1
  | .page .. => 2

def wantTag : PageCall → UInt8
  | .exists_ .. => 100
  | .nblocks .. => 101
  | .page .. => 102

def lsn : PageCall → Nat
  | .exists_ _ lsn | .nblocks _ lsn | .page _ _ lsn => lsn

def fields : PageCall → Bytes
  | .exists_ rel _ | .nblocks rel _ => putReltag rel
  | .page rel blkno _ => putReltag rel ++ toBe 4 blkno

def request (call : PageCall) (reqid : Nat) : Bytes :=
  (call.tag :: (toBe 8 reqid ++ (toBe 8 call.lsn ++ toBe 8 call.lsn))) ++ call.fields

def what : PageCall → String
  | .exists_ .. => "Exists"
  | .nblocks .. => "Nblocks"
  | .page .. => "GetPage"

/-- What is read behind the number. -/
def read : PageCall → Bytes → Except Fault PageResult
  | .exists_ .., resp => do
    let resp ← advance 29 resp
    let (b, _) ← getUint 1 resp
    return .exists_ (b ≠ 0)
  | .nblocks .., resp => do
    let resp ← advance 29 resp
    let (n, _) ← getUint 4 resp
    return .nblocks n
  | .page .., resp => do
    let resp ← advance 33 resp
    if resp.length ≠ 8192 then bail s!"GetPage returned {resp.length} bytes, want 8192" else return .page resp

theorem run_eq (call : PageCall) (c : Conn) :
    call.run c = (do
      let resp ← pagestreamRoundtrip (call.request ((c.reqid + 1) % 2 ^ 64)) call.wantTag call.what
      lift (call.read resp)) { c with reqid := (c.reqid + 1) % 2 ^ 64 } := by
  cases call with
  | exists_ rel lsn =>
    simp only [run, relExists, bind_apply, pagestreamHdr, request, fields, tag, wantTag, what, PageCall.lsn]
    generalize pagestreamRoundtrip _ _ _ _ = res
    obtain ⟨_ | resp, c'⟩ := res
    · rfl
    · simp only [read, lift_apply]
      rcases advance 29 resp with _ | resp
      · rfl
      · simp only [bind, Except.bind]
        rcases getUint 1 resp with _ | ⟨b, resp⟩ <;> rfl
  | nblocks rel lsn =>
    simp only [run, relNblocks, bind_apply, pagestreamHdr, request, fields, tag, wantTag, what, PageCall.lsn]
    generalize pagestreamRoundtrip _ _ _ _ = res
    obtain ⟨_ | resp, c'⟩ := res
    · rfl
    · simp only [read, lift_apply]
      rcases advance 29 resp with _ | resp
      · rfl
      · simp only [bind, Except.bind]
        rcases getUint 4 resp with _ | ⟨n, resp⟩ <;> rfl
  | page rel blkno lsn =>
    simp only [run, Ltap.getPage, bind_apply, pagestreamHdr, request, fields, tag, wantTag, what, PageCall.lsn]
    generalize pagestreamRoundtrip _ _ _ _ = res
    obtain ⟨_ | resp, c'⟩ := res
    · rfl
    · simp only [read, lift_apply]
      rcases advance 33 resp with _ | resp
      · rfl
      · simp only [bind, Except.bind]
        by_cases hlen : resp.length = 8192
        · rw [if_neg (not_not.mpr hlen), if_neg (not_not.mpr hlen)]
          rfl
        · rw [if_pos hlen, if_pos hlen]
          rfl

/-- The numbers of the call fit their fields. -/
def Fits : PageCall → Prop
  | .exists_ rel lsn | .nblocks rel lsn => rel.Fits ∧ lsn < 2 ^ 64
  | .page rel blkno lsn => rel.Fits ∧ blkno < 2 ^ 32 ∧ lsn < 2 ^ 64

end PageCall

/-- Some calls in turn, each whatever the ones before came to. -/
def runCalls : List PageCall → Conn → List (Except Fault PageResult) × Conn
  | [], c => ([], c)
  | call :: calls, c =>
    let (r, c) := call.run c
    let (rs, c) := runCalls calls c
    (r :: rs, c)

/-! ## A pageserver -/

/-- The text of an error: it ends at the first zero, and the message has to fit. -/
structure PsError where
  text : String
  nul : 0 ∉ Utf8.encode text
  short : text.length ≤ 2 ^ 20

/-- What a pageserver holds, as of every position. -/
structure Pageserver where
  relExists : ForkTag → Nat → Except PsError Bool
  relNblocks : ForkTag → Nat → Except PsError (Fin (2 ^ 32))
  page : ForkTag → Nat → Nat → Except PsError {p : Bytes // p.length = 8192}

namespace Pageserver

variable (ps : Pageserver)

def readReltag (b : Bytes) : ForkTag where
  spcnode := fromBe (b.take 4)
  dbnode := fromBe ((b.drop 4).take 4)
  relnode := fromBe ((b.drop 8).take 4)
  forknum := (b.drop 12).headD 0

/-- The data of an answer, for a request with these fields. -/
def payload (tag : UInt8) (lsn : Nat) (fields : Bytes) : Except PsError Bytes :=
  let rel := readReltag fields
  if tag = 0 then (ps.relExists rel lsn).map fun b => [if b then 1 else 0]
  else if tag = 1 then (ps.relNblocks rel lsn).map fun n => toBe 4 n.val
  else (ps.page rel (fromBe ((fields.drop 13).take 4)) lsn).map (·.val)

/-- The answer to a request, which is read off its bytes. -/
def respond (req : Bytes) : Bytes :=
  let echo := req.drop 1
  match ps.payload (req.headD 0) (fromBe ((req.drop 9).take 8)) (req.drop 25) with
  | .ok data => (req.headD 0 + 100) :: (echo ++ data)
  | .error e => 103 :: (echo.take 24 ++ (Utf8.encode e.text ++ [0]))

/-- What a call should give. -/
def answer : PageCall → Except Fault PageResult
  | .exists_ rel lsn =>
    match ps.relExists rel lsn with
    | .ok b => .ok (.exists_ b)
    | .error e => bail s!"Exists: pageserver error: {e.text}"
  | .nblocks rel lsn =>
    match ps.relNblocks rel lsn with
    | .ok n => .ok (.nblocks n.val)
    | .error e => bail s!"Nblocks: pageserver error: {e.text}"
  | .page rel blkno lsn =>
    match ps.page rel blkno lsn with
    | .ok p => .ok (.page p.val)
    | .error e => bail s!"GetPage: pageserver error: {e.text}"

end Pageserver

/-! ## One answer -/

section Answer

variable {call : PageCall} {reqid : Nat}

theorem readReltag_putReltag {rel : ForkTag} (h : rel.Fits) (rest : Bytes) :
    Pageserver.readReltag (putReltag rel ++ rest) = rel := by
  have hspc : fromBe ((putReltag rel ++ rest).take 4) = rel.spcnode := by
    rw [putReltag, List.append_assoc, toBe_take, fromBe_toBe h.spcnode]
  have hdb : fromBe (((putReltag rel ++ rest).drop 4).take 4) = rel.dbnode := by
    rw [putReltag, List.append_assoc, toBe_drop, List.append_assoc, toBe_take, fromBe_toBe h.dbnode]
  have hrel : fromBe (((putReltag rel ++ rest).drop 8).take 4) = rel.relnode := by
    rw [show 8 = 4 + 4 by rfl, ← List.drop_drop, putReltag, List.append_assoc, toBe_drop, List.append_assoc, toBe_drop,
      List.append_assoc, toBe_take, fromBe_toBe h.relnode]
  have hfork : ((putReltag rel ++ rest).drop 12).headD 0 = rel.forknum := by
    rw [show 12 = 4 + (4 + 4) by rfl, ← List.drop_drop, ← List.drop_drop, putReltag, List.append_assoc, toBe_drop,
      List.append_assoc, toBe_drop, List.append_assoc, toBe_drop]
    rfl
  rw [Pageserver.readReltag, hspc, hdb, hrel, hfork]

@[simp] theorem putReltag_length (rel : ForkTag) : (putReltag rel).length = 13 := by
  simp [putReltag, toBe_length]

theorem advance_append {n : Nat} {skipped : Bytes} (h : skipped.length = n) (rest : Bytes) :
    advance n (skipped ++ rest) = .ok rest := by
  rw [advance, if_neg (by rw [List.length_append]; omega), List.drop_left' h]

theorem matchResponse_data {tag wantTag : UInt8} {what : String} {k : Nat} {rest : Bytes} (htag : tag ≠ 103)
    (hk : k < 2 ^ 64) (hlen : 16 ≤ rest.length) :
    matchResponse wantTag what reqid (tag :: (toBe 8 k ++ rest)) =
      if tag ≠ wantTag then bail s!"{what}: unexpected pagestream response tag {tag}"
      else if k ≠ reqid then bail s!"{what}: response for reqid {k}, want {reqid}"
      else .ok rest := by
  have hlong : ¬ (tag :: (toBe 8 k ++ rest)).length < 25 := by
    rw [List.length_cons, List.length_append, toBe_length]
    omega
  have hread : getUint 8 (toBe 8 k ++ rest) = .ok (k, rest) := getUint_append hk rest
  rw [matchResponse, if_neg hlong]
  simp only [List.drop_succ_cons, List.drop_zero, hread, bind, Except.bind]
  exact if_neg htag

theorem matchResponse_error {wantTag : UInt8} {what text : String} {k : Nat} {lsns : Bytes} (hk : k < 2 ^ 64)
    (hlsns : lsns.length = 16) (htext : 0 ∉ Utf8.encode text) :
    matchResponse wantTag what reqid (103 :: (toBe 8 k ++ (lsns ++ (Utf8.encode text ++ [0])))) =
      bail s!"{what}: pageserver error: {text}" := by
  have hlong : ¬ (103 :: (toBe 8 k ++ (lsns ++ (Utf8.encode text ++ [0])))).length < 25 := by
    simp only [List.length_cons, List.length_append, toBe_length]
    omega
  have hread : getUint 8 (toBe 8 k ++ (lsns ++ (Utf8.encode text ++ [0]))) =
      .ok (k, lsns ++ (Utf8.encode text ++ [0])) := getUint_append hk _
  rw [matchResponse, if_neg hlong]
  simp only [List.drop_succ_cons, List.drop_zero, hread, bind, Except.bind, List.headD_cons, if_pos,
    advance_append hlsns, takeWhile_cstring htext, Utf8.lossy_encode]

namespace PageCall

theorem request_lsn (h : call.lsn < 2 ^ 64) : fromBe (((call.request reqid).drop 9).take 8) = call.lsn := by
  rw [request, List.cons_append, List.drop_succ_cons, List.append_assoc, toBe_drop, List.append_assoc, toBe_take,
    fromBe_toBe h]

theorem request_fields (call : PageCall) (reqid : Nat) : (call.request reqid).drop 25 = call.fields := by
  rw [request, List.cons_append, List.drop_succ_cons, show 24 = 8 + (8 + 8) by rfl, ← List.drop_drop, ← List.drop_drop,
    List.append_assoc, toBe_drop, List.append_assoc, toBe_drop, toBe_drop]

theorem request_drop (call : PageCall) (reqid : Nat) :
    (call.request reqid).drop 1 = toBe 8 reqid ++ (toBe 8 call.lsn ++ (toBe 8 call.lsn ++ call.fields)) := by
  simp [request]

theorem fits_lsn (h : call.Fits) : call.lsn < 2 ^ 64 := by
  cases call with
  | exists_ => exact h.2
  | nblocks => exact h.2
  | page => exact h.2.2

theorem respond_request (ps : Pageserver) (h : call.Fits) (reqid : Nat) :
    ps.respond (call.request reqid) =
      match ps.payload call.tag call.lsn call.fields with
      | .ok data =>
        call.wantTag :: (toBe 8 reqid ++ (toBe 8 call.lsn ++ (toBe 8 call.lsn ++ call.fields) ++ data))
      | .error e =>
        103 :: (toBe 8 reqid ++ (toBe 8 call.lsn ++ toBe 8 call.lsn ++ (Utf8.encode e.text ++ [0]))) := by
  have htag : (call.request reqid).headD 0 = call.tag := rfl
  have hwant : call.tag + 100 = call.wantTag := by cases call <;> rfl
  have hecho : (toBe 8 reqid ++ (toBe 8 call.lsn ++ (toBe 8 call.lsn ++ call.fields))).take 24 =
      toBe 8 reqid ++ (toBe 8 call.lsn ++ toBe 8 call.lsn) := by
    rw [← List.append_assoc (toBe 8 call.lsn), ← List.append_assoc (toBe 8 reqid)]
    exact List.take_left' (by simp [toBe_length])
  simp only [Pageserver.respond, htag, request_lsn (fits_lsn h), request_fields, request_drop, hwant]
  split
  · rw [List.append_assoc]
  · rw [hecho]
    simp only [List.append_assoc]

theorem payload_read (ps : Pageserver) (h : call.Fits) :
    (match ps.payload call.tag call.lsn call.fields with
      | .ok data => call.read (toBe 8 call.lsn ++ (toBe 8 call.lsn ++ call.fields) ++ data)
      | .error e => bail s!"{call.what}: pageserver error: {e.text}") = ps.answer call := by
  cases call with
  | exists_ rel lsn =>
    have hrel := readReltag_putReltag h.1 []
    rw [List.append_nil] at hrel
    simp only [Pageserver.payload, tag, PageCall.lsn, fields, hrel, if_pos, Pageserver.answer, what]
    cases ps.relExists rel lsn with
    | error e => rfl
    | ok b =>
      simp only [Except.map, read, advance_append (show
        (toBe 8 lsn ++ (toBe 8 lsn ++ putReltag rel)).length = 29 by simp [toBe_length])]
      cases b <;> rfl
  | nblocks rel lsn =>
    have hrel := readReltag_putReltag h.1 []
    rw [List.append_nil] at hrel
    simp only [Pageserver.payload, tag, PageCall.lsn, fields, hrel, Pageserver.answer, what]
    cases ps.relNblocks rel lsn with
    | error e => rfl
    | ok n =>
      have hread := getUint_append (n := 4) n.isLt []
      rw [List.append_nil] at hread
      simp only [Except.map, read, advance_append (show
        (toBe 8 lsn ++ (toBe 8 lsn ++ putReltag rel)).length = 29 by simp [toBe_length])]
      simp [hread, bind, Except.bind]
      rfl
  | page rel blkno lsn =>
    have hblkno : fromBe (((putReltag rel ++ toBe 4 blkno).drop 13).take 4) = blkno := by
      rw [List.drop_left' (putReltag_length rel), List.take_of_length_le (by rw [toBe_length]), fromBe_toBe h.2.1]
    simp only [Pageserver.payload, tag, PageCall.lsn, fields, readReltag_putReltag h.1, hblkno, Pageserver.answer, what]
    cases ps.page rel blkno lsn with
    | error e => rfl
    | ok p =>
      simp only [Except.map, read, advance_append (show
        (toBe 8 lsn ++ (toBe 8 lsn ++ (putReltag rel ++ toBe 4 blkno))).length = 33 by simp [toBe_length])]
      simp [p.property, bind, Except.bind]
      rfl

theorem wantTag_ne (call : PageCall) : call.wantTag ≠ 103 := by
  cases call <;> simp [wantTag]

/-- The answer to a call's own request. -/
theorem match_own (ps : Pageserver) (h : call.Fits) (hreqid : reqid < 2 ^ 64) :
    (matchResponse call.wantTag call.what reqid (ps.respond (call.request reqid)) >>= call.read) = ps.answer call := by
  have htag := call.wantTag_ne
  rw [respond_request ps h, ← payload_read ps h]
  cases ps.payload call.tag call.lsn call.fields with
  | ok data =>
    dsimp only
    rw [matchResponse_data htag hreqid (by simp only [List.length_append, toBe_length]; omega), if_neg (by simp),
      if_neg (by simp)]
    rfl
  | error e =>
    dsimp only
    rw [matchResponse_error hreqid (by simp [toBe_length]) e.nul]
    rfl

/-- The answer to a request with another number is never taken. -/
theorem match_other (ps : Pageserver) {other : PageCall} (h : other.Fits) {k : Nat} (hk : k < 2 ^ 64) (hne : k ≠ reqid)
    {resp : Bytes} : matchResponse call.wantTag call.what reqid (ps.respond (other.request k)) ≠ .ok resp := by
  have htag := other.wantTag_ne
  rw [respond_request ps h]
  cases ps.payload other.tag other.lsn other.fields with
  | ok data =>
    dsimp only
    rw [matchResponse_data htag hk (by simp only [List.length_append, toBe_length]; omega), if_pos hne]
    split <;> simp [bail]
  | error e =>
    dsimp only
    rw [matchResponse_error hk (by simp [toBe_length]) e.nul]
    simp [bail]

theorem request_length_le (call : PageCall) (reqid : Nat) : (call.request reqid).length ≤ 42 := by
  cases call <;> simp [request, fields, toBe_length]

end PageCall

end Answer

theorem map_ok {ε α β : Type} {f : α → β} {r : Except ε α} {b : β} (h : r.map f = .ok b) :
    ∃ a, r = .ok a ∧ f a = b := by
  cases r with
  | error e => cases h
  | ok a =>
    cases h
    exact ⟨a, rfl, rfl⟩

namespace Pageserver

theorem respond_length_le (ps : Pageserver) (req : Bytes) : (ps.respond req).length ≤ req.length + 2 ^ 23 := by
  have hecho : (req.drop 1).length ≤ req.length := by simp
  simp only [respond]
  split
  · rename_i data hdata
    have hlen : data.length ≤ 8192 := by
      simp only [payload] at hdata
      split at hdata
      · obtain ⟨b, -, rfl⟩ := map_ok hdata
        simp
      split at hdata
      · obtain ⟨n, -, rfl⟩ := map_ok hdata
        simp [toBe_length]
      · obtain ⟨p, -, rfl⟩ := map_ok hdata
        exact p.property.le
    simp only [List.length_cons, List.length_append]
    omega
  · rename_i e _
    have htext := encode_length_le e.text
    have hshort := e.short
    simp only [List.length_cons, List.length_append, List.length_take, List.length_nil]
    omega

/-- The message with the answer to a call. -/
def frame (ps : Pageserver) (call : PageCall) (reqid : Nat) : WireFrame where
  tag := 0x64
  payload := ps.respond (call.request reqid)
  fits := by
    have hresponse := ps.respond_length_le (call.request reqid)
    have hrequest := call.request_length_le reqid
    omega

end Pageserver

end Ltap
