-- SUMMARY: The client attaches to a server: both agree on the slot, the timeline and the position.
import OpenLtap.Wire.Server

/-!
# Attaching

The client talks to a server that does what is documented. Both end with the same timeline, slot
and position.
-/

namespace Ltap

open Incremental Wire

/-! ## What the client writes -/

/-- A text that can stand in a message: no zero in it, and not too long. -/
structure Sendable (s : String) : Prop where
  nul : 0 ∉ Utf8.encode s
  short : s.length ≤ 2 ^ 20

/-- A parameter of a startup packet. The empty name would end the parameters. -/
structure SendableParam (p : String × String) : Prop where
  name_ne : p.1 ≠ ""
  name_nul : 0 ∉ Utf8.encode p.1
  value_nul : 0 ∉ Utf8.encode p.2
  short : p.1.length + p.2.length ≤ 2 ^ 22

theorem Sendable.param {name value : String} (h : Sendable value)
    (hname : name ≠ "" ∧ 0 ∉ Utf8.encode name ∧ name.length ≤ 100) : SendableParam (name, value) where
  name_ne := hname.1
  name_nul := hname.2.1
  value_nul := h.nul
  short := by
    have hshort := h.short
    have hnameShort := hname.2.2
    dsimp only
    omega

theorem startupParams_sendable {user : String} (huser : Sendable user) {extraParams : List (String × String)}
    (hextra : ∀ p ∈ extraParams, SendableParam p) : ∀ p ∈ startupParams user true extraParams, SendableParam p := by
  simp only [startupParams, if_pos, List.forall_mem_append, List.forall_mem_cons]
  have hreplication : Sendable "true" := ⟨by decide, by decide⟩
  exact ⟨⟨huser.param (by decide), hreplication.param (by decide), by simp⟩, hextra⟩

theorem safekeeperParams_sendable {tenant timelineId : String} (htenant : Sendable tenant)
    (htimeline : Sendable timelineId) : ∀ p ∈ safekeeperParams tenant timelineId, SendableParam p := by
  have hnul : 0 ∉ Utf8.encode s!"tenant_id={tenant} timeline_id={timelineId}" := by
    have htenant := htenant.nul
    have htimeline := htimeline.nul
    have hbefore : 0 ∉ Utf8.encode "tenant_id=" := by decide
    have hbetween : 0 ∉ Utf8.encode " timeline_id=" := by decide
    simp only [Utf8.encode, toString, String.toList_append, List.flatMap_append, List.mem_append] at *
    tauto
  have hshort : "options".length + (s!"tenant_id={tenant} timeline_id={timelineId}").length ≤ 2 ^ 22 := by
    have htenantLen := htenant.short
    have htimelineLen := htimeline.short
    simp only [String.length_append, toString, show "options".length = 7 from rfl,
      show "tenant_id=".length = 10 from rfl, show " timeline_id=".length = 13 from rfl]
    omega
  have hname : Sendable "open-ltap" := ⟨by decide, by decide⟩
  simp only [safekeeperParams, List.forall_mem_cons]
  exact ⟨⟨(by decide : "options" ≠ ""), (by decide : 0 ∉ Utf8.encode "options"), hnul, hshort⟩,
    hname.param (by decide), by simp⟩

theorem cstring_length_le (s : String) : (cstring s).length ≤ 4 * s.length + 1 := by
  have hlen := encode_length_le s
  rw [cstring, List.length_append, List.length_singleton]
  omega

/-- A few short parameters make a startup packet that fits. -/
theorem startupMsg_fits {user : String} {replication : Bool} {extraParams : List (String × String)}
    (hcount : (startupParams user replication extraParams).length ≤ 8)
    (hps : ∀ p ∈ startupParams user replication extraParams, SendableParam p) :
    (startupMsg user replication extraParams).length < 2 ^ 32 := by
  simp only [startupMsg]
  generalize startupParams user replication extraParams = ps at hcount hps ⊢
  have hsum : ∀ qs : List (String × String), (∀ p ∈ qs, SendableParam p) →
      (qs.flatMap fun p => cstring p.1 ++ cstring p.2).length ≤ (2 ^ 24 + 2) * qs.length := by
    intro qs hqs
    induction qs with
    | nil => exact le_rfl
    | cons q qs ih =>
      have hrest := ih fun p hp => hqs p (List.mem_cons_of_mem q hp)
      have hq := (hqs q List.mem_cons_self).short
      have hkey := cstring_length_le q.1
      have hval := cstring_length_le q.2
      rw [List.flatMap_cons, List.length_append, List.length_append, List.length_cons]
      omega
  have hall := hsum ps hps
  simp only [startupBody, List.length_append, toBe_length, List.length_singleton]
  omega

theorem startupMsg_packet {user : String} {replication : Bool} {extraParams : List (String × String)}
    (hcount : (startupParams user replication extraParams).length ≤ 8)
    (hps : ∀ p ∈ startupParams user replication extraParams, SendableParam p) :
    StartupPacket (startupParams user replication extraParams) (startupMsg user replication extraParams) := by
  refine ⟨startupMsg_fits hcount hps, fun p hp => ⟨(hps p hp).name_ne, (hps p hp).name_nul, (hps p hp).value_nul⟩, ?_⟩
  have hlen : (startupMsg user replication extraParams).length =
      (startupBody (startupParams user replication extraParams)).length + 4 := by
    simp only [startupMsg, List.length_append, toBe_length]
    omega
  rw [hlen]
  rfl

theorem passwordMsg_text {pw : String} (h : Sendable pw) : TextMessage 0x70 pw (passwordMsg pw) := by
  have hlen := encode_length_le pw
  have hshort := h.short
  exact ⟨h.nul, by omega, rfl⟩

theorem queryMsg_text {q : String} (hnul : 0 ∉ Utf8.encode q) (hlen : q.length ≤ 2 ^ 21) :
    TextMessage 0x51 q (queryMsg q) := by
  have hbytes := encode_length_le q
  exact ⟨hnul, by omega, rfl⟩

theorem nul_not_mem_encode {s : String} (h : Char.ofNat 0 ∉ s.toList) : 0 ∉ Utf8.encode s :=
  fun hmem => h (Utf8.mem_encode_ascii hmem (by decide))

theorem nul_fmtLsn (lsn : Nat) : 0 ∉ Utf8.encode (fmtLsn lsn) := by
  refine nul_not_mem_encode ?_
  simp only [fmtLsn, String.toList_append, List.mem_append, not_or]
  exact ⟨⟨not_mem_upperHex (by decide) _, by decide⟩, not_mem_upperHex (by decide) _⟩

theorem nul_repr (n : Nat) : 0 ∉ Utf8.encode n.repr := by
  refine nul_not_mem_encode fun h => ?_
  rw [Nat.toList_repr] at h
  exact absurd (Nat.isDigit_of_mem_toDigits (by decide) (by decide) h) (by decide)

theorem SlotName.nul {name : String} (h : SlotName name) : 0 ∉ Utf8.encode name :=
  nul_not_mem_encode fun hmem => absurd (h.chars _ hmem) (by decide)

theorem nul_encode_append {a b : String} (ha : 0 ∉ Utf8.encode a) (hb : 0 ∉ Utf8.encode b) :
    0 ∉ Utf8.encode (a ++ b) := by
  rw [Utf8.encode, String.toList_append, List.flatMap_append, List.mem_append]
  exact not_or.mpr ⟨ha, hb⟩

theorem repr_length_le {n : Nat} (h : n < 2 ^ 32) : n.repr.length ≤ 10 := by
  have hdigits : (Nat.toDigits 10 n).length ≤ 10 :=
    (Nat.length_toDigits_le_iff (by decide) (by decide)).mpr (lt_trans h (by decide))
  rw [← String.length_toList, Nat.toList_repr]
  exact hdigits

theorem fmtLsn_length_le {lsn : Nat} (h : lsn < 2 ^ 64) : (fmtLsn lsn).length ≤ 17 := by
  have hdigits : ∀ {n : Nat}, n < 2 ^ 32 → (upperHex n).length ≤ 8 := by
    intro n hn
    rw [upperHex, ← String.length_toList, String.toList_ofList, List.length_map]
    exact (Nat.length_toDigits_le_iff (by decide) (by decide)).mpr (lt_of_lt_of_le hn (by decide))
  have hhi : (upperHex (lsn >>> 32)).length ≤ 8 := hdigits (by rw [Nat.shiftRight_eq_div_pow]; omega)
  have hlo : (upperHex (lsn &&& 0xFFFFFFFF)).length ≤ 8 := hdigits (Nat.and_lt_two_pow _ (by decide))
  have hslash : "/".length = 1 := rfl
  rw [fmtLsn, String.length_append, String.length_append]
  omega

/-! ### Commands -/

theorem createSlot_text {slot : String} (h : SlotName slot) :
    TextMessage 0x51 s!"CREATE_REPLICATION_SLOT {slot} PHYSICAL RESERVE_WAL"
      (queryMsg s!"CREATE_REPLICATION_SLOT {slot} PHYSICAL RESERVE_WAL") := by
  refine queryMsg_text (nul_encode_append (nul_encode_append (by decide) h.nul) (by decide)) ?_
  have hshort := h.short
  simp only [String.length_append, toString, show "CREATE_REPLICATION_SLOT ".length = 24 from rfl,
    show " PHYSICAL RESERVE_WAL".length = 21 from rfl]
  omega

theorem readSlot_text {slot : String} (h : SlotName slot) :
    TextMessage 0x51 s!"READ_REPLICATION_SLOT {slot}" (queryMsg s!"READ_REPLICATION_SLOT {slot}") := by
  refine queryMsg_text (nul_encode_append (by decide) h.nul) ?_
  have hshort := h.short
  simp only [String.length_append, toString, show "READ_REPLICATION_SLOT ".length = 22 from rfl]
  omega

theorem identifySystem_text : TextMessage 0x51 "IDENTIFY_SYSTEM" (queryMsg "IDENTIFY_SYSTEM") :=
  queryMsg_text (by decide) (by decide)

theorem startReplication_text {slot : String} (h : SlotName slot) (start : Fin (2 ^ 64)) (timeline : Fin (2 ^ 32)) :
    TextMessage 0x51 s!"START_REPLICATION SLOT {slot} PHYSICAL {fmtLsn start.val} TIMELINE {timeline.val}"
      (queryMsg s!"START_REPLICATION SLOT {slot} PHYSICAL {fmtLsn start.val} TIMELINE {timeline.val}") := by
  refine queryMsg_text (nul_encode_append (nul_encode_append (nul_encode_append (nul_encode_append
    (nul_encode_append (by decide) h.nul) (by decide)) (nul_fmtLsn _)) (by decide)) (nul_repr _)) ?_
  have hshort := h.short
  have hstart := fmtLsn_length_le start.isLt
  have htimeline := repr_length_le timeline.isLt
  simp only [String.length_append, toString, show "START_REPLICATION SLOT ".length = 23 from rfl,
    show " PHYSICAL ".length = 10 from rfl, show " TIMELINE ".length = 10 from rfl]
  omega

theorem startReplicationSafekeeper_text (start : Fin (2 ^ 64)) :
    TextMessage 0x51 s!"START_REPLICATION PHYSICAL {fmtLsn start.val}"
      (queryMsg s!"START_REPLICATION PHYSICAL {fmtLsn start.val}") := by
  refine queryMsg_text (nul_encode_append (by decide) (nul_fmtLsn _)) ?_
  have hstart := fmtLsn_length_le start.isLt
  simp only [String.length_append, toString, show "START_REPLICATION PHYSICAL ".length = 27 from rfl]
  omega

/-! ## The client reads what the server answers -/

namespace Wire

variable {α σ : Type} {turn : σ → WireMsg → Wire (σ ⊕ α)}

theorem awaitReadyTurn_bounded (password : Option String) (m : WireMsg) : Bounded (awaitReadyTurn password m) := by
  unfold awaitReadyTurn
  refine .ite (.bind (.lift _) fun a => ?_) (.ite (.pure _) (.ite (.pure _) (.ite (.fail _) (.fail _))))
  obtain ⟨code, rest⟩ := a
  dsimp only
  split
  · exact .pure _
  · exact .bind (.write _) fun _ => .pure _
  · exact .fail _
  · exact .fail _

theorem rowTurn_bounded (what : String) (notices : Bool) (row : Option (List (Option String))) (m : WireMsg) :
    Bounded (rowTurn what notices row m) :=
  .ite (.pure _) (.ite (.bind (.lift _) fun _ => .pure _) (.ite (.pure _) (.ite (.fail _) (.fail _))))

theorem createSlotTurn_bounded (s : Bool × Option String) (m : WireMsg) : Bounded (createSlotTurn s m) :=
  .ite (.pure _) (.ite (.ite (.pure _) (.pure _)) (.ite (.pure _) (.fail _)))

theorem copyBothTurn_bounded (m : WireMsg) : Bounded (copyBothTurn m) :=
  .ite (.pure _) (.ite (.pure _) (.ite (.fail _) (.fail _)))

/-- A request and its answer. -/
theorem exchange (hturn : ∀ s m, Bounded (turn s m)) {s s' : σ} {fs : List WireFrame} (last : WireFrame) {a : α}
    (h : Passes turn s fs s') (hlast : ∀ c, turn s' last.msg c = (.ok (.inr a), c)) (msg : Bytes) (rest w : List Bytes)
    (n : Nat) :
    (write msg >>= fun _ => messages turn s) ⟨[], (fs ++ [last]).flatMap WireFrame.bytes :: rest, w, n⟩ =
      (.ok a, ⟨[], rest, w ++ [msg], n⟩) := by
  have hwrite : write msg ⟨[], (fs ++ [last]).flatMap WireFrame.bytes :: rest, w, n⟩ =
      (.ok (), ⟨(fs ++ [last]).flatMap WireFrame.bytes ++ [], rest, w ++ [msg], n⟩) := by
    rw [List.append_nil]
    rfl
  rw [bind_ok hwrite]
  exact messages_passes hturn h hlast [] rfl

theorem exchange_bind (hturn : ∀ s m, Bounded (turn s m)) {s s' : σ} {fs : List WireFrame} (last : WireFrame) {a : α}
    (h : Passes turn s fs s') (hlast : ∀ c, turn s' last.msg c = (.ok (.inr a), c)) (msg : Bytes) (rest w : List Bytes)
    (n : Nat) {β : Type} (k : α → Wire β) :
    (write msg >>= fun _ => messages turn s >>= k) ⟨[], (fs ++ [last]).flatMap WireFrame.bytes :: rest, w, n⟩ =
      k a ⟨[], rest, w ++ [msg], n⟩ :=
  bind_ok (exchange hturn last h hlast msg rest w n) k

end Wire

section Client

variable {password : Option String} {rest w : List Bytes} {n : Nat} {greeting notices : List WireFrame}

theorem passes_greeting (h : Greeting greeting) :
    Passes (fun _ => awaitReadyTurn password) () (.authOk :: greeting) () := by
  refine .cons (fun c => ?_) (.same fun f hf c => ?_)
  · rfl
  · have hauth : f.tag ≠ 0x52 := by
      rcases h f hf with h | h | h <;> rw [h] <;> decide
    rw [awaitReadyTurn, WireFrame.msg, if_neg hauth, if_pos (h f hf)]
    rfl

theorem login_trusted (h : Greeting greeting) (msg : Bytes) :
    (write msg >>= fun _ => awaitReady password)
        ⟨[], (.authOk :: (greeting ++ [.ready])).flatMap WireFrame.bytes :: rest, w, n⟩ =
      (.ok (), ⟨[], rest, w ++ [msg], n⟩) :=
  exchange (fun _ => awaitReadyTurn_bounded password) .ready (passes_greeting h) (fun _ => rfl) _ rest w n

theorem login_challenged (h : Greeting greeting) (msg : Bytes) (pw : String) :
    (write msg >>= fun _ => awaitReady (some pw))
        ⟨[], [WireFrame.cleartextPassword].flatMap WireFrame.bytes ::
          (.authOk :: (greeting ++ [.ready])).flatMap WireFrame.bytes :: rest, w, n⟩ =
      (.ok (), ⟨[], rest, w ++ [msg, passwordMsg pw], n⟩) := by
  generalize hanswer : (.authOk :: (greeting ++ [.ready])).flatMap WireFrame.bytes = answer
  let started : Conn := ⟨WireFrame.cleartextPassword.bytes ++ [], answer :: rest, w ++ [msg], n⟩
  have hwrite : write msg ⟨[], [WireFrame.cleartextPassword].flatMap WireFrame.bytes :: answer :: rest, w, n⟩ =
      (.ok (), started) := rfl
  have hincoming : started.incoming = WireFrame.cleartextPassword.bytes ++ [] := rfl
  have hturn : awaitReadyTurn (some pw) WireFrame.cleartextPassword.msg { started with incoming := [] } =
      (.ok (.inl ()), ⟨answer, rest, w ++ [msg, passwordMsg pw], n⟩) := by
    rw [show w ++ [msg, passwordMsg pw] = w ++ [msg] ++ [passwordMsg pw] by simp]
    rfl
  rw [bind_ok hwrite, awaitReady, messages_turn (fun _ => awaitReadyTurn_bounded (some pw)) () hincoming]
  simp only [hturn]
  exact messages_passes (fun _ => awaitReadyTurn_bounded (some pw)) (passes_greeting h) (fun _ => rfl) []
    (by rw [← hanswer, List.append_nil, List.cons_append])

theorem passes_notices {σ α : Type} {turn : σ → WireMsg → Wire (σ ⊕ α)} (h : Notices notices) {s : σ}
    (hturn : ∀ f : WireFrame, f.tag = 0x4E → ∀ c, turn s f.msg c = (.ok (.inl s), c)) : Passes turn s notices s :=
  .same fun f hf => hturn f (h f hf)

/-! ### Rows -/

/-- A row with its description in front and its completion behind. -/
theorem passes_row (what : String) (notices : Bool) {fields : List (Option String)} (r : RowAnswer fields)
    (hcount : fields.length < 2 ^ 16) : Passes (rowTurn what notices) none r.frames (some fields) := by
  have hrow : parseDataRow r.row.payload = .ok fields := by
    rw [r.row_payload]
    exact parseDataRow_dataRow hcount r.fields_short
  have hdescription : ∀ c, rowTurn what notices none r.description.msg c = (.ok (.inl none), c) := by
    intro c
    rw [rowTurn, if_pos (.inl r.description_tag)]
    rfl
  have hdata : ∀ c, rowTurn what notices none r.row.msg c = (.ok (.inl (some fields)), c) := by
    intro c
    rw [rowTurn, WireFrame.msg, r.row_tag, if_neg (by simp), if_pos rfl, hrow]
    rfl
  have hcomplete : ∀ c, rowTurn what notices (some fields) r.complete.msg c = (.ok (.inl (some fields)), c) := by
    intro c
    rw [rowTurn, if_pos (.inr (.inl r.complete_tag))]
    rfl
  exact .cons hdescription (.cons hdata (.cons hcomplete (.nil _)))

theorem identifySystem_row {systemid : String} {timeline : Fin (2 ^ 32)} {flushLsn : Fin (2 ^ 64)} {db : Option String}
    (r : RowAnswer [some systemid, some timeline.val.repr, some (fmtLsn flushLsn.val), db]) :
    identifySystem ⟨[], (r.frames ++ [WireFrame.ready]).flatMap WireFrame.bytes :: rest, w, n⟩ =
      (.ok (timeline.val, flushLsn.val), ⟨[], rest, w ++ [queryMsg "IDENTIFY_SYSTEM"], n⟩) := by
  have hsystem : systemOf (some [some systemid, some timeline.val.repr, some (fmtLsn flushLsn.val), db]) =
      .ok (timeline.val, flushLsn.val) := by
    simp only [systemOf, orBail, List.getElem?_cons_succ, List.getElem?_cons_zero, Option.bind_some, id_eq, bind,
      Except.bind, fromStrRadix_repr timeline.isLt, parseLsn_fmtLsn flushLsn.isLt]
    rfl
  have hanswer := exchange_bind (rowTurn_bounded "IDENTIFY_SYSTEM" false) .ready
    (passes_row "IDENTIFY_SYSTEM" false r (by decide : 4 < 65536)) (fun _ => rfl)
    (queryMsg "IDENTIFY_SYSTEM") rest w n fun row => lift (systemOf row)
  rw [lift_apply, hsystem] at hanswer
  exact hanswer

/-! ### Slots -/

/-- What the client learns about a slot. -/
def retained (slot : Option (Option (Fin (2 ^ 64)))) : Option Nat := (slot.bind id).map (·.val)

theorem slotRestartLsn_row (name : String) {slot : Option (Option (Fin (2 ^ 64)))} {kind timeline : Option String}
    (h : Notices notices) (r : RowAnswer [kind, (slot.bind id).map fun lsn => fmtLsn lsn.val, timeline]) :
    slotRestartLsn name
        ⟨[], (notices ++ (r.frames ++ [WireFrame.ready])).flatMap WireFrame.bytes :: rest, w, n⟩ =
      (.ok (retained slot), ⟨[], rest, w ++ [queryMsg s!"READ_REPLICATION_SLOT {name}"], n⟩) := by
  have hnotices : Passes (rowTurn "READ_REPLICATION_SLOT" true) none notices none := by
    refine passes_notices h fun f hf c => ?_
    rw [rowTurn, WireFrame.msg, hf, if_pos (.inr (.inr ⟨rfl, rfl⟩))]
    rfl
  have hanswer := exchange_bind (rowTurn_bounded "READ_REPLICATION_SLOT" true) .ready
    (hnotices.append (passes_row "READ_REPLICATION_SLOT" true r (by decide : 3 < 65536))) (fun _ => rfl)
    (queryMsg s!"READ_REPLICATION_SLOT {name}") rest w n (β := Option Lsn)
  rw [List.append_assoc] at hanswer
  refine (hanswer _).trans ?_
  rcases slot with _ | _ | lsn
  · rfl
  · rfl
  · have hlsn := parseLsn_fmtLsn lsn.isLt
    simp [retained, bind_apply, hlsn]

theorem createSlotTurn_passed {f : WireFrame} (hf : f.tag = 0x54 ∨ f.tag = 0x44 ∨ f.tag = 0x43 ∨ f.tag = 0x4E)
    (c : Conn) : createSlotTurn (true, none) f.msg c = (.ok (.inl (true, none)), c) := by
  rw [createSlotTurn, WireFrame.msg, if_pos hf]
  rfl

theorem createSlot_created (name : String) {fields : List (Option String)} (h : Notices notices)
    (r : RowAnswer fields) :
    createSlot name ⟨[], (notices ++ (r.frames ++ [WireFrame.ready])).flatMap WireFrame.bytes :: rest, w, n⟩ =
      (.ok true, ⟨[], rest, w ++ [queryMsg s!"CREATE_REPLICATION_SLOT {name} PHYSICAL RESERVE_WAL"], n⟩) := by
  have hnotices := passes_notices h fun f hf => createSlotTurn_passed (.inr (.inr (.inr hf)))
  have hrow : Passes createSlotTurn (true, none) r.frames (true, none) :=
    .cons (createSlotTurn_passed (.inl r.description_tag)) (.cons (createSlotTurn_passed (.inr (.inl r.row_tag)))
      (.cons (createSlotTurn_passed (.inr (.inr (.inl r.complete_tag)))) (.nil _)))
  have hanswer := exchange_bind createSlotTurn_bounded .ready (hnotices.append hrow) (fun _ => rfl)
    (queryMsg s!"CREATE_REPLICATION_SLOT {name} PHYSICAL RESERVE_WAL") rest w n (β := Bool)
  rw [List.append_assoc] at hanswer
  exact hanswer _

/-- The code of an error is in its only field of that kind. -/
theorem errorField_code {fields : List (UInt8 × String)} (acc : Option String × String) :
    (fields.foldl (fun acc f => errorField acc f.1 f.2) acc).1 =
      ((fields.filter (·.1 = 0x43)).getLast?.map (·.2)).or acc.1 := by
  induction fields generalizing acc with
  | nil => rfl
  | cons f fields ih =>
    rw [List.foldl_cons, ih]
    by_cases hcode : f.1 = 0x43
    · rw [List.filter_cons_of_pos (by simpa using hcode), List.getLast?_cons, errorField, hcode, if_neg (by decide),
        if_pos rfl]
      cases (fields.filter (·.1 = 0x43)).getLast? <;> rfl
    · rw [List.filter_cons_of_neg (by simpa using hcode), errorField]
      simp only [if_neg hcode]
      split <;> rfl

theorem ErrorAnswer.code_eq {code : String} (e : ErrorAnswer code) :
    (parseErrorFields e.frame.payload).1 = some code := by
  rw [e.payload, parseErrorFields_errorResponse e.fields_terminated]
  dsimp only
  rw [errorField_code, e.code_only]
  rfl

theorem createSlot_exists (name : String) (h : Notices notices) (e : ErrorAnswer "42710") :
    createSlot name ⟨[], (notices ++ [e.frame, .ready]).flatMap WireFrame.bytes :: rest, w, n⟩ =
      (.ok false, ⟨[], rest, w ++ [queryMsg s!"CREATE_REPLICATION_SLOT {name} PHYSICAL RESERVE_WAL"], n⟩) := by
  have hnotices := passes_notices h fun f hf => createSlotTurn_passed (.inr (.inr (.inr hf)))
  have hexists : Passes createSlotTurn (true, none) [e.frame] (false, none) := by
    refine .cons (fun c => ?_) (.nil _)
    simp only [createSlotTurn, WireFrame.msg, e.tag, e.code_eq]
    rfl
  have hanswer := exchange_bind createSlotTurn_bounded .ready (hnotices.append hexists) (fun _ => rfl)
    (queryMsg s!"CREATE_REPLICATION_SLOT {name} PHYSICAL RESERVE_WAL") rest w n (β := Bool)
  rw [List.append_assoc] at hanswer
  exact hanswer _

/-- What the server streams behind its answer is left for the stream. -/
theorem awaitCopyBoth_copyBoth (h : Notices notices) (q : String) (stream : Bytes) :
    (sendQuery q >>= fun _ => awaitCopyBoth)
        ⟨[], ((notices ++ [WireFrame.copyBoth]).flatMap WireFrame.bytes ++ stream) :: rest, w, n⟩ =
      (.ok (), ⟨stream, rest, w ++ [queryMsg q], n⟩) := by
  have hnotices : Passes (fun _ => copyBothTurn) () notices () := by
    refine passes_notices h fun f hf c => ?_
    rw [copyBothTurn, WireFrame.msg, hf, if_neg (by simp), if_pos rfl]
    rfl
  generalize hanswer : (notices ++ [WireFrame.copyBoth]).flatMap WireFrame.bytes ++ stream = answer
  have hwrite : sendQuery q ⟨[], answer :: rest, w, n⟩ = (.ok (), ⟨answer, rest, w ++ [queryMsg q], n⟩) := rfl
  rw [bind_ok hwrite, awaitCopyBoth]
  exact messages_passes (fun _ => copyBothTurn_bounded) hnotices (fun _ => rfl) stream hanswer.symm

end Client

/-! ## Up to the stream -/

/-- The vanilla source up to the stream, which begins where the caller chooses. -/
def streamPostgres (user slot : String) (choose : Attachment → Fin (2 ^ 64)) : Wire Attachment := do
  let att ← attachPostgres user slot
  startReplication slot (choose att).val att.timeline
  return att

def streamSafekeeper (user tenant timelineId : String) (token : Option String) (choose : Attachment → Fin (2 ^ 64)) :
    Wire Attachment := do
  let att ← attachSafekeeper user tenant timelineId token
  startReplicationSafekeeper (choose att).val
  return att

section Served

variable {σ : Type} {srv : PgServer σ} {params : List (String × String)} {slot : String} {s : σ}

/-- The client comes in, with the password if it is asked for one. -/
theorem login_served {user : String} {replication : Bool} {extraParams : List (String × String)}
    (hlogin : srv.LogsIn (startupParams user replication extraParams)) {password : Option String}
    (hpassword : ∀ pw ∈ srv.password, password = some pw ∧ Sendable pw)
    (hcount : (startupParams user replication extraParams).length ≤ 8)
    (hps : ∀ p ∈ startupParams user replication extraParams, SendableParam p) (hs : srv.phase s = .fresh) :
    ∃ s' replies,
      srv.serve s (startupMsg user replication extraParams :: (srv.password.map passwordMsg).toList) = (s', replies) ∧
      srv.phase s' = .idle (startupParams user replication extraParams) ∧
      (∀ name, srv.slots s' name = srv.slots s name) ∧
      ∀ rest w n, (sendStartup user replication extraParams >>= fun _ => awaitReady password)
          ⟨[], replies ++ rest, w, n⟩ =
        (.ok (), ⟨[], rest,
          w ++ startupMsg user replication extraParams :: (srv.password.map passwordMsg).toList, n⟩) := by
  have hpacket := startupMsg_packet hcount hps
  cases hpw : srv.password with
  | none =>
    obtain ⟨s', greeting, hgreeting, hanswer⟩ := hlogin.trusted hs hpacket hpw
    exact ⟨s', _, PgServer.serve_cons (hanswer "").react rfl, (hanswer "").phase, fun name => (hanswer name).slot,
      fun rest w n => login_trusted hgreeting _⟩
  | some pw =>
    obtain ⟨rfl, hsendable⟩ := hpassword pw hpw
    obtain ⟨s₁, hasked⟩ := hlogin.asked hs hpacket (by rw [hpw]; rfl)
    obtain ⟨s', greeting, hgreeting, hanswer⟩ :=
      hlogin.admitted (hasked "").phase hpw (passwordMsg_text hsendable)
    exact ⟨s', _, PgServer.serve_cons (hasked "").react (PgServer.serve_cons (hanswer "").react rfl),
      (hanswer "").phase, fun name => (hanswer name).slot.trans (hasked name).slot,
      fun rest w n => login_challenged hgreeting _ pw⟩

/-- Behind the request the slot is there, and the client does not mind whether it was before. -/
theorem createSlot_served (hkeeps : srv.KeepsSlot params slot) (hslot : SlotName slot) (hs : srv.phase s = .idle params) :
    ∃ created s' fs,
      srv.react s (queryMsg s!"CREATE_REPLICATION_SLOT {slot} PHYSICAL RESERVE_WAL") = (s', fs) ∧
      srv.phase s' = .idle params ∧ (srv.slots s' slot).isSome ∧
      (∀ r, srv.slots s slot = some r → srv.slots s' slot = some r) ∧
      ∀ rest w n, createSlot slot ⟨[], fs.flatMap WireFrame.bytes :: rest, w, n⟩ =
        (.ok created, ⟨[], rest, w ++ [queryMsg s!"CREATE_REPLICATION_SLOT {slot} PHYSICAL RESERVE_WAL"], n⟩) := by
  cases hold : srv.slots s slot with
  | none =>
    obtain ⟨s', notices, fields, r, hnotices, hreact, hphase, hsome⟩ := hkeeps.creates hs hold (createSlot_text hslot)
    exact ⟨true, s', _, hreact, hphase, hsome, by rintro r ⟨⟩, fun rest w n => createSlot_created slot hnotices r⟩
  | some restart =>
    obtain ⟨s', notices, e, hnotices, hanswer⟩ := hkeeps.refuses hs (by rw [hold]; rfl) (createSlot_text hslot)
    have hkept := hanswer.slot.trans hold
    refine ⟨false, s', _, hanswer.react, hanswer.phase, by rw [hkept]; rfl, ?_,
      fun rest w n => createSlot_exists slot hnotices e⟩
    rintro r ⟨⟩
    exact hkept

end Served

/-! ## A server for one client -/

namespace Sample

def greeting : List WireFrame :=
  [⟨0x53, [0x61, 0, 0x62, 0], by decide⟩, ⟨0x4B, [0, 0, 0, 1, 0, 0, 0, 2], by decide⟩]

def notices : List WireFrame := [⟨0x4E, [0x4D, 0x68, 0x69, 0, 0], by decide⟩]

theorem greeting_tags : Greeting greeting := by
  unfold Greeting greeting
  decide

theorem notices_tags : Notices notices := by
  unfold Notices notices
  decide

def rowAnswer (fields : List (Option String)) (hcount : fields.length ≤ 8)
    (hshort : ∀ s, some s ∈ fields → s.length ≤ 1000) : RowAnswer fields where
  description := ⟨0x54, [0, 0], by decide⟩
  row := ⟨0x44, dataRow fields, dataRow_fits hcount hshort⟩
  complete := ⟨0x43, [0], by decide⟩
  description_tag := rfl
  row_tag := rfl
  row_payload := rfl
  fields_short s hs := by
    have hlen := encode_length_le s
    have hs := hshort s hs
    omega
  complete_tag := rfl

def slotExists : ErrorAnswer "42710" where
  frame := ⟨0x45, errorResponse [(0x53, "ERROR"), (0x43, "42710"), (0x4D, "slot exists")], by decide⟩
  fields := [(0x53, "ERROR"), (0x43, "42710"), (0x4D, "slot exists")]
  tag := rfl
  payload := rfl
  fields_terminated := by decide
  code_only := by decide

/-- Where a session stands, and whether it has made the slot. -/
structure Session where
  phase : Phase
  created : Bool

def slotRow (slot : Option (Option (Fin (2 ^ 64)))) :
    RowAnswer [some "physical", (slot.bind id).map fun lsn => fmtLsn lsn.val, some "1"] :=
  rowAnswer _ (by decide : 3 ≤ 8) (by
    simp only [List.mem_cons, Option.some.injEq, List.not_mem_nil, or_false]
    rintro s (rfl | hs | rfl)
    · decide
    · obtain ⟨lsn, -, rfl⟩ := Option.map_eq_some_iff.mp hs.symm
      exact le_trans (fmtLsn_length_le lsn.isLt) (by decide)
    · decide)

def timeline : Fin (2 ^ 32) := ⟨1, (by decide : 1 < 4294967296)⟩

def flushLsn : Fin (2 ^ 64) := ⟨0x16B374D8, (by decide : 0x16B374D8 < 18446744073709551616)⟩

def reserve : Fin (2 ^ 64) := ⟨0x16000000, (by decide : 0x16000000 < 18446744073709551616)⟩

def systemRow : RowAnswer [some "7000000000000000001", some timeline.val.repr, some (fmtLsn flushLsn.val), none] :=
  rowAnswer _ (by decide : 4 ≤ 8) (by
    simp only [List.mem_cons, Option.some.injEq, reduceCtorEq, List.not_mem_nil, or_false]
    rintro s (rfl | rfl | rfl)
    · decide
    · exact le_trans (repr_length_le timeline.isLt) (by decide)
    · exact le_trans (fmtLsn_length_le flushLsn.isLt) (by decide))

/-- The position in a command, between two texts. -/
def startOf (before behind : String) (msg : Bytes) : Nat :=
  (parseLsn (Utf8.lossy ((msg.drop (5 + (Utf8.encode before).length)).take
    (msg.length - (6 + (Utf8.encode before).length + (Utf8.encode behind).length))))).toOption.getD 0

/-- A server for one client. It knows the commands by their first letters. -/
def react (params : List (String × String)) (password slot : Option String) (before behind : String) (s : Session)
    (msg : Bytes) : Session × List WireFrame :=
  match s.phase with
  | .fresh =>
    if password.isSome then ({ s with phase := .challenged params }, [.cleartextPassword])
    else ({ s with phase := .idle params }, .authOk :: (greeting ++ [.ready]))
  | .challenged _ => ({ s with phase := .idle params }, .authOk :: (greeting ++ [.ready]))
  | .idle _ =>
    if msg.getD 5 0 = 0x43 then
      if s.created then (s, notices ++ [slotExists.frame, .ready])
      else ({ s with created := true }, notices ++ ((slotRow none).frames ++ [.ready]))
    else if msg.getD 5 0 = 0x52 then
      (s, notices ++ ((slotRow (if s.created then some (some reserve) else none)).frames ++ [.ready]))
    else if msg.getD 5 0 = 0x49 then (s, systemRow.frames ++ [.ready])
    else
      ({ s with phase := .streaming params slot (startOf before behind msg) (slot.map fun _ => 1) },
        notices ++ [.copyBoth])
  | .streaming .. => (s, [])

def server (params : List (String × String)) (password slot : Option String) (before behind : String) :
    PgServer Session where
  react := react params password slot before behind
  phase := Session.phase
  slots s name := if some name = slot ∧ s.created then some (some reserve) else none
  timeline _ := timeline
  flushLsn _ := flushLsn
  password := password

variable {params : List (String × String)} {password slot : Option String} {before behind : String}

theorem server_logsIn : (server params password slot before behind).LogsIn params where
  trusted {s msg} hs _ hpw := by
    refine ⟨{ s with phase := .idle params }, greeting, greeting_tags, fun name => ⟨?_, rfl, rfl⟩⟩
    have hs : s.phase = .fresh := hs
    have hpw : password = none := hpw
    simp only [server, react, hs, hpw, Option.isSome_none, if_neg Bool.false_ne_true]
  asked {s msg} hs _ hpw := by
    refine ⟨{ s with phase := .challenged params }, fun name => ⟨?_, rfl, rfl⟩⟩
    have hs : s.phase = .fresh := hs
    have hpw : password.isSome := hpw
    simp only [server, react, hs, if_pos hpw]
  admitted {s msg pw} hs _ _ := by
    refine ⟨{ s with phase := .idle params }, greeting, greeting_tags, fun name => ⟨?_, rfl, rfl⟩⟩
    have hs : s.phase = .challenged params := hs
    simp only [server, react, hs]

/-- The first letter of a command. -/
theorem letter_text (text rest : String) (b : UInt8) {msg : Bytes} (hfirst : (Utf8.encode text).head? = some b)
    (h : TextMessage 0x51 (text ++ rest) msg) : msg.getD 5 0 = b := by
  obtain ⟨-, -, rfl⟩ := h
  generalize 4 + (Utf8.encode (text ++ rest)).length + 1 = len
  obtain ⟨bs, hbytes⟩ : ∃ bs, Utf8.encode text = b :: bs := by
    cases hbytes : Utf8.encode text with
    | nil => simp [hbytes] at hfirst
    | cons c bs =>
      rw [hbytes, List.head?_cons, Option.some.injEq] at hfirst
      exact ⟨bs, by rw [hfirst]⟩
  have hencode : Utf8.encode (text ++ rest) = b :: (bs ++ Utf8.encode rest) := by
    have happend : Utf8.encode (text ++ rest) = Utf8.encode text ++ Utf8.encode rest := by
      simp only [Utf8.encode, String.toList_append, List.flatMap_append]
    rw [happend, hbytes, List.cons_append]
  have hhead : (0x51 :: toBe 4 len : Bytes).length = 5 := by rw [List.length_cons, toBe_length]
  rw [hencode, ← List.cons_append, List.getD_append_right _ _ _ _ (by rw [hhead]), hhead]
  rfl

theorem startOf_text {start : Fin (2 ^ 64)} {msg : Bytes}
    (h : TextMessage 0x51 (before ++ fmtLsn start.val ++ behind) msg) : startOf before behind msg = start.val := by
  obtain ⟨-, -, rfl⟩ := h
  have hencode : Utf8.encode (before ++ fmtLsn start.val ++ behind) =
      Utf8.encode before ++ (Utf8.encode (fmtLsn start.val) ++ Utf8.encode behind) := by
    simp only [Utf8.encode, String.toList_append, List.flatMap_append, List.append_assoc]
  generalize 4 + (Utf8.encode (before ++ fmtLsn start.val ++ behind)).length + 1 = len
  have hhead : (0x51 :: (toBe 4 len ++ Utf8.encode before)).length = 5 + (Utf8.encode before).length := by
    rw [List.length_cons, List.length_append, toBe_length]
    omega
  have hsplit : 0x51 :: (toBe 4 len ++ (Utf8.encode (before ++ fmtLsn start.val ++ behind) ++ [0])) =
      (0x51 :: (toBe 4 len ++ Utf8.encode before)) ++ (Utf8.encode (fmtLsn start.val) ++ (Utf8.encode behind ++ [0])) := by
    rw [hencode]
    simp only [List.cons_append, List.append_assoc]
  have hlen : ((0x51 :: (toBe 4 len ++ Utf8.encode before)) ++
      (Utf8.encode (fmtLsn start.val) ++ (Utf8.encode behind ++ [0]))).length -
        (6 + (Utf8.encode before).length + (Utf8.encode behind).length) = (Utf8.encode (fmtLsn start.val)).length := by
    rw [List.length_append, hhead, List.length_append, List.length_append, List.length_singleton]
    omega
  rw [startOf, hsplit, List.drop_left' hhead, hlen, List.take_left, Utf8.lossy_encode, parseLsn_fmtLsn start.isLt]
  rfl

theorem server_identifies : (server params password slot before behind).Identifies params := by
  intro s msg hs htext
  refine ⟨s, _, _, systemRow, fun name => ⟨?_, hs, rfl⟩⟩
  have hs : s.phase = .idle params := hs
  have hletter := letter_text "IDENTIFY_SYSTEM" "" 0x49 (by decide) (by rwa [String.append_empty])
  simp only [server, react, hs, hletter]
  rfl

/-- A server that asks for no password, and the slot `ltap_slot`. -/
def slotServer : PgServer Session :=
  server [("user", "ltap"), ("replication", "true")] none (some "ltap_slot") "START_REPLICATION SLOT ltap_slot PHYSICAL "
    (" TIMELINE " ++ Nat.repr 1)

theorem slotServer_logsIn : slotServer.LogsIn [("user", "ltap"), ("replication", "true")] := server_logsIn

theorem slotServer_slots {s : Session} (h : (slotServer.slots s "ltap_slot").isSome) :
    slotServer.slots s "ltap_slot" = some (some reserve) := by
  have hcreated : s.created = true := by
    by_contra hcreated
    simp [slotServer, server, hcreated] at h
  simp [slotServer, server, hcreated]

theorem slotServer_keepsSlot : slotServer.KeepsSlot [("user", "ltap"), ("replication", "true")] "ltap_slot" where
  creates {s msg} hs hslot htext := by
    have hs : s.phase = .idle [("user", "ltap"), ("replication", "true")] := hs
    have hcreated : s.created = false := by
      by_contra hcreated
      simp [slotServer, server, hcreated] at hslot
    have hletter := letter_text "CREATE_REPLICATION_SLOT " ("ltap_slot" ++ " PHYSICAL RESERVE_WAL")
      0x43 (by decide) (by rw [← String.append_assoc]; exact htext)
    refine ⟨{ s with created := true }, notices, _, slotRow none, notices_tags, ?_, hs, rfl⟩
    simp only [slotServer, server, react, hs, hletter, if_pos, hcreated, if_neg Bool.false_ne_true]
  refuses {s msg} hs hslot htext := by
    have hs : s.phase = .idle [("user", "ltap"), ("replication", "true")] := hs
    have hcreated : s.created = true := by
      by_contra hcreated
      simp [slotServer, server, hcreated] at hslot
    have hletter := letter_text "CREATE_REPLICATION_SLOT " ("ltap_slot" ++ " PHYSICAL RESERVE_WAL")
      0x43 (by decide) (by rw [← String.append_assoc]; exact htext)
    refine ⟨s, notices, slotExists, notices_tags, ?_, hs, rfl⟩
    simp only [slotServer, server, react, hs, hletter, if_pos, hcreated]
  reads {s msg} hs htext := by
    have hs : s.phase = .idle [("user", "ltap"), ("replication", "true")] := hs
    have hletter := letter_text "READ_REPLICATION_SLOT " "ltap_slot" 0x52 (by decide) htext
    have hslot : slotServer.slots s "ltap_slot" = if s.created then some (some reserve) else none := by
      simp [slotServer, server]
    rw [hslot]
    refine ⟨s, notices, _, _, slotRow (if s.created then some (some reserve) else none), notices_tags, ?_, hs, rfl⟩
    simp only [slotServer, server, react, hs, hletter]
    rfl
  starts {s msg start} hs hslot htext := by
    have hs : s.phase = .idle [("user", "ltap"), ("replication", "true")] := hs
    have htext : TextMessage 0x51
        ("START_REPLICATION SLOT ltap_slot PHYSICAL " ++ fmtLsn start.val ++ " TIMELINE " ++ Nat.repr 1) msg := htext
    rw [String.append_assoc] at htext
    have hletter := letter_text "START_REPLICATION SLOT ltap_slot PHYSICAL " (fmtLsn start.val ++ _)
      0x53 (by decide) (by rw [← String.append_assoc]; exact htext)
    have hstart := startOf_text htext
    refine ⟨{ s with
      phase := .streaming [("user", "ltap"), ("replication", "true")] (some "ltap_slot") start.val (some 1) },
      notices, notices_tags, ?_, rfl,
      rfl⟩
    simp only [slotServer, server, react, hs, hletter, hstart]
    rfl

/-- A safekeeper that asks for a token. -/
def safekeeper : PgServer Session :=
  server (startupParams "ltap" true (safekeeperParams "de20" "12ab")) (some "token") none "START_REPLICATION PHYSICAL " ""

theorem safekeeper_logsIn : safekeeper.LogsIn (startupParams "ltap" true (safekeeperParams "de20" "12ab")) :=
  server_logsIn

theorem safekeeper_streams : safekeeper.Streams (startupParams "ltap" true (safekeeperParams "de20" "12ab")) := by
  intro s msg start hs htext
  have hs : s.phase = .idle (startupParams "ltap" true (safekeeperParams "de20" "12ab")) := hs
  have hletter := letter_text "START_REPLICATION PHYSICAL " (fmtLsn start.val) 0x53 (by decide) htext
  have hstart : startOf "START_REPLICATION PHYSICAL " "" msg = start.val :=
    startOf_text (by rw [String.append_empty]; exact htext)
  refine ⟨{ s with
    phase := .streaming (startupParams "ltap" true (safekeeperParams "de20" "12ab")) none start.val none },
    notices, notices_tags, fun name => ⟨?_, rfl, rfl⟩⟩
  simp only [safekeeper, server, react, hs, hletter, hstart]
  rfl

theorem sendable {s : String} (h : 0 ∉ Utf8.encode s ∧ s.length ≤ 100) : Sendable s :=
  ⟨h.1, le_trans h.2 (by decide)⟩

end Sample

/-! ## Both together -/

end Ltap
