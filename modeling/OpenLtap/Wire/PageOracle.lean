-- SUMMARY: The oracle of the engine over the wire: it dials when it must, and never gives a wrong page (`engine.rs`).
import OpenLtap.Engine.State
import OpenLtap.Wire.Handshake
import OpenLtap.Wire.PageAnswers

/-!
# The page oracle

The connection is opened at the first need. If that fails the oracle is off for good; if a
request fails the connection is dropped and opened again at the next need. A page that does not
come leaves the engine with its mirror.
-/

namespace Ltap

open Incremental Wire

/-- `engine::Oracle`, without the address. -/
structure PageOracle where
  tenant : String
  timeline : String
  token : Option String
  conn : Option Conn
  disabled : Bool

namespace PageOracle

/-- The connection, if the socket opens. A panic ends the program. -/
def connect (o : PageOracle) : Option Conn → Except Fault (Option Conn)
  | none => .ok none
  | some c =>
    match connectPageserver "open-ltap" o.tenant o.timeline o.token c with
    | (.ok (), c) => .ok (some c)
    | (.error .panic, _) => .error .panic
    | (.error (.error _), _) => .ok none

/-- The connection there is, or a new one. -/
def connected (o : PageOracle) (dial : Option Conn) : Except Fault (Option Conn) :=
  match o.conn with
  | some c => .ok (some c)
  | none => o.connect dial

def forkOf (rel : RelTag) : ForkTag := ⟨rel.spc, rel.db, rel.rel, 0⟩

/-- `Oracle::page`. What the socket gives matters only if it is opened. -/
def page (o : PageOracle) (dial : Option Conn) (rel : RelTag) (blkno : Nat) (lsn : Lsn) :
    Except Fault (Option Bytes × PageOracle) :=
  if o.disabled then .ok (none, o)
  else do
    match ← o.connected dial with
    | none => return (none, { o with conn := none, disabled := true })
    | some c =>
      match getPage (forkOf rel) blkno lsn c with
      | (.ok p, c) => return (some p, { o with conn := some c })
      | (.error .panic, _) => .error .panic
      | (.error (.error _), _) => return (none, { o with conn := none })

/-- A page that is asked for, and what the socket would give. -/
structure Ask where
  rel : RelTag
  blkno : Nat
  lsn : Nat
  dial : Option Conn

namespace Ask

def call (a : Ask) : PageCall := .page (forkOf a.rel) a.blkno a.lsn

def key (a : Ask) : RelTag × Nat × Nat := (a.rel, a.blkno, a.lsn)

end Ask

def run : PageOracle → List Ask → Except Fault (List (Option Bytes) × PageOracle)
  | o, [] => .ok ([], o)
  | o, a :: asks => do
    let (p, o) ← o.page a.dial a.rel a.blkno a.lsn
    let (ps, o) ← run o asks
    return (p :: ps, o)

end PageOracle

/-! ## Connecting keeps what is on its way -/

namespace Wire

variable {α β σ : Type} {ps : Pageserver} {issued : List (PageCall × Nat)}

/-- The operation leaves the answers on their way honest, and asks for no page. -/
def Keeps (ps : Pageserver) (issued : List (PageCall × Nat)) (p : Wire α) : Prop :=
  ∀ c, Honest ps issued c → Honest ps issued (p c).2 ∧ (p c).2.reqid = c.reqid

theorem Keeps.pure (a : α) : Keeps ps issued (pure a) := fun _ h => ⟨h, rfl⟩

theorem Keeps.lift (r : Except Fault α) : Keeps ps issued (lift r) := fun _ h => ⟨h, rfl⟩

theorem Keeps.fail (what : String) : Keeps ps issued (fail what : Wire α) := fun _ h => ⟨h, rfl⟩

theorem Keeps.write (msg : Bytes) : Keeps ps issued (write msg) := fun _ h => ⟨h.write msg, rfl⟩

theorem Keeps.bind {p : Wire α} {f : α → Wire β} (hp : Keeps ps issued p) (hf : ∀ a, Keeps ps issued (f a)) :
    Keeps ps issued (p >>= f) := by
  intro c h
  have hfirst := hp c h
  rw [bind_apply]
  generalize p c = res at hfirst ⊢
  obtain ⟨_ | a, c'⟩ := res
  · exact hfirst
  · obtain ⟨hhonest, hreqid⟩ := hf a c' hfirst.1
    exact ⟨hhonest, hreqid.trans hfirst.2⟩

theorem Keeps.ite {P : Prop} [Decidable P] {p q : Wire α} (hp : Keeps ps issued p) (hq : Keeps ps issued q) :
    Keeps ps issued (if P then p else q) := by
  split
  · exact hp
  · exact hq

theorem Keeps.context (what : String) {p : Wire α} (hp : Keeps ps issued p) : Keeps ps issued (context what p) := hp

theorem Keeps.readMsg : Keeps ps issued readMsg := by
  rintro c ⟨fs, fss, hfs, hfss, hall⟩
  cases fs with
  | nil =>
    rw [readMsg_closed hfs]
    exact ⟨⟨[], fss, hfs, hfss, hall⟩, rfl⟩
  | cons f fs =>
    rw [readMsg_frame (hfs.trans List.flatMap_cons)]
    exact ⟨⟨fs, fss, rfl, hfss, fun g hg => hall g (List.mem_cons_of_mem f hg)⟩, rfl⟩

theorem Keeps.messages {turn : σ → WireMsg → Wire (σ ⊕ α)} (hturn : ∀ s m, Keeps ps issued (turn s m)) (s : σ) :
    Keeps ps issued (messages turn s) := by
  have heach : ∀ fuel s, Keeps ps issued (eachMsg turn fuel s) := by
    intro fuel
    induction fuel with
    | zero => exact fun _ => .fail _
    | succ fuel ih =>
      refine fun s => .bind .readMsg fun m => .bind (hturn s m) fun next => ?_
      cases next with
      | inl s => exact ih s
      | inr a => exact .pure a
  exact fun c => heach _ s c

theorem awaitReadyTurn_keeps (password : Option String) (m : WireMsg) : Keeps ps issued (awaitReadyTurn password m) := by
  unfold awaitReadyTurn
  refine .ite (.bind (.lift _) fun a => ?_) (.ite (.pure _) (.ite (.pure _) (.ite (.fail _) (.fail _))))
  obtain ⟨code, rest⟩ := a
  dsimp only
  split
  · exact .pure _
  · exact .bind (.write _) fun _ => .pure _
  · exact .fail _
  · exact .fail _

theorem connectPageserver_keeps (user tenant timeline : String) (password : Option String) :
    Keeps ps issued (connectPageserver user tenant timeline password) := by
  have hcopy : ∀ (s : Unit) m, Keeps ps issued (copyBothTurn m) := fun _ _ =>
    .ite (.pure _) (.ite (.pure _) (.ite (.fail _) (.fail _)))
  exact .bind (.write _) fun _ => .bind (.messages (fun _ => awaitReadyTurn_keeps password) ()) fun _ =>
    .bind (.write _) fun _ => .context _ (.messages hcopy ())

end Wire

/-! ## The oracle -/

namespace PageOracle

variable {ps : Pageserver} {o o' : PageOracle} {a : Ask} {asks : List Ask}

/-- Each time the socket is opened, the answers that arrive on it are answers to what is asked from then on. -/
def HonestDials (ps : Pageserver) : List Ask → Prop
  | [] => True
  | a :: asks =>
    (∀ c ∈ a.dial, c.reqid = 0 ∧ Honest ps (((a :: asks).map Ask.call).zipIdx 1) c) ∧ HonestDials ps asks

/-- An open connection, with these pages still to be asked for. -/
structure Open (ps : Pageserver) (asks : List Ask) (issued : List (PageCall × Nat)) (c : Conn) : Prop where
  honest : Honest ps issued c
  fits : ∀ q ∈ issued, q.1.Fits ∧ q.2 < 2 ^ 64
  small : c.reqid + asks.length < 2 ^ 64
  own : ∀ q ∈ issued, ∀ i a, asks[i]? = some a → q.2 = c.reqid + 1 + i → q.1 = a.call

structure Ready (ps : Pageserver) (asks : List Ask) (o : PageOracle) : Prop where
  conn : ∀ c ∈ o.conn, ∃ issued, Open ps asks issued c
  off : o.disabled = true → o.conn = none

theorem open_dialed (hfits : ∀ a ∈ asks, a.call.Fits) (hlen : asks.length < 2 ^ 64) {c : Conn} (hreqid : c.reqid = 0)
    (h : Honest ps ((asks.map Ask.call).zipIdx 1) c) : Open ps asks ((asks.map Ask.call).zipIdx 1) c := by
  have hnumbered : ∀ q ∈ (asks.map Ask.call).zipIdx 1,
      1 ≤ q.2 ∧ ∃ a, asks[q.2 - 1]? = some a ∧ a.call = q.1 := by
    rintro ⟨call, n⟩ hq
    obtain ⟨hle, hget⟩ := List.mem_zipIdx_iff_le_and_getElem?_sub.mp hq
    rw [List.getElem?_map, Option.map_eq_some_iff] at hget
    exact ⟨hle, hget⟩
  refine ⟨h, fun q hq => ?_, by omega, fun q hq i a ha hnumber => ?_⟩
  · obtain ⟨hle, a, hget, hcall⟩ := hnumbered q hq
    have hlt := (List.getElem?_eq_some_iff.mp hget).1
    exact ⟨hcall ▸ hfits a (List.mem_of_getElem? hget), by omega⟩
  · obtain ⟨hle, b, hget, hcall⟩ := hnumbered q hq
    rw [show q.2 - 1 = i by omega, ha] at hget
    cases hget
    exact hcall.symm

theorem connected_open (hfits : ∀ b ∈ a :: asks, b.call.Fits) (hlen : (a :: asks).length < 2 ^ 64)
    (hready : Ready ps (a :: asks) o) (hdials : HonestDials ps (a :: asks)) {c : Conn}
    (h : o.connected a.dial = .ok (some c)) : ∃ issued, Open ps (a :: asks) issued c := by
  unfold connected at h
  split at h
  · rename_i c₀ hconn
    cases h
    exact hready.conn c hconn
  · unfold connect at h
    split at h
    · cases h
    · rename_i c₀ hdial
      obtain ⟨hreqid, hhonest⟩ := hdials.1 c₀ hdial
      have hkeeps : Keeps ps (((a :: asks).map Ask.call).zipIdx 1)
          (connectPageserver "open-ltap" o.tenant o.timeline o.token) := connectPageserver_keeps _ _ _ _
      have hkeeps := hkeeps c₀ hhonest
      split at h
      · rename_i c₁ hconnect
        cases h
        rw [hconnect] at hkeeps
        exact ⟨_, open_dialed hfits hlen (hkeeps.2.trans hreqid) hkeeps.1⟩
      · cases h
      · cases h

theorem answer_page {p : Bytes} (h : ps.answer a.call = .ok (.page p)) :
    (ps.page (forkOf a.rel) a.blkno a.lsn).map (·.val) = .ok p := by
  simp only [Ask.call, Pageserver.answer] at h
  split at h
  · rename_i q hpage
    cases h
    rw [hpage]
    rfl
  · cases h

theorem run_getPage {c c' : Conn} {r : Except Fault Bytes} (h : getPage (forkOf a.rel) a.blkno a.lsn c = (r, c')) :
    a.call.run c = (r.map PageResult.page, c') := by
  simp only [Ask.call, PageCall.run, bind_apply, h]
  cases r <;> rfl

/-- One request on an open connection. -/
theorem getPage_open (hfits : a.call.Fits) {issued : List (PageCall × Nat)} {c c' : Conn} {r : Except Fault Bytes}
    (hopen : Open ps (a :: asks) issued c) (h : getPage (forkOf a.rel) a.blkno a.lsn c = (r, c')) :
    Open ps asks issued c' ∧ ∀ p, r = .ok p → (ps.page (forkOf a.rel) a.blkno a.lsn).map (·.val) = .ok p := by
  have hsmall := hopen.small
  rw [List.length_cons] at hsmall
  have hreqid : (c.reqid + 1) % 2 ^ 64 = c.reqid + 1 := Nat.mod_eq_of_lt (by omega)
  obtain ⟨hhonest, hid, hanswer⟩ := run_honest hfits hopen.fits
    (fun q hq hnumber => hopen.own q hq 0 a rfl (by rw [hnumber, hreqid])) hopen.honest (run_getPage h)
  rw [hreqid] at hid
  refine ⟨⟨hhonest, hopen.fits, by omega, fun q hq i b hb hnumber => ?_⟩, ?_⟩
  · exact hopen.own q hq (i + 1) b hb (by omega)
  · rintro p rfl
    exact answer_page (hanswer (.page p) rfl)

/-- One page. -/
theorem page_ready (hfits : ∀ b ∈ a :: asks, b.call.Fits) (hlen : (a :: asks).length < 2 ^ 64)
    (hready : Ready ps (a :: asks) o) (hdials : HonestDials ps (a :: asks)) {answer : Option Bytes}
    (h : o.page a.dial a.rel a.blkno a.lsn = .ok (answer, o')) :
    Ready ps asks o' ∧ ∀ p, answer = some p → (ps.page (forkOf a.rel) a.blkno a.lsn).map (·.val) = .ok p := by
  unfold page at h
  by_cases hoff : o.disabled
  · rw [if_pos hoff] at h
    cases h
    exact ⟨⟨by rw [hready.off hoff]; rintro c ⟨⟩, hready.off⟩, by rintro p ⟨⟩⟩
  · rw [if_neg hoff] at h
    rcases hconnected : o.connected a.dial with _ | _ | c
    · rw [hconnected] at h
      cases h
    · rw [hconnected] at h
      cases h
      exact ⟨⟨by rintro c ⟨⟩, fun _ => rfl⟩, by rintro p ⟨⟩⟩
    · obtain ⟨issued, hopen⟩ := connected_open hfits hlen hready hdials hconnected
      rw [hconnected] at h
      simp only [bind, Except.bind] at h
      rcases hget : getPage (forkOf a.rel) a.blkno a.lsn c with ⟨(_ | _) | p, c'⟩
      · rw [hget] at h
        cases h
        exact ⟨⟨by rintro c ⟨⟩, fun _ => rfl⟩, by rintro p ⟨⟩⟩
      · rw [hget] at h
        cases h
      · rw [hget] at h
        cases h
        obtain ⟨hopen', hpage⟩ := getPage_open (hfits a List.mem_cons_self) hopen hget
        refine ⟨⟨?_, fun hdisabled => absurd hdisabled hoff⟩, ?_⟩
        · rintro _ ⟨⟩
          exact ⟨issued, hopen'⟩
        · rintro _ ⟨⟩
          exact hpage p rfl

theorem run_ready (hfits : ∀ a ∈ asks, a.call.Fits) (hlen : asks.length < 2 ^ 64) (hready : Ready ps asks o)
    (hdials : HonestDials ps asks) {answers : List (Option Bytes)} (h : o.run asks = .ok (answers, o')) :
    List.Forall₂ (fun a answer => ∀ p, answer = some p →
      (ps.page (forkOf a.rel) a.blkno a.lsn).map (·.val) = .ok p) asks answers := by
  induction asks generalizing o answers with
  | nil =>
    cases h
    exact .nil
  | cons a asks ih =>
    rw [run] at h
    rcases hpage : o.page a.dial a.rel a.blkno a.lsn with _ | ⟨answer, o₁⟩
    · rw [hpage] at h
      cases h
    rcases hrest : o₁.run asks with _ | ⟨rest, o₂⟩
    · simp only [hpage, hrest, bind, Except.bind] at h
      cases h
    · simp only [hpage, hrest, bind, Except.bind] at h
      cases h
      obtain ⟨hready', htrue⟩ := page_ready hfits hlen hready hdials hpage
      rw [List.length_cons] at hlen
      exact .cons htrue (ih (fun b hb => hfits b (List.mem_cons_of_mem a hb)) (by omega) hready' hdials.2 hrest)

/-! ### The oracle that the engine sees -/

/-- The answers as a function. -/
def seen (asks : List Ask) (answers : List (Option Bytes)) : Oracle := fun rel blkno lsn =>
  ((asks.zip answers).find? fun x => x.1.key = (rel, blkno, lsn)).bind (·.2)

theorem seen_true {answers : List (Option Bytes)} {R : Ask → Bytes → Prop}
    (h : List.Forall₂ (fun a answer => ∀ p, answer = some p → R a p) asks answers) {rel : RelTag} {blkno lsn : Nat}
    {p : Bytes} (hseen : seen asks answers rel blkno lsn = some p) : ∃ a ∈ asks, a.key = (rel, blkno, lsn) ∧ R a p := by
  obtain ⟨⟨a, answer⟩, hfind, hanswer⟩ := Option.bind_eq_some_iff.mp hseen
  have hmem := List.mem_of_find?_eq_some hfind
  have hkey := List.find?_some hfind
  exact ⟨a, (List.of_mem_zip hmem).1, of_decide_eq_true hkey, (List.forall₂_iff_zip.mp h).2 hmem p hanswer⟩

theorem seen_nodup {answers : List (Option Bytes)} (hlen : asks.length = answers.length)
    (hnodup : (asks.map Ask.key).Nodup) : answers = asks.map fun a => seen asks answers a.rel a.blkno a.lsn := by
  induction asks generalizing answers with
  | nil => exact List.eq_nil_of_length_eq_zero hlen.symm
  | cons a asks ih =>
    obtain ⟨answer, answers, rfl⟩ := List.exists_cons_of_length_pos (l := answers) (by rw [← hlen]; simp)
    rw [List.map_cons, List.nodup_cons] at hnodup
    have hfirst : seen (a :: asks) (answer :: answers) a.rel a.blkno a.lsn = answer := by simp [seen, Ask.key]
    have hrest : ∀ b ∈ asks, seen (a :: asks) (answer :: answers) b.rel b.blkno b.lsn =
        seen asks answers b.rel b.blkno b.lsn := by
      intro b hb
      have hne : a.key ≠ b.key := fun h => hnodup.1 (h ▸ List.mem_map_of_mem hb)
      rw [seen, List.zip_cons_cons, List.find?_cons_of_neg (by simpa [Ask.key] using hne), seen]
    rw [List.map_cons, hfirst, List.map_congr_left hrest, ← ih (by simpa using hlen) hnodup.2]

/-- Over connections that come and go, on which answers may be lost, repeated, late or out of order,
every page that the oracle gives is the page of the pageserver. To an engine that asks for no page
twice it is a function, which is how the engine knows it. -/
theorem run_refines (ps : Pageserver) (hconn : o.conn = none) (hfits : ∀ a ∈ asks, a.call.Fits)
    (hlen : asks.length < 2 ^ 64) (hdials : HonestDials ps asks) {answers : List (Option Bytes)}
    (h : o.run asks = .ok (answers, o')) :
    List.Forall₂ (fun a answer => ∀ p, answer = some p →
        (ps.page (forkOf a.rel) a.blkno a.lsn).map (·.val) = .ok p) asks answers ∧
      ((asks.map Ask.key).Nodup → ∃ oracle : Oracle,
        answers = asks.map (fun a => oracle a.rel a.blkno a.lsn) ∧
        ∀ rel blkno lsn p, oracle rel blkno lsn = some p → (ps.page (forkOf rel) blkno lsn).map (·.val) = .ok p) := by
  have hready : Ready ps asks o := ⟨by rw [hconn]; rintro c ⟨⟩, fun _ => hconn⟩
  have htrue := run_ready hfits hlen hready hdials h
  refine ⟨htrue, fun hnodup => ⟨seen asks answers, seen_nodup htrue.length_eq hnodup, ?_⟩⟩
  intro rel blkno lsn p hseen
  obtain ⟨a, -, hkey, hpage⟩ := seen_true htrue hseen
  cases hkey
  exact hpage

end PageOracle

namespace Sample

def oracle : PageOracle := { tenant := "de20", timeline := "12ab", token := none, conn := none, disabled := false }

def pageAnswer : WireFrame := pageserver.frame (.page (fork 16384) 1 7) 1

/-- A connection to a pageserver that answers one request. -/
def dialed : Conn where
  incoming := []
  replies := [.authOk :: (greeting ++ [.ready]), notices ++ [.copyBoth], [pageAnswer]].map (List.flatMap WireFrame.bytes)
  written := []
  reqid := 0

/-- The pageserver of `dialed` lets the client in. -/
theorem connectPageserver_dialed (user tenant timeline : String) (rest w : List Bytes) (n : Nat) :
    connectPageserver user tenant timeline none
        ⟨[], (.authOk :: (greeting ++ [.ready])).flatMap WireFrame.bytes ::
          (notices ++ [WireFrame.copyBoth]).flatMap WireFrame.bytes :: rest, w, n⟩ =
      (.ok (), ⟨[], rest,
        w ++ [startupMsg user false []] ++ [queryMsg s!"pagestream_v3 {tenant} {timeline}"], n⟩) := by
  let q := s!"pagestream_v3 {tenant} {timeline}"
  have hcopy : (sendQuery q >>= fun _ => awaitCopyBoth)
        ⟨[], ((notices ++ [WireFrame.copyBoth]).flatMap WireFrame.bytes ++ []) :: rest,
          w ++ [startupMsg user false []], n⟩ =
      (.ok (), ⟨[], rest, w ++ [startupMsg user false []] ++ [queryMsg q], n⟩) :=
    awaitCopyBoth_copyBoth notices_tags q []
  rw [List.append_nil] at hcopy
  have hlogin := exchange_bind (fun _ => awaitReadyTurn_bounded none) .ready (passes_greeting greeting_tags) (fun _ => rfl)
    (startupMsg user false []) ((notices ++ [WireFrame.copyBoth]).flatMap WireFrame.bytes :: rest) w n
    fun _ => sendQuery q >>= fun _ => context "entering pagestream" awaitCopyBoth
  refine hlogin.trans ?_
  generalize (notices ++ [WireFrame.copyBoth]).flatMap WireFrame.bytes = answer at hcopy ⊢
  have hwrite : sendQuery q ⟨[], answer :: rest, w ++ [startupMsg user false []], n⟩ =
      (.ok (), ⟨answer, rest, w ++ [startupMsg user false []] ++ [queryMsg q], n⟩) := rfl
  rw [bind_ok hwrite] at hcopy ⊢
  rw [context, hcopy]
  rfl

def ask : PageOracle.Ask := { rel := ⟨1663, 5, 16384⟩, blkno := 1, lsn := 7, dial := some dialed }

end Sample

/-- The socket is opened for the page, which comes. -/
theorem PageOracle.run_refines_dialed :
    ∃ answers o', Sample.oracle.run [Sample.ask] = .ok (answers, o') ∧
      List.Forall₂ (fun a answer => ∀ p, answer = some p →
        (Sample.pageserver.page (forkOf a.rel) a.blkno a.lsn).map (·.val) = .ok p) [Sample.ask] answers ∧
      (([Sample.ask].map Ask.key).Nodup → ∃ oracle : Oracle,
        answers = [Sample.ask].map (fun a => oracle a.rel a.blkno a.lsn) ∧
        ∀ rel blkno lsn p, oracle rel blkno lsn = some p →
          (Sample.pageserver.page (forkOf rel) blkno lsn).map (·.val) = .ok p) := by
  have hfits : ∀ a ∈ [Sample.ask], a.call.Fits := by
    simp only [List.forall_mem_cons]
    exact ⟨⟨Sample.fork_fits (by decide), (by decide : 1 < 2 ^ 32), (by decide : 7 < 2 ^ 64)⟩, by simp⟩
  have hdials : HonestDials Sample.pageserver [Sample.ask] := by
    refine ⟨?_, trivial⟩
    rintro _ ⟨⟩
    refine ⟨rfl, [], _, rfl, rfl, ?_⟩
    rintro f hf hdata
    obtain hf | hf : f ∈ [WireFrame.authOk, ⟨0x53, [0x61, 0, 0x62, 0], by decide⟩,
        ⟨0x4B, [0, 0, 0, 1, 0, 0, 0, 2], by decide⟩, .ready, ⟨0x4E, [0x4D, 0x68, 0x69, 0, 0], by decide⟩, .copyBoth] ∨
        f = Sample.pageAnswer := by
      simpa [Sample.greeting, Sample.notices, or_assoc] using hf
    · simp only [List.mem_cons, List.not_mem_nil, or_false] at hf
      rcases hf with rfl | rfl | rfl | rfl | rfl | rfl <;> cases hdata
    · exact ⟨_, List.mem_cons_self, congrArg WireFrame.payload hf⟩
  have hconnect := Sample.connectPageserver_dialed "open-ltap" "de20" "12ab"
    (served Sample.pageserver [] 0 [Sample.ask.call] ++ []) [] 0
  obtain ⟨w, hw⟩ : ∃ w, connectPageserver "open-ltap" "de20" "12ab" none Sample.dialed =
      (.ok (), ⟨[], served Sample.pageserver [] 0 [Sample.ask.call] ++ [], w, 0⟩) := ⟨_, hconnect⟩
  have hpage : Sample.ask.call.run ⟨[], served Sample.pageserver [] 0 [Sample.ask.call] ++ [], w, 0⟩ = _ :=
    run_answered (by simp) (hfits Sample.ask List.mem_cons_self) [] w 0
  have hrun : ∃ answers o', Sample.oracle.run [Sample.ask] = .ok (answers, o') := by
    have hconnected : Sample.oracle.connected Sample.ask.dial =
        .ok (some ⟨[], served Sample.pageserver [] 0 [Sample.ask.call] ++ [], w, 0⟩) := by
      simp only [connected, Sample.oracle, Sample.ask, connect, hw]
    rcases hget : getPage (forkOf Sample.ask.rel) Sample.ask.blkno Sample.ask.lsn
      ⟨[], served Sample.pageserver [] 0 [Sample.ask.call] ++ [], w, 0⟩ with ⟨_ | p, c'⟩
    · have hanswer := congrArg Prod.fst ((run_getPage (a := Sample.ask) hget).symm.trans hpage)
      cases hanswer
    · refine ⟨[some p], { Sample.oracle with conn := some c' }, ?_⟩
      rw [run, PageOracle.page, if_neg (by decide), hconnected]
      simp only [bind, Except.bind, hget]
      rfl
  obtain ⟨answers, o', hrun⟩ := hrun
  exact ⟨answers, o', hrun, run_refines Sample.pageserver rfl hfits (by decide) hdials hrun⟩

end Ltap
