-- SUMMARY: Runs over the pagestream: an answer is never taken for another, and answers in order all arrive.
import OpenLtap.Wire.Pagestream

/-!
# Answers

First the answers come in any way at all: late, twice, in another order or never. What a
call returns is nevertheless the answer to its own request. Then they come in turn, and
every call gets its own, also behind one that failed.
-/

namespace Ltap

open Incremental Wire

/-! ## In any way -/

section Honest

variable {ps : Pageserver} {issued : List (PageCall × Nat)} {c : Conn}

/-- Whole messages arrive, and the answers among them are answers to these requests. Which, how
often, in what order and how early is left open. -/
def Honest (ps : Pageserver) (issued : List (PageCall × Nat)) (c : Conn) : Prop :=
  ∃ (fs : List WireFrame) (fss : List (List WireFrame)),
    c.incoming = fs.flatMap WireFrame.bytes ∧ c.replies = fss.map (List.flatMap WireFrame.bytes) ∧
    ∀ f ∈ fs ++ fss.flatten, f.tag = 0x64 → ∃ q ∈ issued, f.payload = ps.respond (q.1.request q.2)

theorem Honest.write (h : Honest ps issued c) (msg : Bytes) : Honest ps issued (Wire.write msg c).2 := by
  obtain ⟨fs, fss, hfs, hfss, hall⟩ := h
  cases fss with
  | nil => exact ⟨fs, [], by simp [Wire.write, hfs, hfss], by simp [Wire.write, hfss], hall⟩
  | cons gs fss =>
    refine ⟨fs ++ gs, fss, ?_, ?_, fun f hf => hall f (by simpa using hf)⟩
    · simp [Wire.write, hfs, hfss]
    · simp [Wire.write, hfss]

theorem pagestreamTurn_bounded (what : String) (m : WireMsg) : Bounded (pagestreamTurn what m) :=
  .ite (.pure _) (.ite (.pure _) (.ite (.fail _) (.ite (.fail _) (.fail _))))

/-- What one message makes of a wait: an answer ends it. -/
theorem pagestreamTurn_cases (what : String) (f : WireFrame) (c : Conn) :
    f.tag = 0x64 ∧ pagestreamTurn what f.msg c = (.ok (.inr f.payload), c) ∨
      pagestreamTurn what f.msg c = (.ok (.inl ()), c) ∨ ∃ e, pagestreamTurn what f.msg c = (.error e, c) := by
  unfold pagestreamTurn
  by_cases hdata : f.tag = 0x64
  · exact .inl ⟨hdata, by rw [WireFrame.msg, if_pos hdata]; rfl⟩
  · rw [WireFrame.msg, if_neg hdata]
    right
    split
    · exact .inl rfl
    split
    · exact .inr ⟨_, rfl⟩
    split
    · exact .inr ⟨_, rfl⟩
    · exact .inr ⟨_, rfl⟩

/-- The next answer taken off the stream is one of those. -/
theorem messages_honest (what : String) (h : Honest ps issued c) {r : Except Fault Bytes} {c' : Conn}
    (hrun : messages (fun _ => pagestreamTurn what) () c = (r, c')) :
    Honest ps issued c' ∧ c'.reqid = c.reqid ∧
      ∀ resp, r = .ok resp → ∃ q ∈ issued, resp = ps.respond (q.1.request q.2) := by
  obtain ⟨fs, fss, hfs, hfss, hall⟩ := h
  induction fs generalizing c with
  | nil =>
    have hclosed : messages (fun _ => pagestreamTurn what) () c = (bail "connection closed by server", c) := by
      rw [messages, eachMsg, bind_apply, readMsg_closed hfs]
      rfl
    rw [hclosed] at hrun
    cases hrun
    exact ⟨⟨[], fss, hfs, hfss, hall⟩, rfl, by rintro resp ⟨⟩⟩
  | cons f fs ih =>
    have hbounded : ∀ (s : Unit) m, Bounded (pagestreamTurn what m) := fun _ => pagestreamTurn_bounded what
    have hrest : Honest ps issued { c with incoming := fs.flatMap WireFrame.bytes } :=
      ⟨fs, fss, rfl, hfss, fun g hg => hall g (List.mem_cons_of_mem f hg)⟩
    rw [messages_turn hbounded () (hfs.trans List.flatMap_cons)] at hrun
    obtain ⟨htag, hturn⟩ | hturn | ⟨e, hturn⟩ :=
      pagestreamTurn_cases what f { c with incoming := fs.flatMap WireFrame.bytes }
    · rw [hturn] at hrun
      cases hrun
      refine ⟨hrest, rfl, ?_⟩
      rintro resp ⟨⟩
      exact hall f List.mem_cons_self htag
    · rw [hturn] at hrun
      exact ih (c := { c with incoming := fs.flatMap WireFrame.bytes }) hrun rfl hfss fun g hg =>
        hall g (List.mem_cons_of_mem f hg)
    · rw [hturn] at hrun
      cases hrun
      exact ⟨hrest, rfl, by rintro resp ⟨⟩⟩

theorem run_apply (call : PageCall) (c : Conn) {reqid : Nat} (hreqid : (c.reqid + 1) % 2 ^ 64 = reqid) :
    call.run c =
      match messages (fun _ => pagestreamTurn call.what) ()
        (Wire.write (wireMsg 0x64 (call.request reqid)) { c with reqid }).2 with
      | (.ok resp, c') => (matchResponse call.wantTag call.what c'.reqid resp >>= call.read, c')
      | (.error e, c') => (.error e, c') := by
  let started : Conn := (Wire.write (wireMsg 0x64 (call.request reqid)) { c with reqid }).2
  have hwrite : Wire.write (wireMsg 0x64 (call.request reqid)) { c with reqid } = (.ok (), started) := rfl
  rw [PageCall.run_eq, hreqid, bind_apply, pagestreamRoundtrip, bind_ok hwrite, bind_apply, hwrite]
  rcases messages (fun _ => pagestreamTurn call.what) () started with ⟨_ | resp, c'⟩
  · rfl
  · dsimp only
    rw [bind_ok (rfl : currentReqid c' = (.ok c'.reqid, c')), lift_apply]
    rcases matchResponse call.wantTag call.what c'.reqid resp with _ | resp <;> rfl

/-- One call, where the number it uses belongs to no other. -/
theorem run_honest {call : PageCall} (hfits : call.Fits) (hissued : ∀ q ∈ issued, q.1.Fits ∧ q.2 < 2 ^ 64)
    (hown : ∀ q ∈ issued, q.2 = (c.reqid + 1) % 2 ^ 64 → q.1 = call) (h : Honest ps issued c)
    {r : Except Fault PageResult} {c' : Conn} (hrun : call.run c = (r, c')) :
    Honest ps issued c' ∧ c'.reqid = (c.reqid + 1) % 2 ^ 64 ∧ ∀ v, r = .ok v → ps.answer call = .ok v := by
  have hreqid : (c.reqid + 1) % 2 ^ 64 < 2 ^ 64 := Nat.mod_lt _ (by decide)
  rw [run_apply call c rfl] at hrun
  generalize (c.reqid + 1) % 2 ^ 64 = reqid at *
  have hwritten : Honest ps issued (Wire.write (wireMsg 0x64 (call.request reqid)) { c with reqid }).2 :=
    Honest.write (c := { c with reqid }) h _
  rcases hmessages : messages (fun _ => pagestreamTurn call.what) ()
    (Wire.write (wireMsg 0x64 (call.request reqid)) { c with reqid }).2 with ⟨_ | resp, c₁⟩
  · obtain ⟨hhonest, hid, -⟩ := messages_honest call.what hwritten hmessages
    rw [hmessages] at hrun
    cases hrun
    exact ⟨hhonest, hid, by rintro v ⟨⟩⟩
  · obtain ⟨hhonest, hid, hresp⟩ := messages_honest call.what hwritten hmessages
    obtain ⟨q, hq, rfl⟩ := hresp resp rfl
    have hid' : c₁.reqid = reqid := hid
    rw [hmessages] at hrun
    dsimp only at hrun
    rw [hid'] at hrun
    cases hrun
    refine ⟨hhonest, hid', fun v hv => ?_⟩
    by_cases hnumber : q.2 = reqid
    · rw [hnumber, hown q hq hnumber, PageCall.match_own ps hfits hreqid] at hv
      exact hv
    · rcases hmatch : matchResponse call.wantTag call.what reqid (ps.respond (q.1.request q.2)) with _ | resp
      · rw [hmatch] at hv
        cases hv
      · exact absurd hmatch (PageCall.match_other ps (hissued q hq).1 (hissued q hq).2 hnumber)

theorem runCalls_honest {calls : List PageCall} (hfits : ∀ call ∈ calls, call.Fits)
    (hissued : ∀ q ∈ issued, q.1.Fits ∧ q.2 < 2 ^ 64) (hsmall : c.reqid + calls.length < 2 ^ 64)
    (hown : ∀ q ∈ issued, ∀ i call, calls[i]? = some call → q.2 = c.reqid + 1 + i → q.1 = call)
    (h : Honest ps issued c) :
    List.Forall₂ (fun call r => ∀ v, r = .ok v → ps.answer call = .ok v) calls (runCalls calls c).1 ∧
      Honest ps issued (runCalls calls c).2 := by
  induction calls generalizing c with
  | nil => exact ⟨.nil, h⟩
  | cons call calls ih =>
    rw [List.length_cons] at hsmall
    have hreqid : (c.reqid + 1) % 2 ^ 64 = c.reqid + 1 := Nat.mod_eq_of_lt (by omega)
    rcases hrun : call.run c with ⟨r, c'⟩
    obtain ⟨hhonest, hid, hanswer⟩ := run_honest (hfits call List.mem_cons_self) hissued
      (fun q hq hnumber => hown q hq 0 call rfl (by rw [hnumber, hreqid])) h hrun
    rw [hreqid] at hid
    obtain ⟨hrest, hend⟩ := ih (fun other hother => hfits other (List.mem_cons_of_mem call hother))
      (by rw [hid]; omega) (fun q hq i other hother hnumber => hown q hq (i + 1) other hother (by omega)) hhonest
    simp only [runCalls, hrun]
    exact ⟨.cons hanswer hrest, hend⟩

/-- Whatever answers are lost, repeated, reordered or late, what a call returns is what the
pageserver answers to that call. -/
theorem runCalls_safe (ps : Pageserver) {calls : List PageCall} (hfits : ∀ call ∈ calls, call.Fits)
    (hsmall : c.reqid + calls.length < 2 ^ 64) (h : Honest ps (calls.zipIdx (c.reqid + 1)) c) :
    List.Forall₂ (fun call r => ∀ v, r = .ok v → ps.answer call = .ok v) calls (runCalls calls c).1 := by
  have hnumbered : ∀ q ∈ calls.zipIdx (c.reqid + 1), c.reqid + 1 ≤ q.2 ∧ calls[q.2 - (c.reqid + 1)]? = some q.1 := by
    rintro ⟨call, n⟩ hq
    exact List.mem_zipIdx_iff_le_and_getElem?_sub.mp hq
  refine (runCalls_honest hfits (fun q hq => ?_) hsmall (fun q hq i call hcall hnumber => ?_) h).1
  · obtain ⟨hle, hget⟩ := hnumbered q hq
    have hlt := (List.getElem?_eq_some_iff.mp hget).1
    exact ⟨hfits q.1 (List.mem_of_getElem? hget), by omega⟩
  · obtain ⟨hle, hget⟩ := hnumbered q hq
    rw [show q.2 - (c.reqid + 1) = i by omega, hcall] at hget
    cases hget
    rfl

end Honest

namespace Sample

/-- One relation of two blocks. -/
def pageserver : Pageserver where
  relExists rel _ := .ok (rel.relnode = 16384)
  relNblocks rel _ := .ok ⟨if rel.relnode = 16384 then 2 else 0, by split <;> decide⟩
  page rel blkno _ :=
    if rel.relnode = 16384 then .ok ⟨List.replicate 8192 (UInt8.ofNat blkno), List.length_replicate⟩
    else .error ⟨"no such relation", by decide, by decide⟩

def fork (relnode : Oid) : ForkTag := ⟨1663, 5, relnode, 0⟩

theorem fork_fits {relnode : Oid} (h : relnode < 2 ^ 32) : (fork relnode).Fits :=
  ⟨(by decide : 1663 < 2 ^ 32), (by decide : 5 < 2 ^ 32), h⟩

def firstAnswer : WireFrame := pageserver.frame (.nblocks (fork 16384) 7) 1

def secondAnswer : WireFrame := pageserver.frame (.page (fork 16384) 1 7) 2

/-- The first answer comes twice, the second time in front of the second answer. -/
def repeated : Conn where
  incoming := []
  replies := [[firstAnswer], [firstAnswer, secondAnswer]].map (List.flatMap WireFrame.bytes)
  written := []
  reqid := 0

end Sample

theorem runCalls_safe_repeated :
    List.Forall₂ (fun call r => ∀ v, r = .ok v → Sample.pageserver.answer call = .ok v)
      [.nblocks (Sample.fork 16384) 7, .page (Sample.fork 16384) 1 7]
      (runCalls [.nblocks (Sample.fork 16384) 7, .page (Sample.fork 16384) 1 7] Sample.repeated).1 := by
  have hfork : (Sample.fork 16384).Fits := Sample.fork_fits (by decide)
  refine runCalls_safe (c := Sample.repeated) Sample.pageserver ?_ (by decide) ⟨[], _, rfl, rfl, ?_⟩
  · simp only [List.forall_mem_cons]
    exact ⟨⟨hfork, by decide⟩, ⟨hfork, by decide, by decide⟩, by simp⟩
  · simp only [List.nil_append, List.flatten_cons, List.flatten_nil, List.append_nil, List.cons_append,
      List.forall_mem_cons]
    exact ⟨fun _ => ⟨_, List.mem_cons_self, rfl⟩, fun _ => ⟨_, List.mem_cons_self, rfl⟩,
      fun _ => ⟨_, List.mem_cons_of_mem _ List.mem_cons_self, rfl⟩, by simp⟩

/-! ## In turn -/

section Served

variable (ps : Pageserver) (notices : List WireFrame)

/-- The answers to some calls in turn, each behind some notices. -/
def served : Nat → List PageCall → List Bytes
  | _, [] => []
  | reqid, call :: calls =>
    let next := (reqid + 1) % 2 ^ 64
    (notices ++ [ps.frame call next]).flatMap WireFrame.bytes :: served next calls

/-- What the calls write. -/
def requestMsgs : Nat → List PageCall → List Bytes
  | _, [] => []
  | reqid, call :: calls =>
    let next := (reqid + 1) % 2 ^ 64
    wireMsg 0x64 (call.request next) :: requestMsgs next calls

variable {ps notices}

theorem run_answered (hnotices : ∀ f ∈ notices, f.tag = 0x4E) {call : PageCall} (hfits : call.Fits) (rest w : List Bytes)
    (reqid : Nat) :
    call.run ⟨[], served ps notices reqid [call] ++ rest, w, reqid⟩ =
      (ps.answer call, ⟨[], rest, w ++ requestMsgs reqid [call], (reqid + 1) % 2 ^ 64⟩) := by
  have hsmall : (reqid + 1) % 2 ^ 64 < 2 ^ 64 := Nat.mod_lt _ (by decide)
  have hpassed : Passes (fun _ => pagestreamTurn call.what) () notices () := by
    refine .same fun f hf c => ?_
    rw [pagestreamTurn, WireFrame.msg, hnotices f hf, if_neg (by simp), if_pos rfl]
    rfl
  have hlast : ∀ c, pagestreamTurn call.what (ps.frame call ((reqid + 1) % 2 ^ 64)).msg c =
      (.ok (.inr (ps.respond (call.request ((reqid + 1) % 2 ^ 64)))), c) := fun _ => rfl
  rw [run_apply call _ rfl, messages_passes (fun _ => pagestreamTurn_bounded call.what) hpassed hlast []
    (List.append_nil _).symm]
  exact congrArg (·, _) (PageCall.match_own ps hfits hsmall)

/-- A server that answers in turn answers every call, and what a call could not get does not
disturb the ones behind it. -/
theorem runCalls_served (hnotices : ∀ f ∈ notices, f.tag = 0x4E) {calls : List PageCall}
    (hfits : ∀ call ∈ calls, call.Fits) (rest w : List Bytes) {reqid : Nat} (hreqid : reqid < 2 ^ 64) :
    runCalls calls ⟨[], served ps notices reqid calls ++ rest, w, reqid⟩ =
      (calls.map ps.answer, ⟨[], rest, w ++ requestMsgs reqid calls, (reqid + calls.length) % 2 ^ 64⟩) := by
  induction calls generalizing w reqid with
  | nil =>
    simp only [runCalls, served, requestMsgs, List.nil_append, List.append_nil, List.map_nil, List.length_nil,
      Nat.add_zero, Nat.mod_eq_of_lt hreqid]
  | cons call calls ih =>
    have hfirst : call.run ⟨[], served ps notices reqid [call] ++
        (served ps notices ((reqid + 1) % 2 ^ 64) calls ++ rest), w, reqid⟩ = _ :=
      run_answered hnotices (hfits call List.mem_cons_self) _ w reqid
    have hrest := ih (fun other hother => hfits other (List.mem_cons_of_mem call hother)) (w ++ requestMsgs reqid [call])
      (Nat.mod_lt (reqid + 1) (by decide : 0 < 2 ^ 64))
    simp only [served, requestMsgs, List.cons_append, List.nil_append] at hfirst hrest ⊢
    simp only [runCalls, hfirst, hrest, List.map_cons, List.append_assoc, List.cons_append, List.nil_append,
      List.length_cons, Nat.mod_add_mod]
    rw [show reqid + 1 + calls.length = reqid + (calls.length + 1) by omega]

end Served

/-- The first relation is missing, and the second one is there. -/
theorem runCalls_served_missing :
    let calls : List PageCall := [.page (Sample.fork 1) 0 7, .nblocks (Sample.fork 16384) 7]
    runCalls calls ⟨[], served Sample.pageserver [⟨0x4E, [0], by decide⟩] 0 calls ++ [], [], 0⟩ =
      ([bail "GetPage: pageserver error: no such relation", .ok (.nblocks 2)],
        ⟨[], [], requestMsgs 0 calls, 2⟩) := by
  have hcalls : ∀ call ∈ [PageCall.page (Sample.fork 1) 0 7, .nblocks (Sample.fork 16384) 7], call.Fits := by
    simp only [List.forall_mem_cons]
    exact ⟨⟨Sample.fork_fits (by decide), by decide, by decide⟩, ⟨Sample.fork_fits (by decide), by decide⟩, by simp⟩
  exact runCalls_served (by simp) hcalls [] [] (by decide)

end Ltap
