-- SUMMARY: What a server can make the client say while it connects (`pgwire.rs`).
import OpenLtap.Wire.Commands

/-!
# Disclosure

Whatever a server sends, the client answers its startup with nothing but the password, and
only when it is asked for it in clear text.
-/

namespace Ltap

open Incremental Wire

/-- `AuthenticationCleartextPassword`. -/
def AsksPassword (m : WireMsg) : Prop := m.1 = 0x52 ∧ 4 ≤ m.2.length ∧ fromBe (m.2.take 4) = 3

instance (m : WireMsg) : Decidable (AsksPassword m) := inferInstanceAs (Decidable (_ ∧ _))

/-- `AuthenticationOk`, a parameter, the key data or a notice. -/
def PassedOver (m : WireMsg) : Prop :=
  m.1 = 0x53 ∨ m.1 = 0x4B ∨ m.1 = 0x4E ∨ m.1 = 0x52 ∧ 4 ≤ m.2.length ∧ fromBe (m.2.take 4) = 0

/-- The answers to the requests for a password among some messages. -/
def answers (password : Option String) (ms : List WireMsg) : List Bytes :=
  (ms.filter fun m => AsksPassword m).flatMap fun _ => (password.map passwordMsg).toList

/-- What one message makes the client do. -/
inductive ReadyTurn (password : Option String) (m : WireMsg) (c : Conn) : Except Fault (Unit ⊕ Unit) × Conn → Prop where
  | passed : PassedOver m → ReadyTurn password m c (.ok (.inl ()), c)
  | asked (pw : String) (c' : Conn) : AsksPassword m → password = some pw → write (passwordMsg pw) c = (.ok (), c') →
      ReadyTurn password m c (.ok (.inl ()), c')
  | ready : m.1 = 0x5A → ReadyTurn password m c (.ok (.inr ()), c)
  | refused (e : Fault) : (AsksPassword m → password = none) → ReadyTurn password m c (.error e, c)

theorem awaitReadyTurn_cases (password : Option String) (m : WireMsg) (c : Conn) :
    ReadyTurn password m c (awaitReadyTurn password m c) := by
  obtain ⟨tag, payload⟩ := m
  unfold awaitReadyTurn
  by_cases hauth : tag = 0x52
  · rw [if_pos hauth, bind_apply, lift_apply, getUint]
    by_cases hshort : payload.length < 4
    · rw [if_pos hshort]
      exact .refused _ fun hasks => absurd hshort (not_lt.mpr hasks.2.1)
    · have hlen : 4 ≤ payload.length := not_lt.mp hshort
      have hcleartext : AsksPassword (tag, payload) ↔ fromBe (payload.take 4) = 3 :=
        ⟨fun h => h.2.2, fun h => ⟨hauth, hlen, h⟩⟩
      have hgranted : fromBe (payload.take 4) = 0 → PassedOver (tag, payload) := fun h =>
        .inr (.inr (.inr ⟨hauth, hlen, h⟩))
      rw [if_neg hshort]
      generalize fromBe (payload.take 4) = code at hcleartext hgranted
      rcases code with _ | _ | _ | _ | code
      · exact .passed (hgranted rfl)
      · exact .refused _ fun hasks => absurd (hcleartext.mp hasks) (by decide)
      · exact .refused _ fun hasks => absurd (hcleartext.mp hasks) (by decide)
      · cases password with
        | none => exact .refused _ fun _ => rfl
        | some pw => exact .asked pw _ (hcleartext.mpr rfl) rfl rfl
      · exact .refused _ fun hasks => absurd (hcleartext.mp hasks) (by omega)
  · have hasks : ¬ AsksPassword (tag, payload) := fun h => hauth h.1
    rw [if_neg hauth]
    split
    · rename_i hskip
      rcases hskip with h | h | h
      · exact .passed (.inl h)
      · exact .passed (.inr (.inl h))
      · exact .passed (.inr (.inr (.inl h)))
    split
    · exact .ready (by assumption)
    split
    · exact .refused _ fun h => absurd h hasks
    · exact .refused _ fun h => absurd h hasks

theorem PassedOver.not_asks {m : WireMsg} (h : PassedOver m) : ¬ AsksPassword m := by
  intro hasks
  rcases h with hm | hm | hm | ⟨-, -, hm⟩
  · exact absurd (hasks.1.symm.trans hm) (by decide)
  · exact absurd (hasks.1.symm.trans hm) (by decide)
  · exact absurd (hasks.1.symm.trans hm) (by decide)
  · exact absurd (hasks.2.2.symm.trans hm) (by decide)

theorem messages_conn {turn : Unit → WireMsg → Wire (Unit ⊕ Unit)} {c c' : Conn} {r : Except Fault Unit} {fuel : Nat}
    (h : eachMsg turn (fuel + 1) () c = (r, c')) :
    (∃ e, r = .error e ∧ c' = c) ∨
      ∃ m rest, pollMsg c.incoming = .ready m rest ∧
        (match turn () m { c with incoming := rest } with
          | (.ok (.inl ()), c₁) => eachMsg turn fuel () c₁ = (r, c')
          | (.ok (.inr ()), c₁) => r = .ok () ∧ c' = c₁
          | (.error e, c₁) => r = .error e ∧ c' = c₁) := by
  rw [eachMsg, bind_apply] at h
  simp only [Wire.readMsg] at h
  split at h
  · rename_i m c₁ hread
    split at hread
    · rename_i m' rest hpoll
      cases hread
      refine .inr ⟨m, rest, hpoll, ?_⟩
      rw [bind_apply] at h
      split at h
      · rename_i next c₂ hturn
        rw [hturn]
        obtain ⟨⟨⟩⟩ | ⟨⟨⟩⟩ := next
        · exact h
        · cases h
          exact ⟨rfl, rfl⟩
      · rename_i e c₂ hturn
        cases h
        rw [hturn]
        exact ⟨rfl, rfl⟩
    · cases hread
    · cases hread
  · rename_i e c₁ hread
    cases h
    split at hread <;> cases hread <;> exact .inl ⟨_, rfl, rfl⟩

/-- The dialogue of the startup: `ms` were read of what the server sends, the requests for the
password among them were answered, and nothing else was written. -/
structure Dialogue (password : Option String) (c : Conn) (ms : List WireMsg) (r : Except Fault Unit) (c' : Conn) :
    Prop where
  read : readMsg.Taken (c.incoming ++ (c.replies.take (answers password ms).length).flatten) ms c'.incoming
  written : c'.written = c.written ++ answers password ms
  finished : r = .ok () → ∃ init m, ms = init ++ [m] ∧ m.1 = 0x5A ∧ ∀ x ∈ init, PassedOver x ∨ AsksPassword x

theorem Dialogue.cons {password : Option String} {m : WireMsg} {ms : List WireMsg} {rest : Bytes} {c c₁ c' : Conn}
    {r : Except Fault Unit} (hpoll : readMsg.poll c.incoming = .ready m rest)
    (hincoming : c₁.incoming = rest ++ (c.replies.take (answers password [m]).length).flatten)
    (hreplies : c₁.replies = c.replies.drop (answers password [m]).length)
    (hwritten : c₁.written = c.written ++ answers password [m]) (hm : PassedOver m ∨ AsksPassword m)
    (h : Dialogue password c₁ ms r c') : Dialogue password c (m :: ms) r c' := by
  have hcons : answers password (m :: ms) = answers password [m] ++ answers password ms := by
    simp only [answers, ← List.flatMap_append, ← List.filter_append, List.singleton_append]
  refine ⟨?_, ?_, ?_⟩
  · have hread := h.read
    rw [hincoming, hreplies, List.append_assoc, ← List.flatten_append, ← List.take_add, ← List.length_append,
      ← hcons] at hread
    exact (((Decoder.Taken.start c.incoming).ready hpoll).arrive _).trans hread
  · rw [h.written, hwritten, List.append_assoc, hcons]
  · intro hr
    obtain ⟨init, last, rfl, hlast, hinit⟩ := h.finished hr
    exact ⟨m :: init, last, rfl, hlast, List.forall_mem_cons.mpr ⟨hm, hinit⟩⟩

theorem Dialogue.stop {password : Option String} {c : Conn} {e : Fault} : Dialogue password c [] (.error e) c :=
  ⟨by simpa [answers] using Decoder.Taken.start c.incoming, by simp [answers], by rintro ⟨⟩⟩

/-- A message that was read and not answered, behind which the dialogue ends. -/
theorem Dialogue.last {password : Option String} {m : WireMsg} {rest : Bytes} {c : Conn} {r : Except Fault Unit}
    (hpoll : readMsg.poll c.incoming = .ready m rest) (hnone : AsksPassword m → password = none)
    (hr : r = .ok () → m.1 = 0x5A) : Dialogue password c [m] r { c with incoming := rest } := by
  have hanswers : answers password [m] = [] := by
    by_cases hm : AsksPassword m
    · rw [hnone hm]
      simp [answers]
    · simp [answers, hm]
  refine ⟨?_, by rw [hanswers, List.append_nil], fun hok => ⟨[], m, rfl, hr hok, by simp⟩⟩
  rw [hanswers]
  simpa using (Decoder.Taken.start c.incoming).ready hpoll

theorem eachMsg_dialogue (password : Option String) (fuel : Nat) (c : Conn) :
    ∃ ms, Dialogue password c ms (eachMsg (fun _ => awaitReadyTurn password) fuel () c).1
      (eachMsg (fun _ => awaitReadyTurn password) fuel () c).2 := by
  induction fuel generalizing c with
  | zero => exact ⟨[], .stop⟩
  | succ fuel ih =>
    cases hrun : eachMsg (fun _ => awaitReadyTurn password) (fuel + 1) () c with
    | mk r c' =>
      obtain ⟨e, rfl, rfl⟩ | ⟨m, rest, hpoll, hturn⟩ := messages_conn hrun
      · exact ⟨[], .stop⟩
      generalize hres : awaitReadyTurn password m { c with incoming := rest } = res at hturn
      have hcase := awaitReadyTurn_cases password m { c with incoming := rest }
      rw [hres] at hcase
      cases hcase with
      | passed hpassed =>
        have hanswers : answers password [m] = [] := by simp [answers, hpassed.not_asks]
        obtain ⟨ms, hms⟩ := ih { c with incoming := rest }
        rw [hturn] at hms
        refine ⟨m :: ms, Dialogue.cons hpoll ?_ ?_ ?_ (.inl hpassed) hms⟩ <;> simp [hanswers]
      | asked pw c₁ hasks hpw hwrite =>
        have hanswers : answers password [m] = [passwordMsg pw] := by simp [answers, hasks, hpw]
        obtain ⟨ms, hms⟩ := ih c₁
        rw [hturn] at hms
        cases hwrite
        refine ⟨m :: ms, Dialogue.cons hpoll ?_ ?_ ?_ (.inr hasks) hms⟩
        · rw [hanswers]
          cases c.replies <;> simp
        · rw [hanswers]
          exact (List.drop_one).symm
        · rw [hanswers]
      | ready hready =>
        obtain ⟨rfl, rfl⟩ := hturn
        refine ⟨[m], .last hpoll (fun h => ?_) fun _ => hready⟩
        exact absurd (h.1.symm.trans hready) (by decide)
      | refused e hnone =>
        obtain ⟨rfl, rfl⟩ := hturn
        exact ⟨[m], .last hpoll hnone (by rintro ⟨⟩)⟩

/-- Whatever the server sends: behind its startup packet the client writes nothing but the
configured password, once for each request for it in clear text that it has read. It connects only
when the server has declared itself ready, and nothing in front of that was anything else. -/
theorem connect_discloses (user : String) (extraParams : List (String × String)) (password : Option String) (c : Conn) :
    ∃ ms, (connect user extraParams password c).2.written =
        c.written ++ startupMsg user true extraParams ::
          (ms.filter fun m => AsksPassword m).flatMap (fun _ => (password.map passwordMsg).toList) ∧
      readMsg.Taken (c.incoming ++ (c.replies.take (1 + (answers password ms).length)).flatten) ms
        (connect user extraParams password c).2.incoming ∧
      ((connect user extraParams password c).1 = .ok () →
        ∃ init m, ms = init ++ [m] ∧ m.1 = 0x5A ∧ ∀ x ∈ init, PassedOver x ∨ AsksPassword x) := by
  have hwrite : sendStartup user true extraParams c = (.ok (), { c with
      written := c.written ++ [startupMsg user true extraParams]
      incoming := c.incoming ++ c.replies.headD [], replies := c.replies.tail }) := rfl
  rw [connect, bind_ok hwrite]
  generalize hstarted : Conn.mk _ _ _ _ = started
  obtain ⟨ms, hms⟩ := eachMsg_dialogue password (started.size + 1) started
  subst hstarted
  refine ⟨ms, ?_, ?_, hms.finished⟩
  · have hwritten := hms.written
    rw [List.append_assoc] at hwritten
    exact hwritten
  · have hread := hms.read
    have htake : (c.replies.take (1 + (answers password ms).length)).flatten =
        c.replies.headD [] ++ (c.replies.tail.take (answers password ms).length).flatten := by
      cases hreplies : c.replies with
      | nil => simp
      | cons r rs => simp [Nat.add_comm 1]
    rw [htake, ← List.append_assoc]
    exact hread

end Ltap
