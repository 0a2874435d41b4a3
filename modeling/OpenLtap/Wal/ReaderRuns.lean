-- SUMMARY: The WAL reader over any sequence of calls with any bytes: it terminates and keeps its place.
import OpenLtap.Wal.Reader

/-!
# Runs of the WAL reader

The bytes need not be WAL. Each turn of the loop leaves the reader with less to do, and it
knows at every time where in the stream it is. A call may fail; the reader that it leaves
takes the next one.
-/

namespace Ltap

namespace WalReader

/-! ## The loop -/

/-- The `loop` of `feed` comes to its end, with this reader and this result. -/
inductive Loop : WalReader → List (Lsn × Bytes) → WalReader → Except FeedError (List (Lsn × Bytes)) → Prop where
  | empty {r : WalReader} {out : List (Lsn × Bytes)} : r.pending = [] → Loop r out r (.ok out)
  | wait {r : WalReader} {out : List (Lsn × Bytes)} : r.pending ≠ [] → r.turn = .wait → Loop r out r (.ok out)
  | fail {r : WalReader} {out : List (Lsn × Bytes)} {e : FeedError} :
    r.pending ≠ [] → r.turn = .fail e → Loop r out r (.error e)
  | go {r r' r'' : WalReader} {out : List (Lsn × Bytes)} {o : Option (Lsn × Bytes)}
    {res : Except FeedError (List (Lsn × Bytes))} :
    r.pending ≠ [] → r.turn = .go r' o → Loop r' (out ++ o.toList) r'' res → Loop r out r'' res

/-- One call, with the reader it leaves also where it fails. -/
inductive Fed (r : WalReader) (startLsn : Lsn) (data : Bytes) :
    WalReader → Except FeedError (List (Lsn × Bytes)) → Prop where
  | gap : startLsn ≠ r.receivedEnd → Fed r startLsn data r (.error (.gap r.receivedEnd startLsn))
  | loop {r' : WalReader} {res : Except FeedError (List (Lsn × Bytes))} :
    startLsn = r.receivedEnd → Loop { r with pending := r.pending ++ data } [] r' res → Fed r startLsn data r' res

/-- Calls from a new reader on, with the bytes that were taken in and the records returned. A
call that fails returns none. -/
inductive Calls (startLsn : Lsn) : Nat → List (Lsn × Bytes) → WalReader → Prop where
  | new : Calls startLsn 0 [] (new startLsn)
  | feed {n : Nat} {recs : List (Lsn × Bytes)} {r r' : WalReader} {lsn : Lsn} {data : Bytes}
    {res : Except FeedError (List (Lsn × Bytes))} :
    Calls startLsn n recs r → Fed r lsn data r' res →
    Calls startLsn (if lsn = startLsn + n then n + data.length else n) (recs ++ res.toOption.getD []) r'

theorem Loop.total {r : WalReader} (ha : r.Assembling) (out : List (Lsn × Bytes)) :
    ∃ r' res, Loop r out r' res := by
  by_cases hpending : r.pending = []
  · exact ⟨r, _, .empty hpending⟩
  cases hturn : r.turn with
  | wait => exact ⟨r, _, .wait hpending hturn⟩
  | fail e => exact ⟨r, _, .fail hpending hturn⟩
  | go r' o =>
    have hturned := turn_turned ha hpending hturn
    have := hturned.turnsLeft
    obtain ⟨r'', res, hloop⟩ := Loop.total hturned.assembling (out ++ o.toList)
    exact ⟨r'', res, .go hpending hturn hloop⟩
termination_by r.turnsLeft

/-- The bound on the turns does not change the result. -/
theorem Loop.feedLoop_eq {r r' : WalReader} {out : List (Lsn × Bytes)}
    {res : Except FeedError (List (Lsn × Bytes))} (h : Loop r out r' res) (ha : r.Assembling) {fuel : Nat}
    (hfuel : r.turnsLeft < fuel) : feedLoop fuel r out = res.map (r', ·) := by
  induction h generalizing fuel with
  | empty hpending =>
    obtain ⟨fuel, rfl⟩ : ∃ k, fuel = k + 1 := ⟨fuel - 1, by omega⟩
    rw [feedLoop, if_pos hpending]
    rfl
  | wait hpending hturn | fail hpending hturn =>
    obtain ⟨fuel, rfl⟩ : ∃ k, fuel = k + 1 := ⟨fuel - 1, by omega⟩
    rw [feedLoop, if_neg hpending, hturn]
    rfl
  | go hpending hturn _ ih =>
    obtain ⟨fuel, rfl⟩ : ∃ k, fuel = k + 1 := ⟨fuel - 1, by omega⟩
    have hturned := turn_turned ha hpending hturn
    have := hturned.turnsLeft
    rw [feedLoop, if_neg hpending, hturn]
    exact ih hturned.assembling (by omega)

theorem Fed.total {r : WalReader} (ha : r.Assembling) (startLsn : Lsn) (data : Bytes) :
    ∃ r' res, Fed r startLsn data r' res := by
  by_cases hstart : startLsn = r.receivedEnd
  · obtain ⟨r', res, hloop⟩ := Loop.total (r := { r with pending := r.pending ++ data }) ha []
    exact ⟨r', res, .loop hstart hloop⟩
  · exact ⟨r, _, .gap hstart⟩

theorem Fed.feed_eq {r r' : WalReader} {startLsn : Lsn} {data : Bytes} {res : Except FeedError (List (Lsn × Bytes))}
    (h : Fed r startLsn data r' res) (ha : r.Assembling) : r.feed startLsn data = res.map (r', ·) := by
  cases h with
  | gap hgap =>
    rw [feed]
    exact if_pos hgap
  | loop hstart hloop =>
    have hfuel : turnsLeft { r with pending := r.pending ++ data } <
        fuelFor { r with pending := r.pending ++ data } := by
      simp only [turnsLeft, fuelFor]
      split <;> omega
    rw [feed]
    exact (if_neg (not_not.mpr hstart)).trans (hloop.feedLoop_eq ha hfuel)

/-- Only the check in front of the loop refuses a gap. -/
theorem turn_not_gap {r : WalReader} {expected got : Lsn} : r.turn ≠ .fail (.gap expected got) := by
  simp only [turn, pageHeader, discard, accumulate, newRecord]
  repeat' split
  all_goals rintro ⟨⟩

theorem Loop.not_gap {r r' : WalReader} {out : List (Lsn × Bytes)} {res : Except FeedError (List (Lsn × Bytes))}
    (h : Loop r out r' res) (expected got : Lsn) : res ≠ .error (.gap expected got) := by
  induction h with
  | empty | wait => rintro ⟨⟩
  | fail _ hturn =>
    rintro ⟨⟩
    exact turn_not_gap hturn
  | go _ _ _ ih => exact ih

/-! ## What a turn does -/

/-- A turn steps over bytes that belong to no record, gathers bytes of the record in assembly,
completes it, or begins one. -/
inductive Turns (r : WalReader) : WalReader → Option (Lsn × Bytes) → Prop where
  | skipped {r' : WalReader} :
    r.pos ≤ r'.pos → r'.need = r.need → r'.rec_ = r.rec_ → r'.recLsn = r.recLsn → Turns r r' none
  | gathered {r' : WalReader} {k : Nat} :
    r'.pos = r.pos + k → r'.need = r.need → r'.rec_.length = r.rec_.length + k → r'.recLsn = r.recLsn →
    Turns r r' none
  | completed {r' : WalReader} {body : Bytes} {k : Nat} :
    r.need ≠ 0 → r'.pos = r.pos + k → r'.need = 0 → body.length = r.need → body.length = r.rec_.length + k →
    Turns r r' (some (r.recLsn, body))
  | begun {r' : WalReader} :
    r.need = 0 → r'.pos = r.pos → recHdrLen ≤ r'.need → r'.rec_ = [] → r'.recLsn = r.pos → Turns r r' none

theorem pageHeader_turns {r r' : WalReader} {o : Option (Lsn × Bytes)} (h : r.pageHeader = .go r' o) :
    Turns r r' o := by
  simp only [pageHeader] at h
  generalize (if r.pos % walSegSize = 0 then longPageHdr else shortPageHdr) = n at h
  split at h
  · cases h
  split at h
  · cases h
  · -- The branches differ in `skipLeft` and `started` only.
    split at h <;> split at h <;> cases h <;>
      exact .skipped (Nat.le_add_right _ _) rfl rfl rfl

theorem accumulate_turns {r r' : WalReader} {o : Option (Lsn × Bytes)} {pageRem : Nat} (hneed : 0 < r.need)
    (h : r.accumulate pageRem = .go r' o) : Turns r r' o := by
  have htake : ∀ k, min k r.pending.length ≤ r.pending.length := fun k => Nat.min_le_right _ _
  simp only [accumulate] at h
  generalize hk : min (min (r.need - r.rec_.length) pageRem) r.pending.length = k at h
  have hlength : (r.rec_ ++ r.pending.take k).length = r.rec_.length + k := by
    rw [List.length_append, List.length_take_of_le (hk ▸ htake _)]
  split at h
  · rename_i hcomplete
    cases h
    exact .completed hneed.ne' rfl rfl hcomplete hlength
  · cases h
    exact .gathered rfl rfl hlength rfl

theorem newRecord_turns {r r' : WalReader} {o : Option (Lsn × Bytes)} {pageRem : Nat} (hneed : r.need = 0)
    (h : r.newRecord pageRem = .go r' o) : Turns r r' o := by
  simp only [newRecord] at h
  split at h
  · cases h
  split at h
  · cases h
    exact .skipped (Nat.le_add_right _ _) rfl rfl rfl
  split at h
  · cases h
  · rename_i hlong
    cases h
    exact .begun hneed rfl (not_lt.mp hlong) rfl rfl

theorem turn_turns {r r' : WalReader} {o : Option (Lsn × Bytes)} (h : r.turn = .go r' o) : Turns r r' o := by
  simp only [turn] at h
  split at h
  · exact pageHeader_turns h
  split at h
  · cases h
    exact .skipped (Nat.le_add_right _ _) rfl rfl rfl
  split at h
  · exact accumulate_turns ‹_› h
  · exact newRecord_turns (by omega) h

/-! ## Places of records -/

/-- The reader has not run past its start, and the records lie behind one another between the
start and its position, the one in assembly behind those returned. -/
structure InPlace (startLsn : Lsn) (r : WalReader) (recs : List (Lsn × Bytes)) : Prop where
  start_le : startLsn ≤ r.pos
  current : r.need ≠ 0 → startLsn ≤ r.recLsn ∧ r.recLsn + r.rec_.length ≤ r.pos ∧ recHdrLen ≤ r.need ∧
    ∀ p ∈ recs, p.1 + p.2.length ≤ r.recLsn
  returned : ∀ p ∈ recs, startLsn ≤ p.1 ∧ p.1 + p.2.length ≤ r.pos ∧ recHdrLen ≤ p.2.length
  apart : recs.Pairwise fun p q => p.1 + p.2.length ≤ q.1

namespace InPlace

variable {startLsn : Lsn} {r r' : WalReader} {recs recs' : List (Lsn × Bytes)} {o : Option (Lsn × Bytes)}

theorem turns (h : r.InPlace startLsn recs) (hturn : Turns r r' o) : r'.InPlace startLsn (recs ++ o.toList) := by
  cases hturn with
  | skipped hpos hneed hrec hlsn =>
    rw [Option.toList_none, List.append_nil]
    refine ⟨h.start_le.trans hpos, fun hne => ?_, fun p hp => ?_, h.apart⟩
    · obtain ⟨hstart, hend, hlong, hbehind⟩ := h.current (hneed ▸ hne)
      rw [hneed, hrec, hlsn]
      exact ⟨hstart, hend.trans hpos, hlong, hbehind⟩
    · obtain ⟨hstart, hend, hlong⟩ := h.returned p hp
      exact ⟨hstart, hend.trans hpos, hlong⟩
  | gathered hpos hneed hrec hlsn =>
    rw [Option.toList_none, List.append_nil]
    refine ⟨by have := h.start_le; lia, fun hne => ?_, fun p hp => ?_, h.apart⟩
    · obtain ⟨hstart, hend, hlong, hbehind⟩ := h.current (hneed ▸ hne)
      rw [hneed, hrec, hlsn]
      exact ⟨hstart, by lia, hlong, hbehind⟩
    · obtain ⟨hstart, hend, hlong⟩ := h.returned p hp
      exact ⟨hstart, by lia, hlong⟩
  | completed hne hpos hneed hbody hlength =>
    obtain ⟨hstart, hend, hlong, hbehind⟩ := h.current hne
    rw [Option.toList_some]
    refine ⟨by have := h.start_le; lia, fun hne' => absurd hneed hne', fun p hp => ?_, ?_⟩
    · rcases List.mem_append.mp hp with hp | hp
      · obtain ⟨hstart, hend, hlong⟩ := h.returned p hp
        exact ⟨hstart, by lia, hlong⟩
      · obtain rfl := List.mem_singleton.mp hp
        dsimp only
        exact ⟨hstart, by lia, by lia⟩
    · refine List.pairwise_append.mpr ⟨h.apart, List.pairwise_singleton _ _, fun p hp q hq => ?_⟩
      obtain rfl := List.mem_singleton.mp hq
      exact hbehind p hp
  | begun _ hpos hlong hrec hlsn =>
    rw [Option.toList_none, List.append_nil]
    refine ⟨hpos ▸ h.start_le, fun _ => ?_, fun p hp => ?_, h.apart⟩
    · rw [hrec, hlsn, hpos]
      exact ⟨h.start_le, le_rfl, hlong, fun p hp => (h.returned p hp).2.1⟩
    · rw [hpos]
      exact h.returned p hp

theorem sublist (h : r.InPlace startLsn recs) (hsub : recs'.Sublist recs) : r.InPlace startLsn recs' where
  start_le := h.start_le
  current hne :=
    have ⟨hstart, hend, hlong, hbehind⟩ := h.current hne
    ⟨hstart, hend, hlong, fun p hp => hbehind p (hsub.subset hp)⟩
  returned p hp := h.returned p (hsub.subset hp)
  apart := h.apart.sublist hsub

end InPlace

/-- The reader that a loop leaves, and the records it adds. -/
theorem Loop.inPlace {startLsn : Lsn} {r r' : WalReader} {recs out : List (Lsn × Bytes)}
    {res : Except FeedError (List (Lsn × Bytes))} (h : Loop r out r' res) (ha : r.Assembling)
    (hplace : r.InPlace startLsn (recs ++ out)) :
    r'.receivedEnd = r.receivedEnd ∧ r'.Assembling ∧ r'.InPlace startLsn (recs ++ res.toOption.getD []) := by
  induction h with
  | empty | wait => exact ⟨rfl, ha, hplace⟩
  | fail => exact ⟨rfl, ha, hplace.sublist (by simp [Except.toOption])⟩
  | go hpending hturn _ ih =>
    have hturned := turn_turned ha hpending hturn
    have hmoved := hplace.turns (turn_turns hturn)
    rw [List.append_assoc] at hmoved
    obtain ⟨hend, hrest⟩ := ih hturned.assembling hmoved
    exact ⟨hend.trans hturned.receivedEnd, hrest⟩

/-! ## Any sequence of calls -/

/-- Where the reader is after `n` bytes, and the records it has returned. -/
structure KeepsPlace (startLsn : Lsn) (n : Nat) (r : WalReader) (recs : List (Lsn × Bytes)) : Prop where
  received : r.pos + r.pending.length = startLsn + n
  partial_ : r.need = 0 ∨ r.rec_.length < r.need
  increasing : recs.Pairwise (·.1 < ·.1)
  between : ∀ p ∈ recs, startLsn ≤ p.1 ∧ p.1 < r.pos
  long : ∀ p ∈ recs, 24 ≤ p.2.length

theorem Calls.inPlace {startLsn : Lsn} {n : Nat} {recs : List (Lsn × Bytes)} {r : WalReader}
    (h : Calls startLsn n recs r) : r.receivedEnd = startLsn + n ∧ r.Assembling ∧ r.InPlace startLsn recs := by
  induction h with
  | new => exact ⟨rfl, .inl rfl, le_rfl, fun h => absurd rfl h, by simp, .nil⟩
  | @feed n recs r r' lsn data res _ hfed ih =>
    obtain ⟨hend, ha, hplace⟩ := ih
    cases hfed with
    | gap hgap =>
      rw [if_neg (hend ▸ hgap)]
      exact ⟨hend, ha, hplace.sublist (by simp [Except.toOption])⟩
    | loop hstart hloop =>
      have hplace' : ({ r with pending := r.pending ++ data } : WalReader).InPlace startLsn (recs ++ []) := by
        rw [List.append_nil]
        exact ⟨hplace.start_le, hplace.current, hplace.returned, hplace.apart⟩
      obtain ⟨hend', hrest⟩ := hloop.inPlace ha hplace'
      refine ⟨?_, hrest⟩
      rw [if_pos (hstart.trans hend), hend', ← Nat.add_assoc, ← hend]
      simp only [receivedEnd, List.length_append, Nat.add_assoc]

theorem InPlace.keepsPlace {startLsn : Lsn} {n : Nat} {recs : List (Lsn × Bytes)} {r : WalReader}
    (hend : r.receivedEnd = startLsn + n) (ha : r.Assembling) (h : r.InPlace startLsn recs) :
    KeepsPlace startLsn n r recs := by
  have hlong : ∀ p ∈ recs, 24 ≤ p.2.length := fun p hp => (h.returned p hp).2.2
  refine ⟨hend, ha, ?_, fun p hp => ?_, hlong⟩
  · refine h.apart.imp_of_mem fun {p q} hp _ hpq => ?_
    have := hlong p hp
    lia
  · obtain ⟨hstart, hle, -⟩ := h.returned p hp
    have := hlong p hp
    exact ⟨hstart, by lia⟩

/-- After any calls, failed ones among them, the reader knows its place. The next call comes to an
end, and is refused for a gap exactly if it is not the next byte of the stream. -/
theorem calls_keepPlace (startLsn : Lsn) (n : Nat) (recs : List (Lsn × Bytes)) (r : WalReader)
    (h : Calls startLsn n recs r) :
    KeepsPlace startLsn n r recs ∧
      ∀ (lsn : Lsn) (data : Bytes),
        (∃ r' res, Fed r lsn data r' res ∧ r.feed lsn data = res.map (r', ·)) ∧
        ((∃ expected got, r.feed lsn data = .error (.gap expected got)) ↔ lsn ≠ startLsn + n) := by
  obtain ⟨hend, ha, hplace⟩ := h.inPlace
  refine ⟨hplace.keepsPlace hend ha, fun lsn data => ?_⟩
  obtain ⟨r', res, hfed⟩ := Fed.total ha lsn data
  have hfeed := hfed.feed_eq ha
  refine ⟨⟨r', res, hfed, hfeed⟩, ?_⟩
  rw [← hend, hfeed]
  cases hfed with
  | gap hgap => exact iff_of_true ⟨_, _, rfl⟩ hgap
  | loop hstart hloop =>
    refine iff_of_false ?_ (not_not.mpr hstart)
    rintro ⟨expected, got, hres⟩
    cases res with
    | error e =>
      obtain rfl := Except.error.inj hres
      exact hloop.not_gap expected got rfl
    | ok => cases hres

/-- A byte is not enough for a page header; the next call has to begin behind it. -/
theorem calls_keepPlace_byte :
    KeepsPlace 8192 1 { new 8192 with pending := [0xD1] } [] ∧
      ∃ expected got, feed { new 8192 with pending := [0xD1] } 8192 [] = .error (.gap expected got) := by
  have hfed : Fed (new 8192) 8192 [0xD1] { new 8192 with pending := [0xD1] } (.ok []) :=
    .loop rfl (.wait (List.cons_ne_nil _ _) rfl)
  obtain ⟨hplace, hnext⟩ := calls_keepPlace 8192 1 [] _ (.feed .new hfed)
  exact ⟨hplace, (hnext 8192 []).2.mpr (by decide)⟩

end WalReader

end Ltap
