-- SUMMARY: Reassembly of WAL records from the raw byte stream (`wal/mod.rs`, `WalReader`).
import OpenLtap.Schema

/-!
# The WAL reader

`WalReader` strips the page headers of the physical WAL stream and hands out the
records it finds, each with its start LSN. The source's `loop` is `feedLoop`; it
recurses on a step bound, and `feed` passes a bound that the loop cannot exceed.
-/

namespace Ltap

def xlogPageSize : Nat := 8192
def walSegSize : Nat := 16 * 1024 * 1024
/-- `SizeOfXLogRecord`. -/
def recHdrLen : Nat := 24
def shortPageHdr : Nat := 24
def longPageHdr : Nat := 40
/-- The `xlp_magic` values of the supported server versions, 17 and 18. -/
def xlogPageMagics : List Nat := [0xD116, 0xD118]

def maxalign (v : Nat) : Nat := (v + 7) / 8 * 8

/-- Little-endian value of a byte list. -/
def fromLe : Bytes → Nat
  | [] => 0
  | b :: bs => b.toNat + 256 * fromLe bs

structure WalReader where
  /-- LSN of the next unconsumed byte in `pending`. -/
  pos : Lsn
  pending : Bytes
  /-- Bytes to discard: the rest of a record from before the start point, or
  alignment padding. -/
  skipLeft : Nat
  started : Bool
  rec_ : Bytes
  recLsn : Lsn
  need : Nat
  deriving DecidableEq, Repr

namespace WalReader

/-- A reader at a page-aligned start. -/
def new (startLsn : Lsn) : WalReader :=
  { pos := startLsn, pending := [], skipLeft := 0, started := false, rec_ := [],
    recLsn := 0, need := 0 }

inductive FeedError where
  | gap (expected got : Lsn)
  | badMagic (magic : Nat) (at_ : Lsn)
  | corrupt (totLen : Nat) (at_ : Lsn)
  deriving DecidableEq, Repr

/-- Consume `n` pending bytes. -/
def advance (r : WalReader) (n : Nat) : WalReader :=
  { r with pending := r.pending.drop n, pos := r.pos + n }

/-- What one turn of the loop does. -/
inductive Turn where
  /-- Not enough bytes: leave the loop. -/
  | wait
  | fail (e : FeedError)
  /-- Go on from the new state, with the record the turn completed, if any. -/
  | go (r : WalReader) (out : Option (Lsn × Bytes))

/-- Strip a page header. `skipLeft` takes the rest of a record that was in flight
at our start, and afterwards the padding in front of the next record. -/
def pageHeader (r : WalReader) : Turn :=
  let hdrLen := if r.pos % walSegSize = 0 then longPageHdr else shortPageHdr
  if r.pending.length < hdrLen then .wait
  else
    let magic := fromLe (r.pending.take 2)
    if magic ∉ xlogPageMagics then .fail (.badMagic magic r.pos)
    else
      let remLen := fromLe ((r.pending.drop 16).take 4)
      let r₁ := if r.started then r else { r with started := true, skipLeft := remLen }
      let r₂ := r₁.advance hdrLen
      if r₂.skipLeft = 0 ∧ r₂.need = 0 then
        .go { r₂ with skipLeft := maxalign r₂.pos - r₂.pos } none
      else .go r₂ none

/-- Discard continuation or padding bytes. -/
def discard (r : WalReader) (pageRem : Nat) : Turn :=
  let take := min (min r.skipLeft pageRem) r.pending.length
  let r₁ := r.advance take
  let left := r.skipLeft - take
  .go { r₁ with skipLeft := if left = 0 then maxalign r₁.pos - r₁.pos else left } none

/-- Accumulate the body of the current record. -/
def accumulate (r : WalReader) (pageRem : Nat) : Turn :=
  let take := min (min (r.need - r.rec_.length) pageRem) r.pending.length
  let rec' := r.rec_ ++ r.pending.take take
  let r₁ := r.advance take
  if rec'.length = r.need then
    .go { r₁ with rec_ := [], need := 0, skipLeft := maxalign r₁.pos - r₁.pos }
      (some (r.recLsn, rec'))
  else .go { r₁ with rec_ := rec' } none

/-- Start a new record, or step over zero padding up to the next page. -/
def newRecord (r : WalReader) (pageRem : Nat) : Turn :=
  if r.pending.length < 4 then .wait
  else
    let totLen := fromLe (r.pending.take 4)
    if totLen = 0 then .go (r.advance (min pageRem r.pending.length)) none
    else if totLen < recHdrLen then .fail (.corrupt totLen r.pos)
    else .go { r with recLsn := r.pos, need := totLen, rec_ := [] } none

/-- One turn of the loop, with at least one byte pending. -/
def turn (r : WalReader) : Turn :=
  let pageOff := r.pos % xlogPageSize
  if pageOff = 0 then r.pageHeader
  else
    let pageRem := xlogPageSize - pageOff
    if r.skipLeft > 0 then r.discard pageRem
    else if r.need > 0 then r.accumulate pageRem
    else r.newRecord pageRem

def feedLoop : Nat → WalReader → List (Lsn × Bytes) → Except FeedError (WalReader × List (Lsn × Bytes))
  | 0, r, out => .ok (r, out)
  | fuel + 1, r, out =>
    if r.pending = [] then .ok (r, out)
    else
      match r.turn with
      | .wait => .ok (r, out)
      | .fail e => .error e
      | .go r' o => feedLoop fuel r' (out ++ o.toList)

/-- Every turn but the one that starts a record consumes a byte, and that one is
followed by one that does. -/
def fuelFor (r : WalReader) : Nat := 2 * r.pending.length + 2

def feed (r : WalReader) (startLsn : Lsn) (data : Bytes) :
    Except FeedError (WalReader × List (Lsn × Bytes)) :=
  let expected := r.pos + r.pending.length
  if startLsn ≠ expected then .error (.gap expected startLsn)
  else
    let r := { r with pending := r.pending ++ data }
    feedLoop r.fuelFor r []

/-! ## What a feed leaves -/

/-- End of the stream received so far. -/
def receivedEnd (r : WalReader) : Lsn := r.pos + r.pending.length

/-- A record in assembly still misses bytes. -/
def Assembling (r : WalReader) : Prop := r.need = 0 ∨ r.rec_.length < r.need

/-- Bound on the turns that are left: two for a byte, and one that starts a record. -/
def turnsLeft (r : WalReader) : Nat := 2 * r.pending.length + if r.need = 0 then 1 else 0

theorem advance_receivedEnd {r : WalReader} {n : Nat} (h : n ≤ r.pending.length) :
    (r.advance n).receivedEnd = r.receivedEnd := by
  simp only [receivedEnd, advance, List.length_drop]
  lia

/-- Consuming a byte leaves fewer turns, whatever happens to the record in assembly. -/
theorem turnsLeft_lt {r r' : WalReader} {n : Nat} (hn : 0 < n) (hlen : n ≤ r.pending.length)
    (hpending : r'.pending = r.pending.drop n) : r'.turnsLeft < r.turnsLeft := by
  simp only [turnsLeft, hpending, List.length_drop]
  split <;> split <;> omega

/-- What one turn keeps: the received end and that records in assembly are incomplete. -/
structure Turned (r r' : WalReader) : Prop where
  receivedEnd : r'.receivedEnd = r.receivedEnd
  assembling : r'.Assembling
  turnsLeft : r'.turnsLeft < r.turnsLeft

theorem pageHeader_turned {r r' : WalReader} {o : Option (Lsn × Bytes)} (ha : r.Assembling)
    (h : r.pageHeader = .go r' o) : Turned r r' := by
  simp only [pageHeader] at h
  have hpos : 0 < if r.pos % walSegSize = 0 then longPageHdr else shortPageHdr := by
    split <;> decide
  generalize (if r.pos % walSegSize = 0 then longPageHdr else shortPageHdr) = n at h hpos
  split at h
  · cases h
  · rename_i hlen
    have hlen := not_lt.mp hlen
    split at h
    · cases h
    · -- The branches differ in `skipLeft` and `started` only.
      split at h <;> split at h <;> cases h <;>
        exact ⟨advance_receivedEnd hlen, ha, turnsLeft_lt hpos hlen rfl⟩

theorem discard_turned {r r' : WalReader} {o : Option (Lsn × Bytes)} {pageRem : Nat}
    (ha : r.Assembling) (hpending : r.pending ≠ []) (hskip : 0 < r.skipLeft) (hrem : 0 < pageRem)
    (h : r.discard pageRem = .go r' o) : Turned r r' := by
  have hlen := List.length_pos_of_ne_nil hpending
  cases h
  exact ⟨advance_receivedEnd (min_le_right _ _), ha, turnsLeft_lt (by omega) (min_le_right _ _) rfl⟩

theorem accumulate_turned {r r' : WalReader} {o : Option (Lsn × Bytes)} {pageRem : Nat}
    (hlt : r.rec_.length < r.need) (hpending : r.pending ≠ []) (hrem : 0 < pageRem)
    (h : r.accumulate pageRem = .go r' o) : Turned r r' := by
  have hlen := List.length_pos_of_ne_nil hpending
  simp only [accumulate] at h
  split at h
  · cases h
    exact ⟨advance_receivedEnd (min_le_right _ _), .inl rfl,
      turnsLeft_lt (by omega) (min_le_right _ _) rfl⟩
  · rename_i hincomplete
    cases h
    refine ⟨advance_receivedEnd (min_le_right _ _), .inr ?_,
      turnsLeft_lt (by omega) (min_le_right _ _) rfl⟩
    simp only [List.length_append, List.length_take] at hincomplete ⊢
    simp only [advance]
    omega

theorem newRecord_turned {r r' : WalReader} {o : Option (Lsn × Bytes)} {pageRem : Nat}
    (hneed : r.need = 0) (hpending : r.pending ≠ []) (hrem : 0 < pageRem)
    (h : r.newRecord pageRem = .go r' o) : Turned r r' := by
  have hlen := List.length_pos_of_ne_nil hpending
  simp only [newRecord] at h
  split at h
  · cases h
  · split at h
    · cases h
      exact ⟨advance_receivedEnd (min_le_right _ _), .inl hneed,
        turnsLeft_lt (by omega) (min_le_right _ _) rfl⟩
    · rename_i htot
      split at h
      · cases h
      · cases h
        have hpos := Nat.pos_of_ne_zero htot
        refine ⟨rfl, .inr (by simpa using hpos), ?_⟩
        simp only [turnsLeft, hneed, if_true, if_neg htot]
        omega

theorem turn_turned {r r' : WalReader} {o : Option (Lsn × Bytes)} (ha : r.Assembling)
    (hpending : r.pending ≠ []) (h : r.turn = .go r' o) : Turned r r' := by
  simp only [turn] at h
  split at h
  · exact pageHeader_turned ha h
  · have hrem : 0 < xlogPageSize - r.pos % xlogPageSize :=
      Nat.sub_pos_of_lt (Nat.mod_lt _ (by decide))
    split at h
    · exact discard_turned ha hpending ‹_› hrem h
    · split at h
      · exact accumulate_turned (ha.resolve_left (by omega)) hpending hrem h
      · exact newRecord_turned (by omega) hpending hrem h

/-- Bytes are taken in only where the received ones end. -/
theorem feed_start {r : WalReader} {startLsn : Lsn} {data : Bytes} {res : WalReader × List (Lsn × Bytes)}
    (h : r.feed startLsn data = .ok res) : startLsn = r.receivedEnd := by
  rw [feed] at h
  split at h
  · cases h
  · exact not_not.mp ‹_›

end WalReader

end Ltap
