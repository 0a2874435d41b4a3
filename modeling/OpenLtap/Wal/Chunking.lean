-- SUMMARY: Framed streams read chunk by chunk: which chunkings and join points are exact.
import OpenLtap.Wal.Reassembly

/-!
# Chunking

A stream reaches the reader in consecutive chunks. The reader stays in step with it, and
hands out its records, as long as no chunk leaves it stuck: less than four bytes before
the end of a zero-filled page. A stuck reader takes the end of the zeros and the
beginning of the page header for the length of a record, so what it hands out next starts
at an LSN that is no multiple of eight.
-/

namespace Ltap

namespace WalReader

/-- Consecutive chunks from `lsn` on. -/
def feedAll (r : WalReader) : Lsn → List Bytes → Except FeedError (List (Lsn × Bytes))
  | _, [] => .ok []
  | lsn, c :: cs => do
    let (r', out) ← r.feed lsn c
    let rest ← r'.feedAll (lsn + c.length) cs
    return out ++ rest

/-- Where each chunk ends. -/
def chunkEnds : Lsn → List Bytes → List Lsn
  | _, [] => []
  | lsn, c :: cs => (lsn + c.length) :: chunkEnds (lsn + c.length) cs

theorem chunkEnds_append (lsn : Lsn) (cs ds : List Bytes) :
    chunkEnds lsn (cs ++ ds) = chunkEnds lsn cs ++ chunkEnds (lsn + cs.flatten.length) ds := by
  induction cs generalizing lsn with
  | nil => rfl
  | cons c cs ih =>
    rw [List.cons_append, chunkEnds, chunkEnds, ih, List.cons_append, List.flatten_cons, List.length_append,
      Nat.add_assoc]

theorem le_chunkEnds {lsn e : Lsn} {chunks : List Bytes} (h : e ∈ chunkEnds lsn chunks) : lsn ≤ e := by
  induction chunks generalizing lsn with
  | nil => cases h
  | cons c cs ih =>
    rcases List.mem_cons.mp h with rfl | h
    · exact Nat.le_add_right _ _
    · exact le_trans (Nat.le_add_right _ _) (ih h)

/-! ## Staying in step -/

/-- In step with a stream of which `future` has not arrived, and done with what has. -/
structure Settled (hdr : PageHeaders) (future : Bytes) (r : WalReader) (out : List (Lsn × Bytes))
    (tails : List (Lsn × Lsn)) : Prop where
  follows : r.Follows hdr future out tails
  room : Roomy tails ∨ r.Stuck hdr future out
  drained : r.pending = [] ∨
    future ≠ [] ∧ r.receivedEnd < contentPos r.pos + (if r.need = 0 then 4 else 0)

section InStep

variable {hdr : PageHeaders} {future : Bytes} {r : WalReader} {out : List (Lsn × Bytes)}
  {tails : List (Lsn × Lsn)}

theorem Follows.assembling (h : r.Follows hdr future out tails) : r.Assembling := by
  obtain ⟨cs, hmode, -⟩ := h
  exact hmode.assembling

theorem Follows.feedLoop {fuel : Nat} (acc : List (Lsn × Bytes)) (h : r.Follows hdr future out tails)
    (hroom : Roomy tails ∨ (r.pending = [] ∧ r.Stuck hdr future out)) (hfuel : r.turnsLeft < fuel) :
    ∃ r' out₁ out₂ tails', feedLoop fuel r acc = .ok (r', acc ++ out₁) ∧ out = out₁ ++ out₂ ∧
      (∀ e ∈ out₁, recordEnd e ≤ r.receivedEnd) ∧ r'.Settled hdr future out₂ tails' ∧
      r'.receivedEnd = r.receivedEnd ∧ SameCuts r.receivedEnd tails tails' := by
  induction fuel generalizing r acc out tails with
  | zero => omega
  | succ fuel ih =>
    rw [WalReader.feedLoop]
    by_cases hnil : r.pending = []
    · rw [if_pos hnil]
      exact ⟨r, [], out, tails, by simp, rfl, by simp, ⟨h, hroom.imp_right And.right, .inl hnil⟩, rfl, .refl _⟩
    · rw [if_neg hnil]
      have hroomy := hroom.resolve_right fun hstuck => hnil hstuck.1
      cases h.turn hroomy hnil with
      | wait hturn hfuture hend =>
        rw [hturn]
        exact ⟨r, [], out, tails, by simp, rfl, by simp, ⟨h, .inl hroomy, .inr ⟨hfuture, hend⟩⟩, rfl, .refl _⟩
      | go r₁ o out₁ tails₁ hturn hout hcomplete hfollows hcuts hroom₁ =>
        have hturned := turn_turned h.assembling hnil hturn
        have hleft := hturned.turnsLeft
        obtain ⟨r', out₂, out₃, tails', hloop, rfl, hends, hsettled, hend, hcuts'⟩ :=
          ih (acc ++ o.toList) hfollows hroom₁ (by omega)
        rw [hturned.receivedEnd] at hends hend hcuts'
        refine ⟨r', o.toList ++ out₂, out₃, tails', ?_, ?_, ?_, hsettled, hend, hcuts.trans hcuts'⟩
        · simp only [hturn, hloop, List.append_assoc]
        · simp only [hout, List.append_assoc]
        · intro e he
          rcases List.mem_append.mp he with he | he
          · have hle : r₁.pos ≤ r₁.receivedEnd := Nat.le_add_right _ _
            rw [hturned.receivedEnd] at hle
            exact le_trans (hcomplete e (Option.mem_toList.mp he)) hle
          · exact hends e he

/-- A drained reader does not see the chunk end it has reached. -/
theorem Settled.safeCuts_cons (h : r.Settled hdr future out tails) (ends : List Lsn) :
    SafeCuts tails (r.receivedEnd :: ends) ↔ SafeCuts tails ends := by
  obtain ⟨cs, hmode, -⟩ := h.follows
  have hstop : ∀ t ∈ tails, stop t.1 t.2 (r.receivedEnd :: ends) = stop t.1 t.2 ends := by
    intro t ht
    have htail := hmode.contentPos_le_tail ht
    refine stop_cons_of_lt ?_ ends
    rcases h.drained with hnil | ⟨-, hend⟩
    · have hle := le_contentPos r.pos
      simp only [receivedEnd, hnil, List.length_nil]
      lia
    · split at hend <;> lia
  exact forall₂_congr fun t ht => by rw [hstop t ht]

/-- The records that a drained reader still holds back are not complete. -/
theorem Settled.lt_recordEnd (h : r.Settled hdr future out tails) {e : Lsn × Bytes} (he : e ∈ out) :
    r.receivedEnd < recordEnd e := by
  obtain ⟨cs, hmode, -⟩ := h.follows
  have hrec : recHdrLen = 24 := rfl
  have hbehind := hmode.lt_recordEnd he
  rcases h.drained with hnil | ⟨-, hend⟩
  · have hle := le_contentPos r.pos
    simp only [receivedEnd, hnil, List.length_nil]
    lia
  · split at hend <;> lia

/-- One chunk: the records that are complete with it. -/
theorem Settled.feed {c : Bytes} (h : r.Settled hdr (c ++ future) out tails) (hroomy : Roomy tails) :
    ∃ r' out₁ out₂ tails', r.feed r.receivedEnd c = .ok (r', out₁) ∧ out = out₁ ++ out₂ ∧
      (∀ e ∈ out₁, recordEnd e ≤ r'.receivedEnd) ∧ r'.Settled hdr future out₂ tails' ∧
      r'.receivedEnd = r.receivedEnd + c.length ∧ SameCuts r'.receivedEnd tails tails' := by
  obtain ⟨cs, hmode, hlay⟩ := h.follows
  have hfollows : Follows hdr future { r with pending := r.pending ++ c } out tails :=
    ⟨cs, hmode.pending _, by rw [List.append_assoc]; exact hlay⟩
  have hfuel : turnsLeft { r with pending := r.pending ++ c } <
      fuelFor { r with pending := r.pending ++ c } := by
    simp only [turnsLeft, fuelFor]
    split <;> omega
  have hreceived : receivedEnd { r with pending := r.pending ++ c } = r.receivedEnd + c.length := by
    simp only [receivedEnd, List.length_append]
    lia
  obtain ⟨r', out₁, out₂, tails', hloop, hout, hends, hsettled, hend, hcuts⟩ :=
    hfollows.feedLoop [] (.inl hroomy) hfuel
  refine ⟨r', out₁, out₂, tails', ?_, hout, hend ▸ hends, hsettled, hend.trans hreceived, hend ▸ hcuts⟩
  rw [WalReader.feed, if_neg (by rw [receivedEnd]; exact not_not_intro rfl)]
  exact hloop

end InStep

/-! ## Out of step -/

/-- A record is being assembled that starts where no record does. -/
def Garbled (r : WalReader) : Prop := 0 < r.need ∧ r.recLsn % 8 ≠ 0

theorem Garbled.turn {r r' : WalReader} {o : Option (Lsn × Bytes)} (h : r.Garbled)
    (hturn : r.turn = .go r' o) : (o = none ∧ r'.Garbled) ∨ ∃ bytes, o = some (r.recLsn, bytes) := by
  simp only [WalReader.turn] at hturn
  split at hturn
  · simp only [pageHeader] at hturn
    generalize (if r.pos % walSegSize = 0 then longPageHdr else shortPageHdr) = n at hturn
    split at hturn
    · cases hturn
    · split at hturn
      · cases hturn
      · left
        split at hturn <;> split at hturn <;> cases hturn <;> exact ⟨rfl, h⟩
  · split at hturn
    · cases hturn
      exact .inl ⟨rfl, h⟩
    · rw [if_pos h.1] at hturn
      simp only [accumulate] at hturn
      split at hturn
      · cases hturn
        exact .inr ⟨_, rfl⟩
      · cases hturn
        exact .inl ⟨rfl, h⟩

theorem feedLoop_subset {fuel : Nat} {r r' : WalReader} {acc out : List (Lsn × Bytes)}
    (h : feedLoop fuel r acc = .ok (r', out)) : acc ⊆ out := by
  induction fuel generalizing r acc with
  | zero =>
    cases h
    exact List.Subset.refl _
  | succ fuel ih =>
    simp only [feedLoop] at h
    split at h
    · cases h
      exact List.Subset.refl _
    · split at h
      · cases h
        exact List.Subset.refl _
      · cases h
      · exact List.Subset.trans (List.subset_append_left _ _) (ih h)

theorem Garbled.feedLoop {fuel : Nat} {r r' : WalReader} {acc out : List (Lsn × Bytes)} (hr : r.Garbled)
    (h : feedLoop fuel r acc = .ok (r', out)) :
    (out = acc ∧ r'.Garbled) ∨ ∃ e ∈ out, e.1 % 8 ≠ 0 := by
  induction fuel generalizing r acc with
  | zero =>
    cases h
    exact .inl ⟨rfl, hr⟩
  | succ fuel ih =>
    simp only [WalReader.feedLoop] at h
    split at h
    · cases h
      exact .inl ⟨rfl, hr⟩
    · split at h
      · cases h
        exact .inl ⟨rfl, hr⟩
      · cases h
      · rename_i r₁ o hturn
        obtain ⟨rfl, hr₁⟩ | ⟨bytes, rfl⟩ := hr.turn hturn
        · simpa using ih hr₁ h
        · exact .inr ⟨(r.recLsn, bytes), feedLoop_subset h (by simp), hr.2⟩

/-- Nothing, or a record that starts where no record does. -/
def Off (out : List (Lsn × Bytes)) : Prop := out = [] ∨ ∃ e ∈ out, e.1 % 8 ≠ 0

theorem Off.append_right {out out' : List (Lsn × Bytes)} (h : ∃ e ∈ out, e.1 % 8 ≠ 0) :
    Off (out ++ out') := by
  obtain ⟨e, he, hmod⟩ := h
  exact .inr ⟨e, List.mem_append_left _ he, hmod⟩

theorem feedAll_cons_ok {r : WalReader} {lsn : Lsn} {c : Bytes} {cs : List Bytes}
    {out : List (Lsn × Bytes)} (h : r.feedAll lsn (c :: cs) = .ok out) :
    ∃ r' out₁ out₂, r.feed lsn c = .ok (r', out₁) ∧ r'.feedAll (lsn + c.length) cs = .ok out₂ ∧
      out = out₁ ++ out₂ := by
  rw [feedAll] at h
  cases hfeed : r.feed lsn c with
  | error e => simp [hfeed, bind, Except.bind] at h
  | ok res =>
    obtain ⟨r', out₁⟩ := res
    cases hrest : r'.feedAll (lsn + c.length) cs with
    | error e => simp [hfeed, hrest, bind, Except.bind] at h
    | ok out₂ =>
      simp only [hfeed, hrest, bind, Except.bind, pure, Except.pure, Except.ok.injEq] at h
      exact ⟨r', out₁, out₂, rfl, hrest, h.symm⟩

theorem Garbled.feedAll {r : WalReader} {lsn : Lsn} {chunks : List Bytes} {out : List (Lsn × Bytes)}
    (hr : r.Garbled) (h : r.feedAll lsn chunks = .ok out) : Off out := by
  induction chunks generalizing r lsn out with
  | nil =>
    cases h
    exact .inl rfl
  | cons c cs ih =>
    obtain ⟨r', out₁, out₂, hfeed, hrest, rfl⟩ := feedAll_cons_ok h
    simp only [WalReader.feed] at hfeed
    split at hfeed
    · cases hfeed
    · obtain ⟨rfl, hr'⟩ | hoff := Garbled.feedLoop (r := { r with pending := r.pending ++ c }) hr hfeed
      · exact ih hr' hrest
      · exact .append_right hoff

/-- The length that a stuck reader reads. -/
theorem length_across_header (hdr : PageHeaders) {z : Nat} {pos : Lsn} (c : Cell) (cs : List Cell)
    (hz : 0 < z) (hz4 : z < 4) (hpos : pos % xlogPageSize + z = xlogPageSize) :
    recHdrLen ≤ fromLe ((hdr.lay pos (zeroCells z ++ c :: cs)).take 4) := by
  have hinside : pos % xlogPageSize ≠ 0 := by
    unfold xlogPageSize at hpos ⊢
    lia
  have hnext : (pos + z) % xlogPageSize = 0 := by
    unfold xlogPageSize at hpos ⊢
    lia
  have hrem : z ≤ xlogPageSize - pos % xlogPageSize := by lia
  rw [hdr.lay_append, zeroCells_length, after_inside hinside hrem,
    hdr.lay_inside hinside (by rw [zeroCells_length]; exact hrem), zeroCells_bytes,
    hdr.lay_header hnext]
  have hlen := hdr.length (pos + z) c.rem
  have hmagic := hdr.magic (pos + z) c.rem
  have hge : 24 ≤ hdrLen (pos + z) := by
    unfold hdrLen
    split <;> decide
  generalize hdr.bytes (pos + z) c.rem = header at hlen hmagic
  obtain ⟨b₀, b₁, b₂, rest, rfl⟩ : ∃ b₀ b₁ b₂ rest, header = b₀ :: b₁ :: b₂ :: rest := by
    rcases header with _ | ⟨b₀, _ | ⟨b₁, _ | ⟨b₂, rest⟩⟩⟩
    · simp at hlen; omega
    · simp at hlen; omega
    · simp at hlen; omega
    · exact ⟨b₀, b₁, b₂, rest, rfl⟩
  -- Both magics have a low byte of 22 or more.
  have hlow : 22 ≤ b₀.toNat := by
    have hlt := b₀.toNat_lt
    simp only [List.take_succ_cons, List.take_zero, fromLe, xlogPageMagics, List.mem_cons,
      List.not_mem_nil, or_false] at hmagic
    omega
  obtain rfl | rfl | rfl : z = 1 ∨ z = 2 ∨ z = 3 := by omega
  all_goals
    simp only [List.replicate, List.cons_append, List.nil_append, List.take_succ_cons, List.take_zero,
      fromLe, recHdrLen, UInt8.toNat_zero]
    omega

section Stuck

variable {hdr : PageHeaders} {future : Bytes} {r : WalReader} {out : List (Lsn × Bytes)}

theorem Stuck.inside (h : r.Stuck hdr future out) :
    r.pos % xlogPageSize ≠ 0 ∧ r.pos % 8 ≠ 0 := by
  obtain ⟨z, cs, hz, hz4, hpos, -⟩ := h.content
  unfold xlogPageSize at hpos ⊢
  lia

/-- With four bytes there, the stuck reader takes them for a length. -/
theorem Stuck.turn (h : r.Stuck hdr future out) (hlen : 4 ≤ r.pending.length) :
    ∃ r', r.turn = .go r' none ∧ r'.Garbled := by
  obtain ⟨hinside, haligned⟩ := h.inside
  obtain ⟨z, cs, hz, hz4, hpos, hlay⟩ := h.content
  have htot : recHdrLen ≤ fromLe (r.pending.take 4) := by
    cases cs with
    | nil =>
      -- The zeros alone are no four bytes.
      have hshort := congrArg List.length hlay
      rw [List.append_nil, hdr.lay_inside hinside (by rw [zeroCells_length]; lia)] at hshort
      simp only [List.length_map, zeroCells_length, List.length_append] at hshort
      lia
    | cons c cs =>
      have hread := length_across_header hdr c cs hz hz4 hpos
      rwa [hlay, List.take_append_of_le_length hlen] at hread
  have hhdr : 24 ≤ fromLe (r.pending.take 4) := htot
  refine ⟨{ r with recLsn := r.pos, need := fromLe (r.pending.take 4), rec_ := [] }, ?_,
    by simp only; omega, haligned⟩
  rw [newRecord_eq r hinside h.skipLeft h.need, newRecord, if_neg (by omega), if_neg (by omega),
    if_neg (not_lt.mpr htot)]

theorem Stuck.feedLoop {fuel : Nat} {r' : WalReader} {out' : List (Lsn × Bytes)}
    (h : r.Stuck hdr future out) (hloop : feedLoop fuel r [] = .ok (r', out')) :
    (out' = [] ∧ (r'.Stuck hdr future out ∨ r'.Garbled)) ∨ ∃ e ∈ out', e.1 % 8 ≠ 0 := by
  cases fuel with
  | zero =>
    cases hloop
    exact .inl ⟨rfl, .inl h⟩
  | succ fuel =>
    rw [WalReader.feedLoop] at hloop
    by_cases hlen : r.pending.length < 4
    · have hwait : r.turn = .wait := by
        rw [newRecord_eq r h.inside.1 h.skipLeft h.need, newRecord, if_pos hlen]
      rw [hwait, ite_self] at hloop
      cases hloop
      exact .inl ⟨rfl, .inl h⟩
    · obtain ⟨r₁, hturn, hgarbled⟩ := h.turn (not_lt.mp hlen)
      have hnil : r.pending ≠ [] := List.ne_nil_of_length_pos (by omega)
      rw [if_neg hnil, hturn] at hloop
      exact (hgarbled.feedLoop hloop).imp_left fun hq => ⟨hq.1, .inr hq.2⟩

theorem Stuck.feedAll {lsn : Lsn} {chunks : List Bytes} {out' : List (Lsn × Bytes)}
    (h : r.Stuck hdr chunks.flatten out) (hall : r.feedAll lsn chunks = .ok out') : Off out' := by
  induction chunks generalizing r lsn out' with
  | nil =>
    cases hall
    exact .inl rfl
  | cons c cs ih =>
    obtain ⟨r', out₁, out₂, hfeed, hrest, rfl⟩ := feedAll_cons_ok hall
    rw [WalReader.feed] at hfeed
    split at hfeed
    · cases hfeed
    · have hstuck : Stuck hdr cs.flatten { r with pending := r.pending ++ c } out := by
        refine ⟨h.started, h.skipLeft, h.need, h.records, h.aligned, ?_⟩
        simpa using h.content
      obtain ⟨rfl, hr' | hr'⟩ | hoff := hstuck.feedLoop hfeed
      · exact ih hr' hrest
      · exact hr'.feedAll hrest
      · exact .append_right hoff

/-- A stuck reader never gets back to the records of the stream. -/
theorem Stuck.feedAll_ne {lsn : Lsn} {chunks : List Bytes} (h : r.Stuck hdr chunks.flatten out) :
    r.feedAll lsn chunks ≠ .ok out := by
  intro hfeed
  obtain hnil | ⟨e, he, hmod⟩ := h.feedAll hfeed
  · exact h.records hnil
  · exact hmod (h.aligned e he)

end Stuck

/-! ## Whole streams -/

/-- The records of the stream are handed out if and only if no chunk leaves the reader stuck. -/
theorem Settled.feedAll_iff {hdr : PageHeaders} {r : WalReader} {out : List (Lsn × Bytes)}
    {tails : List (Lsn × Lsn)} {chunks : List Bytes} (h : r.Settled hdr chunks.flatten out tails) :
    r.feedAll r.receivedEnd chunks = .ok out ↔ SafeCuts tails (chunkEnds r.receivedEnd chunks) := by
  induction chunks generalizing r out tails with
  | nil =>
    obtain ⟨cs, hmode, hlay⟩ := h.follows
    have hpending : r.pending = [] := h.drained.resolve_right fun ⟨hfuture, _⟩ => hfuture rfl
    rw [hpending] at hlay
    obtain rfl := hdr.lay_eq_nil.mp hlay
    obtain ⟨rfl, rfl⟩ := hmode.nil
    simp [feedAll, SafeCuts]
  | cons c cs ih =>
    by_cases hroomy : Roomy tails
    · obtain ⟨r', out₁, out₂, tails', hfeed, rfl, -, hsettled, hend, hcuts⟩ := feed h hroomy
      have hends := hcuts (chunkEnds r'.receivedEnd cs) fun e he => le_chunkEnds he
      rw [hsettled.safeCuts_cons, ← ih hsettled] at hends
      rw [chunkEnds, ← hend, hends, feedAll, hfeed]
      simp only [bind, Except.bind, ← hend]
      cases feedAll r' r'.receivedEnd cs with
      | error e => simp
      | ok rest => simp [pure, Except.pure]
    · have hstuck := h.room.resolve_left hroomy
      exact iff_of_false hstuck.feedAll_ne fun hsafe => hroomy hsafe.roomy

/-! ## Starting on a page boundary -/

/-- A new reader on a page boundary, with the rest of a record first. -/
theorem new_settled (hdr : PageHeaders) {p : Lsn} {bs : Bytes} {pad cs : List Cell}
    {out : List (Lsn × Bytes)} {tails : List (Lsn × Lsn)} (hp : p % xlogPageSize = 0)
    (hbs : bs.length < 2 ^ 32) (hpad : pad.length = padLen bs.length)
    (hrest : Between (after pad.length (after bs.length p)) cs out tails) (hroomy : Roomy tails) :
    (new p).Settled hdr (hdr.lay p (bodyCells bs ++ (pad ++ cs))) out tails :=
  ⟨⟨_, .joining bs pad rfl rfl rfl hp hbs hpad hrest, rfl⟩, .inl hroomy, .inl rfl⟩

theorem pageTails_roomy (n : Nat) (pos : Lsn) : Roomy (pageTails n pos) := by
  induction n generalizing pos with
  | zero => simp [Roomy, pageTails]
  | succ n ih =>
    have hle := hdrLen_le pos
    simp only [Roomy, pageTails, List.mem_cons, forall_eq_or_imp]
    refine ⟨?_, ih _⟩
    unfold xlogPageSize
    lia

/-- Zero fill begins after a record, eight bytes or more before the end of the page. -/
theorem zeroTails_roomy (fs : List WalFrame) {pos : Lsn} (hpos : pos % 8 = 0) :
    Roomy (zeroTails pos fs) := by
  induction fs generalizing pos with
  | nil => simp [Roomy, zeroTails]
  | cons f fs ih =>
    intro t ht
    rcases List.mem_append.mp ht with ht | ht
    · cases hgap : f.gap with
      | none => simp [hgap, gapTails] at ht
      | some n =>
        rw [hgap, gapTails] at ht
        rcases List.mem_append.mp ht with ht | ht
        · by_cases hfill : fillLen pos = 0
          · simp [hfill] at ht
          · rw [if_neg hfill, List.mem_singleton] at ht
            rw [ht]
            unfold fillLen xlogPageSize at hfill ⊢
            split at hfill <;> lia
        · exact pageTails_roomy n _ t ht
    · exact ih (f.next_mod_eight hpos) t ht

theorem stream_settled (hdr : PageHeaders) {pos : Lsn} (hpos : pos % xlogPageSize = 0)
    (fs : List WalFrame) :
    (new pos).Settled hdr (hdr.stream pos fs) (framedRecords pos fs) (zeroTails pos fs) := by
  have hmod := mod_eight_of_boundary hpos
  have hbs : ([] : Bytes).length < 2 ^ 32 := by decide
  have hpad : ([] : List Cell).length = padLen ([] : Bytes).length := rfl
  exact new_settled hdr hpos hbs hpad (Between.frames hmod) (zeroTails_roomy fs hmod)

/-- A framed stream is read back if and only if no chunk leaves the reader stuck. -/
theorem feedAll_stream_iff (hdr : PageHeaders) {pos : Lsn} (hpos : pos % xlogPageSize = 0)
    (fs : List WalFrame) {chunks : List Bytes} (hchunks : chunks.flatten = hdr.stream pos fs) :
    (new pos).feedAll pos chunks = .ok (framedRecords pos fs) ↔
      SafeCuts (zeroTails pos fs) (chunkEnds pos chunks) := by
  have hsettled := stream_settled hdr hpos fs
  rw [← hchunks] at hsettled
  exact hsettled.feedAll_iff

/-- Fed at once, a framed stream is read back. -/
theorem feedAll_whole (hdr : PageHeaders) {pos : Lsn} (hpos : pos % xlogPageSize = 0)
    (fs : List WalFrame) :
    (new pos).feedAll pos [hdr.stream pos fs] = .ok (framedRecords pos fs) := by
  have hmod := mod_eight_of_boundary hpos
  rw [feedAll_stream_iff hdr hpos fs (by simp)]
  intro t ht
  have hle : t.2 ≤ pos + (hdr.stream pos fs).length := by
    rw [PageHeaders.stream, hdr.lay_length]
    exact (Between.frames hmod).tail_le_after ht
  rw [stop_eq_of_le (by simpa [chunkEnds] using hle)]
  exact zeroTails_roomy fs hmod t ht

/-- A new reader on a page boundary of a stream is in step with the rest of the stream. -/
theorem boundary_settled (hdr : PageHeaders) {s p : Lsn} {fs : List WalFrame} (hs : s % xlogPageSize = 0)
    (hp : p % xlogPageSize = 0) (hsp : s ≤ p) (hpend : p < s + (hdr.stream s fs).length) :
    (new p).Settled hdr ((hdr.stream s fs).drop (p - s)) ((framedRecords s fs).filter fun e => p ≤ e.1)
      ((zeroTails s fs).filter fun t => p ≤ t.1) := by
  have hmod := mod_eight_of_boundary hs
  rw [PageHeaders.stream, hdr.lay_length] at hpend
  obtain ⟨k, hk, hafter⟩ := exists_after_eq hp hsp hpend
  obtain ⟨bs, pad, cs, hdrop, hbs, hpad, hrest⟩ := (Between.frames hmod).join hp hk.le hafter
  have hstream : (hdr.stream s fs).drop (p - s) = hdr.lay p (bodyCells bs ++ (pad ++ cs)) := by
    have hlen := hdr.lay_length s ((frameCells s fs).take k)
    rw [List.length_take_of_le hk.le, hafter] at hlen
    rw [PageHeaders.stream, ← List.take_append_drop k (frameCells s fs), hdr.lay_append,
      List.length_take_of_le hk.le, hafter, hdrop]
    exact List.drop_left' (by lia)
  rw [hstream]
  exact new_settled hdr hp hbs hpad hrest fun t ht => zeroTails_roomy fs hmod t (List.mem_of_mem_filter ht)

/-- A reader that starts on any page boundary of a stream hands out the records that start
there or later, however the stream is cut into chunks. -/
theorem feedAll_from_boundary (hdr : PageHeaders) {s p : Lsn} (hs : s % xlogPageSize = 0)
    {fs : List WalFrame} (hgap : ∀ f ∈ fs, f.gap = none) (hp : p % xlogPageSize = 0) (hsp : s ≤ p)
    (hpend : p < s + (hdr.stream s fs).length) {chunks : List Bytes}
    (hchunks : chunks.flatten = (hdr.stream s fs).drop (p - s)) :
    (new p).feedAll p chunks = .ok ((framedRecords s fs).filter fun e => p ≤ e.1) := by
  have hsettled := boundary_settled hdr hs hp hsp hpend
  rw [← hchunks, zeroTails_eq_nil hgap, List.filter_nil] at hsettled
  exact hsettled.feedAll_iff.mpr (by simp [SafeCuts])

/-- A record that is continued on the second page, joined there. -/
theorem feedAll_from_boundary_spanned :
    (new 8192).feedAll 8192
      [((pg17Headers.stream 0 [spanning, minimal none]).drop 8192).take 5,
        ((pg17Headers.stream 0 [spanning, minimal none]).drop 8192).drop 5] =
      .ok [(8224, (minimal none).bytes)] := by
  have hpage : after 8152 0 = 8192 :=
    (after_header (by decide) (by decide)).symm.trans (after_inside (by decide) (by decide))
  have hnext : after (maxalign spanning.bytes.length) 0 = 8224 := by
    have hlen : maxalign spanning.bytes.length = 8152 + 8 := by decide +kernel
    rw [hlen, after_add, hpage]
    decide
  have hend : (8192 : Lsn) < 0 + (pg17Headers.stream 0 [spanning, minimal none]).length := by
    have hlen : maxalign spanning.bytes.length ≤ (frameCells 0 [spanning, minimal none]).length := by
      decide +kernel
    obtain ⟨n, hn⟩ := Nat.exists_eq_add_of_le hlen
    rw [PageHeaders.stream, PageHeaders.lay_length, hn, after_add, hnext]
    exact lt_of_lt_of_le (by decide) (le_after n 8224)
  have hrecords : (framedRecords 0 [spanning, minimal none]).filter (fun e => 8192 ≤ e.1) =
      [(8224, (minimal none).bytes)] := by
    have hgap : spanning.gap = none := rfl
    rw [framedRecords, WalFrame.next, hgap, gapEnd, hnext]
    decide +kernel
  rw [← hrecords]
  refine feedAll_from_boundary pg17Headers (s := 0) (by decide) (by decide) (by decide) (Nat.zero_le _)
    hend ?_
  simp only [List.flatten_cons, List.flatten_nil, List.append_nil, List.take_append_drop, Nat.sub_zero]

/-- Zero fill: fed at once, the stream is read back, and cut into chunks it is if and only if no
chunk leaves the reader less than four bytes before the end of a zero-filled page. -/
theorem feedAll_zero_fill (hdr : PageHeaders) {s : Lsn} (hs : s % xlogPageSize = 0)
    (fs : List WalFrame) {chunks : List Bytes} (hchunks : chunks.flatten = hdr.stream s fs) :
    (new s).feedAll s [hdr.stream s fs] = .ok (framedRecords s fs) ∧
    ((new s).feedAll s chunks = (new s).feedAll s [hdr.stream s fs] ↔
      SafeCuts (zeroTails s fs) (chunkEnds s chunks)) := by
  have hwhole := feedAll_whole hdr hs fs
  refine ⟨hwhole, ?_⟩
  rw [hwhole]
  exact feedAll_stream_iff hdr hs fs hchunks

/-- A chunk that ends four bytes before the end of the zero-filled page is safe. -/
theorem feedAll_zero_fill_four_left :
    (new 0).feedAll 0 [switched.take 8188, switched.drop 8188] = (new 0).feedAll 0 [switched] :=
  (feedAll_zero_fill pg17Headers (s := 0) (by decide) [minimal none, minimal (some 0)]
    (by simp [switched])).2.mpr
    (by decide +kernel)

/-- A chunk that ends two bytes before the end of the zero-filled page loses the next record. -/
theorem feedAll_zero_fill_two_left :
    (new 0).feedAll 0 [switched.take 8190, switched.drop 8190] = .ok [(40, (minimal none).bytes)] ∧
    (new 0).feedAll 0 [switched] =
      .ok [(40, (minimal none).bytes), (8216, (minimal none).bytes)] := by
  refine ⟨by decide +kernel, ?_⟩
  rw [switched, feedAll_whole pg17Headers (by decide)]
  decide +kernel

end WalReader

end Ltap
