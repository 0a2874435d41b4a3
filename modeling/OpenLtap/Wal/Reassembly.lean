-- SUMMARY: What the WAL reader makes of a framed stream, for any chunking and any join point.
import OpenLtap.Wal.Framing

/-!
# Reassembly

The reader is followed through a framed stream turn by turn. `Mode` says how its state
stands to the content that is left: it skips, assembles a record, or is between two
records. A turn keeps the mode in step with the content, whatever part of the stream has
arrived. The one exception is zero fill. The reader steps over as many zeros as it has,
and if that leaves it less than four bytes before the end of the page, the length of the
next record is read across the page header.
-/

namespace Ltap

/-! ## Zero-filled page tails and chunk ends -/

/-- Where the reader stops in a zero-filled page tail from `a` to `b` when data comes in up
to each of `ends`: it moves on over four or more bytes only. -/
def stop (a b : Lsn) (ends : List Lsn) : Lsn :=
  ends.foldl (fun p e => if p + 4 ≤ e ∧ e < b then e else p) a

/-- The reader never stops less than four bytes before the end of a page tail. -/
def SafeCuts (tails : List (Lsn × Lsn)) (ends : List Lsn) : Prop :=
  ∀ t ∈ tails, stop t.1 t.2 ends + 4 ≤ t.2

instance (tails : List (Lsn × Lsn)) (ends : List Lsn) : Decidable (SafeCuts tails ends) :=
  inferInstanceAs (Decidable (∀ t ∈ tails, stop t.1 t.2 ends + 4 ≤ t.2))

theorem le_stop (a b : Lsn) (ends : List Lsn) : a ≤ stop a b ends := by
  induction ends generalizing a with
  | nil => exact le_rfl
  | cons e ends ih =>
    rw [stop, List.foldl_cons, ← stop]
    refine le_trans ?_ (ih _)
    split <;> lia

/-- Data that does not end in the tail does not move the reader. -/
theorem stop_eq_of_le {a b : Lsn} {ends : List Lsn} (h : ∀ e ∈ ends, b ≤ e) : stop a b ends = a := by
  induction ends with
  | nil => rfl
  | cons e ends ih =>
    simp only [List.mem_cons, forall_eq_or_imp] at h
    rw [stop, List.foldl_cons, if_neg (by have := h.1; lia), ← stop]
    exact ih h.2

theorem stop_cons_of_lt {a b e : Lsn} (h : e < a + 4) (ends : List Lsn) :
    stop a b (e :: ends) = stop a b ends := by
  rw [stop, List.foldl_cons, if_neg (by lia), ← stop]

theorem stop_cons_of_cut {a b e : Lsn} (h : a + 4 ≤ e) (hlt : e < b) (ends : List Lsn) :
    stop a b (e :: ends) = stop e b ends := by
  rw [stop, List.foldl_cons, if_pos ⟨h, hlt⟩, ← stop]

/-- Every tail still has room for a length field. -/
def Roomy (tails : List (Lsn × Lsn)) : Prop := ∀ t ∈ tails, t.1 + 4 ≤ t.2

theorem SafeCuts.roomy {tails : List (Lsn × Lsn)} {ends : List Lsn} (h : SafeCuts tails ends) :
    Roomy tails := fun t ht =>
  le_trans (Nat.add_le_add_right (le_stop t.1 t.2 ends) 4) (h t ht)

theorem SafeCuts.filter {tails : List (Lsn × Lsn)} {ends : List Lsn} (h : SafeCuts tails ends)
    (p : Lsn × Lsn → Bool) : SafeCuts (tails.filter p) ends := fun t ht => h t (List.mem_of_mem_filter ht)

theorem SafeCuts.append {tails : List (Lsn × Lsn)} {ends ends' : List Lsn}
    (h : SafeCuts tails (ends ++ ends')) : SafeCuts tails ends := fun t ht => by
  have hstop := h t ht
  rw [stop, List.foldl_append, ← stop, ← stop] at hstop
  exact le_trans (Nat.add_le_add_right (le_stop _ t.2 ends') 4) hstop

/-- With data up to `e`, the rest of the chunks is safe for one list of tails if and only if it
is for the other. -/
def SameCuts (e : Lsn) (tails tails' : List (Lsn × Lsn)) : Prop :=
  ∀ ends, (∀ e' ∈ ends, e ≤ e') → (SafeCuts tails (e :: ends) ↔ SafeCuts tails' (e :: ends))

namespace SameCuts

variable {e : Lsn} {tails tails' tails'' : List (Lsn × Lsn)}

theorem refl (tails : List (Lsn × Lsn)) : SameCuts e tails tails := fun _ _ => Iff.rfl

theorem trans (h : SameCuts e tails tails') (h' : SameCuts e tails' tails'') :
    SameCuts e tails tails'' := fun ends hends => (h ends hends).trans (h' ends hends)

theorem passed {p b : Lsn} (hroom : p + 4 ≤ b) (hb : b ≤ e) :
    SameCuts e ((p, b) :: tails) tails := by
  intro ends hends
  have hstop : stop p b (e :: ends) = p := by
    refine stop_eq_of_le ?_
    simp only [List.mem_cons, forall_eq_or_imp]
    exact ⟨hb, fun e' he' => le_trans hb (hends e' he')⟩
  simp [SafeCuts, hstop, hroom]

theorem cut {p b : Lsn} (hp : p + 4 ≤ e) (hb : e < b) :
    SameCuts e ((p, b) :: tails) ((e, b) :: tails) := by
  intro ends _
  simp [SafeCuts, stop_cons_of_cut hp hb, stop_cons_of_lt (Nat.lt_add_of_pos_right (by decide))]

end SameCuts

/-! ## The reader in step with the content -/

namespace WalReader

/-- How the state of the reader stands to the content from its position on. -/
inductive Mode (r : WalReader) : List Cell → List (Lsn × Bytes) → List (Lsn × Lsn) → Prop where
  /-- In front of the first page header, with the rest of a record to come first. -/
  | joining {cs : List Cell} {out : List (Lsn × Bytes)} {tails : List (Lsn × Lsn)} (bs : Bytes)
      (pad : List Cell) :
    r.started = false → r.skipLeft = 0 → r.need = 0 → r.pos % xlogPageSize = 0 →
    bs.length < 2 ^ 32 → pad.length = padLen bs.length →
    Between (after pad.length (after bs.length r.pos)) cs out tails →
    Mode r (bodyCells bs ++ (pad ++ cs)) out tails
  | skipping {cs : List Cell} {out : List (Lsn × Bytes)} {tails : List (Lsn × Lsn)}
      (skip pad : List Cell) :
    r.started = true → r.need = 0 → skip.length = r.skipLeft → skip ≠ [] →
    pad.length = maxalign (after skip.length r.pos) - after skip.length r.pos →
    Between (after pad.length (after skip.length r.pos)) cs out tails →
    Mode r (skip ++ (pad ++ cs)) out tails
  | body {cs : List Cell} {out : List (Lsn × Bytes)} {tails : List (Lsn × Lsn)}
      (rest pad : List Cell) :
    r.started = true → r.skipLeft = 0 → rest ≠ [] → r.need = r.rec_.length + rest.length →
    contentPos (after r.rec_.length r.recLsn) = contentPos r.pos →
    pad.length = maxalign (after rest.length r.pos) - after rest.length r.pos →
    Between (after pad.length (after rest.length r.pos)) cs out tails →
    Mode r (rest ++ (pad ++ cs)) ((r.recLsn, r.rec_ ++ rest.map (·.byte)) :: out) tails
  | ready {cs : List Cell} {out : List (Lsn × Bytes)} {tails : List (Lsn × Lsn)} :
    r.started = true → r.skipLeft = 0 → r.need = 0 → Between r.pos cs out tails →
    Mode r cs out tails

/-- The reader is in step with a stream of which `future` has not arrived. -/
def Follows (hdr : PageHeaders) (future : Bytes) (r : WalReader) (out : List (Lsn × Bytes))
    (tails : List (Lsn × Lsn)) : Prop :=
  ∃ cs, r.Mode cs out tails ∧ hdr.lay r.pos cs = r.pending ++ future

namespace Mode

variable {r : WalReader} {cs : List Cell} {out : List (Lsn × Bytes)} {tails : List (Lsn × Lsn)}

theorem assembling (h : r.Mode cs out tails) : r.Assembling := by
  cases h with
  | joining _ _ _ _ hneed => exact .inl hneed
  | skipping _ _ _ hneed => exact .inl hneed
  | body rest _ _ _ hrest hneed =>
    have := List.length_pos_of_ne_nil hrest
    exact .inr (by omega)
  | ready _ _ hneed => exact .inl hneed

/-- More data does not change the mode. -/
theorem pending (h : r.Mode cs out tails) (p : Bytes) : Mode { r with pending := p } cs out tails := by
  cases h with
  | joining bs pad h₁ h₂ h₃ h₄ h₅ h₆ h₇ => exact .joining bs pad h₁ h₂ h₃ h₄ h₅ h₆ h₇
  | skipping skip pad h₁ h₂ h₃ h₄ h₅ h₆ => exact .skipping skip pad h₁ h₂ h₃ h₄ h₅ h₆
  | body rest pad h₁ h₂ h₃ h₄ h₅ h₆ h₇ =>
    exact .body (r := { r with pending := p }) rest pad h₁ h₂ h₃ h₄ h₅ h₆ h₇
  | ready h₁ h₂ h₃ h₄ => exact .ready h₁ h₂ h₃ h₄

/-- What lies behind the skipped or assembled bytes and their padding. -/
theorem contentPos_le_rest (r : WalReader) (n m : Nat) :
    contentPos r.pos ≤ contentPos (after m (after n r.pos)) :=
  le_trans (contentPos_le_after n r.pos) (contentPos_le_after m _)

theorem contentPos_le_tail (h : r.Mode cs out tails) {t : Lsn × Lsn} (ht : t ∈ tails) :
    contentPos r.pos ≤ t.1 := by
  have hrest := contentPos_le_rest r
  cases h with
  | joining _ _ _ _ _ _ _ _ hbetween => exact le_trans (hrest _ _) (hbetween.contentPos_le_tail ht)
  | skipping _ _ _ _ _ _ _ hbetween => exact le_trans (hrest _ _) (hbetween.contentPos_le_tail ht)
  | body _ _ _ _ _ _ _ _ hbetween => exact le_trans (hrest _ _) (hbetween.contentPos_le_tail ht)
  | ready _ _ _ hbetween => exact hbetween.contentPos_le_tail ht

/-- The records to come end behind the reader: the one in assembly with its last byte, the others
with a whole record header. -/
theorem lt_recordEnd (h : r.Mode cs out tails) {e : Lsn × Bytes} (he : e ∈ out) :
    contentPos r.pos + recHdrLen ≤ recordEnd e ∨ r.need ≠ 0 ∧ contentPos r.pos < recordEnd e := by
  have hrest := fun n m => Nat.add_le_add_right (contentPos_le_rest r n m) recHdrLen
  cases h with
  | joining _ _ _ _ _ _ _ _ hbetween => exact .inl (le_trans (hrest _ _) (hbetween.le_recordEnd he))
  | skipping _ _ _ _ _ _ _ hbetween => exact .inl (le_trans (hrest _ _) (hbetween.le_recordEnd he))
  | body rest pad _ _ hrest0 hneed hplace _ hbetween =>
    rcases List.mem_cons.mp he with rfl | he
    · have hlen := List.length_pos_of_ne_nil hrest0
      refine .inr ⟨by omega, ?_⟩
      rw [recordEnd, List.length_append, List.length_map, after_add, after_congr hlen hplace]
      exact contentPos_lt_after hlen _
    · exact .inl (le_trans (hrest _ _) (hbetween.le_recordEnd he))
  | ready _ _ _ hbetween => exact .inl (hbetween.le_recordEnd he)

theorem nil (h : r.Mode [] out tails) : out = [] ∧ tails = [] := by
  generalize hcs : ([] : List Cell) = ds at h
  cases h with
  | joining bs pad _ _ _ _ _ _ hrest =>
    obtain ⟨-, -, rfl⟩ : bodyCells bs = [] ∧ pad = [] ∧ _ = [] := by simpa using hcs.symm
    exact hrest.nil
  | skipping skip pad _ _ _ hskip => simp [hskip] at hcs
  | body rest pad _ _ hrest => simp [hrest] at hcs
  | ready _ _ _ hrest =>
    subst hcs
    exact hrest.nil

/-- The padding comes after the skipped or assembled bytes. -/
theorem padded {pad : List Cell} (hstarted : r.started = true) (hneed : r.need = 0)
    (hskip : r.skipLeft = maxalign r.pos - r.pos) (hpad : pad.length = maxalign r.pos - r.pos)
    (h : Between (after pad.length r.pos) cs out tails) : r.Mode (pad ++ cs) out tails := by
  by_cases hnil : pad = []
  · subst hnil
    exact .ready hstarted (hskip.trans hpad.symm) hneed h
  · have hmod : after pad.length r.pos % 8 = 0 := by
      rw [after_mod_eight, hpad]
      unfold maxalign
      lia
    have hzero := maxalign_sub_aligned hmod
    exact .skipping pad [] hstarted hneed (hpad.trans hskip.symm) hnil hzero.symm h

end Mode

/-! ## One turn -/

/-- Content bytes that have arrived on the current page. -/
theorem consume {hdr : PageHeaders} {r : WalReader} {cs : List Cell} {future : Bytes} {n : Nat}
    (hlay : hdr.lay r.pos cs = r.pending ++ future) (hpos : r.pos % xlogPageSize ≠ 0)
    (hrem : n ≤ xlogPageSize - r.pos % xlogPageSize) (hlen : n ≤ r.pending.length)
    (hcs : n ≤ cs.length) :
    r.pending.take n = (cs.take n).map (·.byte) ∧
      hdr.lay (r.pos + n) (cs.drop n) = r.pending.drop n ++ future := by
  rw [hdr.lay_take hpos hrem hcs] at hlay
  have hlen' : ((cs.take n).map (·.byte)).length = n := by simp [hcs]
  have htake := congrArg (List.take n) hlay
  have hdrop := congrArg (List.drop n) hlay
  rw [List.take_left' hlen', List.take_append_of_le_length hlen] at htake
  rw [List.drop_left' hlen', List.drop_append_of_le_length hlen] at hdrop
  exact ⟨htake.symm, hdrop⟩

/-- Less than four zeros are left on the page, and records follow. -/
structure Stuck (hdr : PageHeaders) (future : Bytes) (r : WalReader) (out : List (Lsn × Bytes)) :
    Prop where
  started : r.started = true
  skipLeft : r.skipLeft = 0
  need : r.need = 0
  records : out ≠ []
  aligned : ∀ e ∈ out, e.1 % 8 = 0
  content : ∃ z cs, 0 < z ∧ z < 4 ∧ r.pos % xlogPageSize + z = xlogPageSize ∧
    hdr.lay r.pos (zeroCells z ++ cs) = r.pending ++ future

/-- What one turn does to a reader that is in step with its stream. -/
inductive Stepped (hdr : PageHeaders) (future : Bytes) (r : WalReader) (out : List (Lsn × Bytes))
    (tails : List (Lsn × Lsn)) : Prop where
  | wait : r.turn = .wait → future ≠ [] →
    r.receivedEnd < contentPos r.pos + (if r.need = 0 then 4 else 0) → Stepped hdr future r out tails
  | go (r' : WalReader) (o : Option (Lsn × Bytes)) (out' : List (Lsn × Bytes))
      (tails' : List (Lsn × Lsn)) :
    r.turn = .go r' o → out = o.toList ++ out' → (∀ e ∈ o, recordEnd e ≤ r'.pos) →
    r'.Follows hdr future out' tails' →
    SameCuts r.receivedEnd tails tails' →
    Roomy tails' ∨ (r'.pending = [] ∧ r'.Stuck hdr future out') →
    Stepped hdr future r out tails

section Turns

variable {hdr : PageHeaders} {future : Bytes} {r : WalReader} {cs : List Cell}
  {out : List (Lsn × Bytes)} {tails : List (Lsn × Lsn)}

theorem pageHeader_eq (r : WalReader) : r.pageHeader =
    if r.pending.length < hdrLen r.pos then .wait
    else if fromLe (r.pending.take 2) ∉ xlogPageMagics then
      .fail (.badMagic (fromLe (r.pending.take 2)) r.pos)
    else
      let r₁ := if r.started then r
        else { r with started := true, skipLeft := fromLe ((r.pending.drop 16).take 4) }
      let r₂ := r₁.advance (hdrLen r.pos)
      if r₂.skipLeft = 0 ∧ r₂.need = 0 then
        .go { r₂ with skipLeft := maxalign r₂.pos - r₂.pos } none
      else .go r₂ none := rfl

/-- A complete page header is accepted and shows `xlp_rem_len`. -/
theorem header_arrived {c : Cell} (hlay : hdr.lay r.pos (c :: cs) = r.pending ++ future)
    (hpos : r.pos % xlogPageSize = 0) (hlen : hdrLen r.pos ≤ r.pending.length) :
    fromLe (r.pending.take 2) ∈ xlogPageMagics ∧
      (c.rem < 2 ^ 32 → fromLe ((r.pending.drop 16).take 4) = c.rem) ∧
      hdr.lay (r.pos + hdrLen r.pos) (c :: cs) = r.pending.drop (hdrLen r.pos) ++ future := by
  rw [hdr.lay_header hpos] at hlay
  have hhdr := hdr.length r.pos c.rem
  have hge : 24 ≤ hdrLen r.pos := by
    unfold hdrLen
    split <;> decide
  have hpre : r.pending.take (hdrLen r.pos) = hdr.bytes r.pos c.rem := by
    have htake := congrArg (List.take (hdrLen r.pos)) hlay
    rw [List.take_left' hhdr, List.take_append_of_le_length hlen] at htake
    exact htake.symm
  have hdrop := congrArg (List.drop (hdrLen r.pos)) hlay
  rw [List.drop_left' hhdr, List.drop_append_of_le_length hlen] at hdrop
  refine ⟨?_, fun hrem => ?_, hdrop⟩
  · have hmagic := hdr.magic r.pos c.rem
    rw [← hpre, List.take_take, min_eq_left (by omega)] at hmagic
    exact hmagic
  · have hremLen := hdr.remLen r.pos c.rem hrem
    rw [← hpre, List.drop_take, List.take_take, min_eq_left (by omega)] at hremLen
    exact hremLen

/-- A page boundary. -/
theorem turn_boundary (h : r.Mode cs out tails)
    (hlay : hdr.lay r.pos cs = r.pending ++ future) (hne : r.pending ≠ [])
    (hroomy : Roomy tails) (hpos : r.pos % xlogPageSize = 0) : Stepped hdr future r out tails := by
  have hturn : r.turn = r.pageHeader := by simp [turn, hpos]
  obtain ⟨c, cs, rfl⟩ : ∃ c ds, cs = c :: ds := by
    cases cs with
    | nil => simp [PageHeaders.lay, hne] at hlay
    | cons c cs => exact ⟨c, cs, rfl⟩
  by_cases hlen : r.pending.length < hdrLen r.pos
  · refine .wait (by rw [hturn, pageHeader_eq, if_pos hlen]) ?_ ?_
    · rintro rfl
      have := congrArg List.length hlay
      rw [hdr.lay_header hpos] at this
      simp only [List.length_append, hdr.length, List.length_nil] at this
      omega
    · rw [receivedEnd, contentPos_boundary hpos]
      lia
  · obtain ⟨hmagic, hremLen, hlay'⟩ := header_arrived hlay hpos (not_lt.mp hlen)
    have hmod : (r.pos + hdrLen r.pos) % 8 = 0 := by
      have := hdrLen_mod r.pos
      have := mod_eight_of_boundary hpos
      lia
    have hgo : ∀ r', r.turn = .go r' none → r'.Mode (c :: cs) out tails →
        r'.pos = r.pos + hdrLen r.pos → r'.pending = r.pending.drop (hdrLen r.pos) →
        Stepped hdr future r out tails := by
      intro r' hr' hmode hrpos hrpend
      refine .go r' none out tails hr' rfl (by simp) ⟨c :: cs, hmode, ?_⟩ (.refl _) (.inl hroomy)
      rw [hrpos, hrpend]
      exact hlay'
    rw [hturn, pageHeader_eq, if_neg hlen, if_neg (not_not_intro hmagic)] at hgo
    generalize hds : c :: cs = ds at h hgo
    cases h with
    | joining bs pad hstarted hskip hneed _ hbs hpad hrest =>
      -- The header tells how much of a record there is to skip.
      have hrem : c.rem = bs.length := by
        cases bs with
        | nil =>
          obtain rfl : pad = [] := List.length_eq_zero_iff.mp (by simpa [padLen, maxalign] using hpad)
          simp only [bodyCells, List.nil_append] at hds
          subst hds
          exact hrest.head_rem
        | cons b bs =>
          simp only [bodyCells, List.cons_append, List.cons.injEq] at hds
          rw [hds.1]
          rfl
      have hskip' := hremLen (by rw [hrem]; exact hbs)
      rw [hrem] at hskip'
      by_cases hbs0 : bs = []
      · subst hbs0
        obtain rfl : pad = [] := List.length_eq_zero_iff.mp (by simpa [padLen, maxalign] using hpad)
        have hzero := maxalign_sub_aligned hmod
        refine hgo { r.advance (hdrLen r.pos) with started := true, skipLeft := 0 }
          (by simp [hstarted, advance, hskip', hneed, hzero]) ?_ rfl rfl
        refine .ready rfl rfl hneed ?_
        simpa [bodyCells, after, advance] using hrest.header hpos
      · have hbslen := List.length_pos_of_ne_nil hbs0
        refine hgo { r.advance (hdrLen r.pos) with started := true, skipLeft := bs.length }
          (by simp [hstarted, advance, hskip', hbs0]) ?_ rfl rfl
        have hafter : after (bodyCells bs).length (r.pos + hdrLen r.pos) = after bs.length r.pos := by
          rw [bodyCells_length]
          exact after_header hpos hbslen
        have hal := maxalign_sub_after (n := bs.length) (mod_eight_of_boundary hpos)
        refine .skipping (bodyCells bs) pad rfl hneed (bodyCells_length bs) ?_ ?_ ?_
        · exact List.ne_nil_of_length_pos (by simpa using hbslen)
        · simp only [advance, hafter]
          exact hpad.trans hal.symm
        · simp only [advance, hafter]
          exact hrest
    | skipping skip pad hstarted hneed hskip hne' hpad hrest =>
      have hlen' := List.length_pos_of_ne_nil hne'
      have hskip0 : r.skipLeft ≠ 0 := by omega
      refine hgo (r.advance (hdrLen r.pos)) (by simp [hstarted, advance, hskip0]) ?_ rfl rfl
      have hafter := after_header (n := skip.length) hpos hlen'
      exact .skipping skip pad hstarted hneed hskip hne' (by simp only [advance, hafter]; exact hpad)
        (by simp only [advance, hafter]; exact hrest)
    | body rest pad hstarted hskip hne' hneed hplace hpad hrest =>
      have hlen' := List.length_pos_of_ne_nil hne'
      have hneed0 : r.need ≠ 0 := by omega
      refine hgo (r.advance (hdrLen r.pos)) (by simp [hstarted, advance, hneed0]) ?_ rfl rfl
      have hafter := after_header (n := rest.length) hpos hlen'
      exact .body (r := r.advance (hdrLen r.pos)) rest pad hstarted hskip hne' hneed
        (hplace.trans (contentPos_header hpos).symm) (by simp only [advance, hafter]; exact hpad)
        (by simp only [advance, hafter]; exact hrest)
    | ready hstarted hskip hneed hrest =>
      have hzero := maxalign_sub_aligned hmod
      refine hgo (r.advance (hdrLen r.pos)) (by simp [hstarted, advance, hskip, hneed, hzero]) ?_ rfl rfl
      exact .ready hstarted hskip hneed (hrest.header hpos)

/-- Bytes that are skipped. -/
theorem turn_skipping {skip pad : List Cell} (hlay : hdr.lay r.pos (skip ++ (pad ++ cs)) = r.pending ++ future)
    (hroomy : Roomy tails) (hpos : r.pos % xlogPageSize ≠ 0)
    (hstarted : r.started = true) (hneed : r.need = 0) (hskip : skip.length = r.skipLeft)
    (hskip0 : skip ≠ [])
    (hpad : pad.length = maxalign (after skip.length r.pos) - after skip.length r.pos)
    (hrest : Between (after pad.length (after skip.length r.pos)) cs out tails) :
    Stepped hdr future r out tails := by
  have hskipLen := List.length_pos_of_ne_nil hskip0
  have hturn : r.turn = r.discard (xlogPageSize - r.pos % xlogPageSize) := by
    rw [turn, if_neg hpos, if_pos (by omega)]
  generalize hn : min (min r.skipLeft (xlogPageSize - r.pos % xlogPageSize)) r.pending.length = n
  have hrem : n ≤ xlogPageSize - r.pos % xlogPageSize := by omega
  have hnskip : n ≤ skip.length := by omega
  obtain ⟨-, hlay'⟩ := consume hlay hpos hrem (by omega) (by simp only [List.length_append]; omega)
  rw [List.drop_append_of_le_length hnskip] at hlay'
  have hinside := after_inside hpos hrem
  by_cases hdone : r.skipLeft - n = 0
  · obtain rfl : n = skip.length := by omega
    rw [hinside] at hpad hrest
    rw [List.drop_length, List.nil_append] at hlay'
    refine .go { r.advance skip.length with
        skipLeft := maxalign (r.pos + skip.length) - (r.pos + skip.length) }
      none out tails ?_ rfl (by simp) ⟨pad ++ cs, ?_, hlay'⟩ (.refl _) (.inl hroomy)
    · simp only [hturn, discard, hn, hdone, if_true, advance]
    · exact .padded hstarted hneed rfl hpad hrest
  · have hafter : after (skip.drop n).length (r.pos + n) = after skip.length r.pos := by
      rw [← hinside, ← after_add, List.length_drop, Nat.add_sub_cancel' hnskip]
    refine .go { r.advance n with skipLeft := r.skipLeft - n } none out tails ?_ rfl (by simp)
      ⟨skip.drop n ++ (pad ++ cs), ?_, hlay'⟩ (.refl _) (.inl hroomy)
    · simp only [hturn, discard, hn, hdone, if_false, advance]
    · refine .skipping (skip.drop n) pad hstarted hneed ?_ ?_ ?_ ?_
      · simp only [List.length_drop, hskip]
      · exact List.ne_nil_of_length_pos (by rw [List.length_drop]; omega)
      · simp only [advance, hafter]
        exact hpad
      · simp only [advance, hafter]
        exact hrest

/-- Bytes of the record in assembly. -/
theorem turn_body {rest pad : List Cell} (hlay : hdr.lay r.pos (rest ++ (pad ++ cs)) = r.pending ++ future)
    (hroomy : Roomy tails) (hpos : r.pos % xlogPageSize ≠ 0) (hne : r.pending ≠ [])
    (hstarted : r.started = true) (hskip : r.skipLeft = 0) (hrest0 : rest ≠ [])
    (hneed : r.need = r.rec_.length + rest.length)
    (hplace : contentPos (after r.rec_.length r.recLsn) = contentPos r.pos)
    (hpad : pad.length = maxalign (after rest.length r.pos) - after rest.length r.pos)
    (hrest : Between (after pad.length (after rest.length r.pos)) cs out tails) :
    Stepped hdr future r ((r.recLsn, r.rec_ ++ rest.map (·.byte)) :: out) tails := by
  have hrestLen := List.length_pos_of_ne_nil hrest0
  have hturn : r.turn = r.accumulate (xlogPageSize - r.pos % xlogPageSize) := by
    rw [turn, if_neg hpos, if_neg (by omega), if_pos (by omega)]
  generalize hn :
    min (min (r.need - r.rec_.length) (xlogPageSize - r.pos % xlogPageSize)) r.pending.length = n
  have hrem : n ≤ xlogPageSize - r.pos % xlogPageSize := by omega
  have hnrest : n ≤ rest.length := by omega
  obtain ⟨htake, hlay'⟩ := consume hlay hpos hrem (by omega) (by simp only [List.length_append]; omega)
  rw [List.drop_append_of_le_length hnrest] at hlay'
  rw [List.take_append_of_le_length hnrest] at htake
  have hinside := after_inside hpos hrem
  have hgathered : after (r.rec_.length + n) r.recLsn = r.pos + n := by
    have hpending := List.length_pos_of_ne_nil hne
    have hpage : r.pos % xlogPageSize < xlogPageSize := Nat.mod_lt _ (by decide)
    have hn0 : 0 < n := hn ▸ lt_min (lt_min (by omega) (Nat.sub_pos_of_lt hpage)) hpending
    rw [after_add, after_congr hn0 hplace, hinside]
  by_cases hdone : n = rest.length
  · subst hdone
    rw [hinside] at hpad hrest
    rw [List.drop_length, List.nil_append] at hlay'
    rw [List.take_length] at htake
    refine .go { r.advance rest.length with
        rec_ := [], need := 0, skipLeft := maxalign (r.pos + rest.length) - (r.pos + rest.length) }
      (some (r.recLsn, r.rec_ ++ rest.map (·.byte))) out tails ?_ rfl ?_ ⟨pad ++ cs, ?_, hlay'⟩
      (.refl _) (.inl hroomy)
    · simp only [hturn, accumulate, hn, htake, advance]
      rw [if_pos (by simp [hneed])]
    · intro e he
      obtain rfl := Option.mem_some_iff.mp he
      rw [recordEnd, List.length_append, List.length_map, hgathered]
      rfl
    · exact .padded hstarted rfl rfl hpad hrest
  · have hafter : after (rest.drop n).length (r.pos + n) = after rest.length r.pos := by
      rw [← hinside, ← after_add, List.length_drop, Nat.add_sub_cancel' hnrest]
    have hrec : r.rec_ ++ rest.map (·.byte) =
        r.rec_ ++ (rest.take n).map (·.byte) ++ (rest.drop n).map (·.byte) := by
      rw [List.append_assoc, ← List.map_append, List.take_append_drop]
    rw [hrec]
    refine .go { r.advance n with rec_ := r.rec_ ++ (rest.take n).map (·.byte) } none _ tails ?_ rfl (by simp)
      ⟨rest.drop n ++ (pad ++ cs), ?_, hlay'⟩ (.refl _) (.inl hroomy)
    · simp only [hturn, accumulate, hn, htake, advance]
      rw [if_neg (by simp [hneed]; omega)]
    · refine .body (r := { r.advance n with rec_ := r.rec_ ++ (rest.take n).map (·.byte) })
        (rest.drop n) pad hstarted hskip ?_ ?_ ?_ ?_ ?_
      · exact List.ne_nil_of_length_pos (by rw [List.length_drop]; omega)
      · simp only [advance, hneed, List.length_append, List.length_map, List.length_take,
          List.length_drop]
        omega
      · simp only [advance, List.length_append, List.length_map, List.length_take_of_le hnrest, hgathered]
      · simp only [advance, hafter]
        exact hpad
      · simp only [advance, hafter]
        exact hrest

theorem newRecord_eq (r : WalReader) (hpos : r.pos % xlogPageSize ≠ 0) (hskip : r.skipLeft = 0)
    (hneed : r.need = 0) : r.turn = r.newRecord (xlogPageSize - r.pos % xlogPageSize) := by
  rw [turn, if_neg hpos, if_neg (by omega), if_neg (by omega)]

/-- With less than four bytes there the reader waits for the length field. -/
theorem turn_short (hpos : r.pos % xlogPageSize ≠ 0) (hskip : r.skipLeft = 0) (hneed : r.need = 0)
    (hroom : 4 ≤ xlogPageSize - r.pos % xlogPageSize) (hcs : 4 ≤ cs.length)
    (hlay : hdr.lay r.pos cs = r.pending ++ future) (hlen : r.pending.length < 4) :
    Stepped hdr future r out tails := by
  refine .wait (by rw [newRecord_eq r hpos hskip hneed, newRecord, if_pos hlen]) ?_ ?_
  · rintro rfl
    have hle := congrArg List.length hlay
    rw [hdr.lay_take hpos hroom hcs] at hle
    simp only [List.length_append, List.length_map, List.length_take, List.length_nil] at hle
    omega
  · rw [receivedEnd, contentPos_inside hpos, if_pos hneed]
    lia

/-- The start of a record. -/
theorem turn_record {bytes : Bytes}
    (hlay : hdr.lay r.pos (startCells bytes ++ (zeroCells (padLen bytes.length) ++ cs)) =
      r.pending ++ future)
    (hroomy : Roomy tails) (hpos : r.pos % xlogPageSize ≠ 0) (hstarted : r.started = true)
    (hskip : r.skipLeft = 0) (hneed : r.need = 0) (hhdr : recHdrLen ≤ bytes.length)
    (htot : fromLe (bytes.take 4) = bytes.length) (hmod : r.pos % 8 = 0)
    (hrest : Between (after (maxalign bytes.length) r.pos) cs out tails) :
    Stepped hdr future r ((contentPos r.pos, bytes) :: out) tails := by
  have hroom : 4 ≤ xlogPageSize - r.pos % xlogPageSize := by
    unfold xlogPageSize
    lia
  have hbytes : 24 ≤ bytes.length := hhdr
  have hcs : 4 ≤ (startCells bytes ++ (zeroCells (padLen bytes.length) ++ cs)).length := by
    simp only [List.length_append, startCells_length]
    omega
  by_cases hlen : r.pending.length < 4
  · exact turn_short hpos hskip hneed hroom hcs hlay hlen
  · obtain ⟨htake, -⟩ := consume hlay hpos hroom (not_lt.mp hlen) hcs
    rw [List.take_append_of_le_length (by simp only [startCells_length]; omega), List.map_take,
      startCells_bytes] at htake
    have hne : startCells bytes ≠ [] := List.ne_nil_of_length_pos (by rw [startCells_length]; omega)
    refine .go { r with recLsn := r.pos, need := bytes.length, rec_ := [] } none _ tails ?_ rfl (by simp)
      ⟨_, ?_, hlay⟩ (.refl _) (.inl hroomy)
    · rw [newRecord_eq r hpos hskip hneed, newRecord, if_neg hlen, htake, htot,
        if_neg (by omega), if_neg (not_lt.mpr hhdr)]
    · have hpad : (zeroCells (padLen bytes.length)).length =
          maxalign (after (startCells bytes).length r.pos) - after (startCells bytes).length r.pos := by
        rw [startCells_length, zeroCells_length]
        exact (maxalign_sub_after hmod).symm
      have hafter : Between (after (zeroCells (padLen bytes.length)).length
          (after (startCells bytes).length r.pos)) cs out tails := by
        rw [startCells_length, zeroCells_length, ← after_add, maxalign_add_padLen]
        exact hrest
      have hbody := Mode.body (r := { r with recLsn := r.pos, need := bytes.length, rec_ := [] })
        (startCells bytes) (zeroCells (padLen bytes.length)) hstarted hskip hne (by simp) rfl hpad hafter
      rw [contentPos_inside hpos]
      simpa using hbody

/-- Zero fill: the reader moves on to the next page, or to the end of what has arrived. -/
theorem turn_zeros {z : Nat} (hlay : hdr.lay r.pos (zeroCells z ++ cs) = r.pending ++ future)
    (hroomy : Roomy ((r.pos, r.pos + z) :: tails)) (hpos : r.pos % xlogPageSize ≠ 0)
    (hstarted : r.started = true) (hskip : r.skipLeft = 0) (hneed : r.need = 0)
    (hz : r.pos % xlogPageSize + z = xlogPageSize) (hout : out ≠ [])
    (hrest : Between (r.pos + z) cs out tails) :
    Stepped hdr future r out ((r.pos, r.pos + z) :: tails) := by
  simp only [Roomy, List.mem_cons, forall_eq_or_imp] at hroomy
  have hz4 : 4 ≤ z := by
    have := hroomy.1
    lia
  have hrem : xlogPageSize - r.pos % xlogPageSize = z := by lia
  have hcs : z ≤ (zeroCells z ++ cs).length := by simp
  by_cases hlen : r.pending.length < 4
  · exact turn_short hpos hskip hneed (by omega) (le_trans hz4 hcs) hlay hlen
  · obtain ⟨htake, -⟩ := consume hlay hpos (by omega) (not_lt.mp hlen) (le_trans hz4 hcs)
    rw [List.take_append_of_le_length (by simpa using hz4), List.map_take, zeroCells_bytes,
      List.take_replicate, min_eq_left hz4] at htake
    generalize hn : min (xlogPageSize - r.pos % xlogPageSize) r.pending.length = n
    have hturn : r.turn = .go (r.advance n) none := by
      rw [newRecord_eq r hpos hskip hneed, newRecord, if_neg hlen, htake, hn]
      rfl
    obtain ⟨-, hlay'⟩ := consume hlay hpos (n := n) (by omega) (by omega) (by omega)
    rw [List.drop_append_of_le_length (by simp; omega), zeroCells_drop] at hlay'
    have hend : r.receivedEnd = r.pos + r.pending.length := rfl
    by_cases hall : z ≤ r.pending.length
    · obtain rfl : n = z := by omega
      rw [Nat.sub_self] at hlay'
      exact .go (r.advance n) none out tails hturn rfl (by simp) ⟨cs, .ready hstarted hskip hneed hrest, hlay'⟩
        (.passed hroomy.1 (by lia)) (.inl hroomy.2)
    · obtain rfl : n = r.pending.length := by omega
      have hnil : (r.advance r.pending.length).pending = [] := by simp [advance]
      have hback : r.pos + r.pending.length + (z - r.pending.length) = r.pos + z := by lia
      have hmod : (r.pos + r.pending.length) % xlogPageSize = r.pos % xlogPageSize + r.pending.length := by
        unfold xlogPageSize at hz ⊢
        lia
      have hinner : (r.pos + r.pending.length) % xlogPageSize ≠ 0 := by
        rw [hmod]
        lia
      have hzeros := Between.zeros (z - r.pending.length) (by omega) hinner (by rw [hmod]; lia) hout
        (by rw [hback]; exact hrest)
      refine .go (r.advance r.pending.length) none out ((r.receivedEnd, r.pos + z) :: tails) hturn rfl (by simp)
        ⟨_, .ready hstarted hskip hneed (hback ▸ hzeros), hlay'⟩ (.cut (by lia) (by lia)) ?_
      by_cases hleft : z - r.pending.length < 4
      · right
        refine ⟨hnil, hstarted, hskip, hneed, hout, fun e he => hrest.aligned he,
          z - r.pending.length, cs, by lia, hleft, ?_, hlay'⟩
        simp only [advance, hmod]
        lia
      · left
        simp only [Roomy, List.mem_cons, forall_eq_or_imp]
        exact ⟨by lia, hroomy.2⟩

/-- Every turn keeps the reader in step. -/
theorem Follows.turn (h : r.Follows hdr future out tails) (hroomy : Roomy tails)
    (hne : r.pending ≠ []) : Stepped hdr future r out tails := by
  obtain ⟨cs, hmode, hlay⟩ := h
  by_cases hpos : r.pos % xlogPageSize = 0
  · exact turn_boundary hmode hlay hne hroomy hpos
  · cases hmode with
    | joining _ _ _ _ _ hboundary => exact absurd hboundary hpos
    | skipping skip pad hstarted hneed hskip hskip0 hpad hrest =>
      exact turn_skipping hlay hroomy hpos hstarted hneed hskip hskip0 hpad hrest
    | body rest pad hstarted hskip hrest0 hneed hplace hpad hrest =>
      exact turn_body hlay hroomy hpos hne hstarted hskip hrest0 hneed hplace hpad hrest
    | ready hstarted hskip hneed hrest =>
      generalize hp : r.pos = p at hrest
      cases hrest with
      | done => simp [PageHeaders.lay, hne] at hlay
      | record bytes hhdr htot hmod hrest =>
        subst hp
        exact turn_record hlay hroomy hpos hstarted hskip hneed hhdr htot hmod hrest
      | zeros z _ _ hz hout hrest =>
        subst hp
        exact turn_zeros hlay hroomy hpos hstarted hskip hneed hz hout hrest
      | zeroPage hboundary =>
        subst hp
        exact absurd hboundary hpos

end Turns

end WalReader

end Ltap
