-- SUMMARY: The loop over the attributes of a tuple, column by column.
import OpenLtap.Wal.Tuple

/-!
# The attribute loop

`Entry` says what one column adds to the row, `Entries` what all of them do, with the
number of values that are taken from the old row. The loop returns a row exactly if there
are entries for it.
-/

namespace Ltap

variable (z : Codecs) (toast : ToastCache) (t : TupleBody)

/-- What a column adds to the row, where the next one starts, and the number of values
taken from the old row. -/
inductive Entry (i off liveI : Nat) : PhysCol → Row → Nat → Nat → Prop where
  | absentLive (col : Col) : t.natts ≤ i → Entry i off liveI (.live col) [none] off 0
  | absentDropped (attlen : Int) (align : Nat) :
    t.natts ≤ i → Entry i off liveI (.dropped attlen align) [] off 0
  | nullLive (col : Col) :
    i < t.natts → t.isNull i = .ok true → Entry i off liveI (.live col) [none] off 0
  | nullDropped (attlen : Int) (align : Nat) :
    i < t.natts → t.isNull i = .ok true → Entry i off liveI (.dropped attlen align) [] off 0
  | dropped {attlen : Int} {align off' : Nat} :
    i < t.natts → t.isNull i = .ok false → skipDropped z toast t.data off attlen align = .ok off' →
    Entry i off liveI (.dropped attlen align) [] off' 0
  | value {col : Col} {v : Value} {off' : Nat} :
    i < t.natts → t.isNull i = .ok false → decodeValue z toast t.data off col.ty = .ok (some v, off') →
    Entry i off liveI (.live col) [some v] off' 0
  /-- An out-of-line value without chunks, which the old row has. -/
  | carried {col : Col} {v : Value} {off' : Nat} :
    i < t.natts → t.isNull i = .ok false → decodeValue z toast t.data off col.ty = .ok (none, off') →
    (t.oldRow.bind fun r => (r[liveI]?).join) = some v →
    Entry i off liveI (.live col) [some v] off' 1

/-- The position of the next live column. -/
def PhysCol.nextLive (liveI : Nat) : PhysCol → Nat
  | .live _ => liveI + 1
  | .dropped _ _ => liveI

/-- The columns from `i` on, with the number of values taken from the old row. -/
inductive Entries : Nat → Nat → Nat → List PhysCol → Row → Nat → Prop where
  | nil (i off liveI : Nat) : Entries i off liveI [] [] 0
  | cons {i off liveI off' k n : Nat} {pc : PhysCol} {rest : List PhysCol} {vs row : Row} :
    Entry z toast t i off liveI pc vs off' k →
    Entries (i + 1) off' (pc.nextLive liveI) rest row n →
    Entries i off liveI (pc :: rest) (vs ++ row) (n + k)

variable {z toast t}

theorem Entry.unique {i off liveI : Nat} {pc : PhysCol} {vs vs' : Row} {off₁ off₂ k k' : Nat}
    (h : Entry z toast t i off liveI pc vs off₁ k) (h' : Entry z toast t i off liveI pc vs' off₂ k') :
    vs = vs' ∧ off₁ = off₂ ∧ k = k' := by
  cases h <;> cases h' <;> simp_all <;> omega

theorem Entry.dropped_row {i off liveI off' k : Nat} {attlen : Int} {align : Nat} {vs : Row}
    (h : Entry z toast t i off liveI (.dropped attlen align) vs off' k) : vs = [] := by
  cases h <;> rfl

theorem Entry.live_row {i off liveI off' k : Nat} {col : Col} {vs : Row}
    (h : Entry z toast t i off liveI (.live col) vs off' k) : ∃ x, vs = [x] := by
  cases h <;> exact ⟨_, rfl⟩

theorem Entries.count_unique {i off liveI : Nat} {phys : List PhysCol} {row row' : Row} {n n' : Nat}
    (h : Entries z toast t i off liveI phys row n) (h' : Entries z toast t i off liveI phys row' n') :
    n = n' := by
  induction h generalizing row' n' with
  | nil => cases h'; rfl
  | cons hentry _ ih =>
    cases h' with
    | cons hentry' hrest' =>
      obtain ⟨-, rfl, rfl⟩ := hentry.unique hentry'
      rw [ih hrest']

theorem inColumn_ok {α : Type} {name : String} {r : Except Fault α} {a : α} :
    inColumn name r = .ok a ↔ r = .ok a := by
  rcases r with (e | _) | a'
  · simp [inColumn, bail]
  · simp [inColumn]
  · simp [inColumn]

/-- A column with an entry is passed. -/
theorem Entry.decodeAttrs_eq {i off liveI : Nat} {pc : PhysCol} {vs : Row} {off' k : Nat}
    (h : Entry z toast t i off liveI pc vs off' k) (rest : List PhysCol) :
    decodeAttrs z toast t i off liveI (pc :: rest) =
      (decodeAttrs z toast t (i + 1) off' (pc.nextLive liveI) rest).map (vs ++ ·) := by
  cases h with
  | absentLive col hi =>
    rw [decodeAttrs, if_pos hi]
    rfl
  | absentDropped attlen align hi =>
    rw [decodeAttrs, if_pos hi]
    exact (congrFun Except.map_id _).symm
  | nullLive col hi hnull =>
    rw [decodeAttrs, if_neg (not_le.mpr hi), hnull]
    rfl
  | nullDropped attlen align hi hnull =>
    rw [decodeAttrs, if_neg (not_le.mpr hi), hnull]
    exact (congrFun Except.map_id _).symm
  | dropped hi hnull hskip =>
    rw [decodeAttrs, if_neg (not_le.mpr hi), hnull]
    simp only [bind, Except.bind, Bool.false_eq_true, if_false, hskip]
    exact (congrFun Except.map_id _).symm
  | value hi hnull hvalue =>
    rw [decodeAttrs, if_neg (not_le.mpr hi), hnull]
    simp only [bind, Except.bind, Bool.false_eq_true, if_false, decodeColumn, inColumn_ok.mpr hvalue]
    rfl
  | carried hi hnull hvalue hold =>
    rw [decodeAttrs, if_neg (not_le.mpr hi), hnull]
    simp only [bind, Except.bind, Bool.false_eq_true, if_false, decodeColumn, inColumn_ok.mpr hvalue]
    simp only [hold]
    rfl

/-- A column that is read has an entry. -/
theorem entry_of_decodeColumn {i off liveI : Nat} {col : Col} {r : Value × Nat} (hi : i < t.natts)
    (hnull : t.isNull i = .ok false) (h : decodeColumn z toast t col off liveI = .ok r) :
    ∃ k, Entry z toast t i off liveI (.live col) [some r.1] r.2 k := by
  obtain ⟨⟨value, newOff⟩, hvalue, h⟩ := bind_eq_ok.mp h
  rw [inColumn_ok] at hvalue
  cases value with
  | some w =>
    obtain rfl := Except.ok.inj h
    exact ⟨0, .value hi hnull hvalue⟩
  | none =>
    cases hold : t.oldRow.bind fun r => (r[liveI]?).join with
    | some w =>
      simp only [hold] at h
      obtain rfl := Except.ok.inj h
      exact ⟨1, .carried hi hnull hvalue hold⟩
    | none =>
      simp only [hold] at h
      cases h

/-- A column that is passed has an entry. -/
theorem exists_entry {i off liveI : Nat} {pc : PhysCol} {rest : List PhysCol} {row : Row}
    (h : decodeAttrs z toast t i off liveI (pc :: rest) = .ok row) :
    ∃ vs off' k, Entry z toast t i off liveI pc vs off' k := by
  by_cases hi : t.natts ≤ i
  · cases pc with
    | live col => exact ⟨_, _, _, .absentLive col hi⟩
    | dropped attlen align => exact ⟨_, _, _, .absentDropped attlen align hi⟩
  cases pc with
  | dropped attlen align =>
    rw [decodeAttrs, if_neg hi] at h
    obtain ⟨isNull, hnull, h⟩ := bind_eq_ok.mp h
    cases isNull with
    | true => exact ⟨_, _, _, .nullDropped attlen align (not_le.mp hi) hnull⟩
    | false =>
      obtain ⟨off', hskip, -⟩ := bind_eq_ok.mp h
      exact ⟨_, _, _, .dropped (not_le.mp hi) hnull hskip⟩
  | live col =>
    rw [decodeAttrs, if_neg hi] at h
    obtain ⟨isNull, hnull, h⟩ := bind_eq_ok.mp h
    cases isNull with
    | true => exact ⟨_, _, _, .nullLive col (not_le.mp hi) hnull⟩
    | false =>
      obtain ⟨r, hcol, -⟩ := bind_eq_ok.mp h
      obtain ⟨k, hentry⟩ := entry_of_decodeColumn (not_le.mp hi) hnull hcol
      exact ⟨_, _, k, hentry⟩

/-- The loop returns a row exactly if every column has an entry. -/
theorem decodeAttrs_ok_iff {i off liveI : Nat} {phys : List PhysCol} {row : Row} :
    decodeAttrs z toast t i off liveI phys = .ok row ↔ ∃ n, Entries z toast t i off liveI phys row n := by
  induction phys generalizing i off liveI row with
  | nil =>
    constructor
    · intro h
      cases h
      exact ⟨0, .nil i off liveI⟩
    · rintro ⟨n, hnil⟩
      cases hnil
      rfl
  | cons pc rest ih =>
    constructor
    · intro h
      obtain ⟨vs, off', k, hentry⟩ := exists_entry h
      rw [hentry.decodeAttrs_eq] at h
      cases hrest : decodeAttrs z toast t (i + 1) off' (pc.nextLive liveI) rest with
      | error e =>
        rw [hrest] at h
        cases h
      | ok row' =>
        rw [hrest] at h
        cases h
        obtain ⟨n, hn⟩ := ih.mp hrest
        exact ⟨n + k, .cons hentry hn⟩
    · rintro ⟨_, hcons⟩
      cases hcons with
      | cons hentry hrest => rw [hentry.decodeAttrs_eq, ih.mpr ⟨_, hrest⟩, Except.map]

/-! ## Another header -/

section Congr

variable {t' : TupleBody} (hdata : t'.data = t.data) (hnatts : t'.natts = t.natts) (hold : t'.oldRow = t.oldRow)
  (hnull : ∀ i < t.natts, ∀ null, t.isNull i = .ok null → t'.isNull i = .ok null)
include hdata hnatts hold hnull

theorem Entry.congr {i off liveI : Nat} {pc : PhysCol} {vs : Row} {off' k : Nat}
    (h : Entry z toast t i off liveI pc vs off' k) : Entry z toast t' i off liveI pc vs off' k := by
  cases h with
  | absentLive col hi => exact .absentLive col (hnatts ▸ hi)
  | absentDropped attlen align hi => exact .absentDropped attlen align (hnatts ▸ hi)
  | nullLive col hi h => exact .nullLive col (hnatts ▸ hi) (hnull _ hi _ h)
  | nullDropped attlen align hi h => exact .nullDropped attlen align (hnatts ▸ hi) (hnull _ hi _ h)
  | dropped hi h hskip => exact .dropped (hnatts ▸ hi) (hnull _ hi _ h) (hdata ▸ hskip)
  | value hi h hvalue => exact .value (hnatts ▸ hi) (hnull _ hi _ h) (hdata ▸ hvalue)
  | carried hi h hvalue hrow => exact .carried (hnatts ▸ hi) (hnull _ hi _ h) (hdata ▸ hvalue) (hold ▸ hrow)

/-- The loop reads its tuple only through the data and the nulls of the stored attributes. -/
theorem decodeAttrs_congr {i off liveI : Nat} {phys : List PhysCol} {row : Row}
    (h : decodeAttrs z toast t i off liveI phys = .ok row) : decodeAttrs z toast t' i off liveI phys = .ok row := by
  obtain ⟨n, hentries⟩ := decodeAttrs_ok_iff.mp h
  refine decodeAttrs_ok_iff.mpr ⟨n, ?_⟩
  clear h
  induction hentries with
  | nil i off liveI => exact .nil i off liveI
  | cons hentry _ ih => exact .cons (hentry.congr hdata hnatts hold hnull) ih

end Congr

/-! ## Without the old row -/

/-- The loop without an old row. -/
def TupleBody.alone (t : TupleBody) : TupleBody := { t with oldRow := none }

theorem Entry.alone_iff {i off liveI : Nat} {pc : PhysCol} {vs : Row} {off' k : Nat} :
    Entry z toast t.alone i off liveI pc vs off' k ↔ k = 0 ∧ Entry z toast t i off liveI pc vs off' 0 := by
  constructor
  · intro h
    cases h with
    | absentLive col h => exact ⟨rfl, .absentLive col h⟩
    | absentDropped attlen align h => exact ⟨rfl, .absentDropped attlen align h⟩
    | nullLive col hi h => exact ⟨rfl, .nullLive col hi h⟩
    | nullDropped attlen align hi h => exact ⟨rfl, .nullDropped attlen align hi h⟩
    | dropped hi hnull h => exact ⟨rfl, .dropped hi hnull h⟩
    | value hi hnull h => exact ⟨rfl, .value hi hnull h⟩
    | carried hi hnull h hold => cases hold
  · rintro ⟨rfl, h⟩
    cases h with
    | absentLive col h => exact .absentLive col h
    | absentDropped attlen align h => exact .absentDropped attlen align h
    | nullLive col hi h => exact .nullLive col hi h
    | nullDropped attlen align hi h => exact .nullDropped attlen align hi h
    | dropped hi hnull h => exact .dropped hi hnull h
    | value hi hnull h => exact .value hi hnull h

theorem Entries.of_alone {i off liveI : Nat} {phys : List PhysCol} {row : Row} {n : Nat}
    (h : Entries z toast t.alone i off liveI phys row n) :
    n = 0 ∧ Entries z toast t i off liveI phys row 0 := by
  induction h with
  | nil i off liveI => exact ⟨rfl, .nil i off liveI⟩
  | cons hentry _ ih =>
    obtain ⟨rfl, hshared⟩ := Entry.alone_iff.mp hentry
    obtain ⟨rfl, hrest⟩ := ih
    exact ⟨rfl, .cons hshared hrest⟩

theorem Entries.alone {i off liveI : Nat} {phys : List PhysCol} {row : Row} {n : Nat}
    (h : Entries z toast t i off liveI phys row n) (hn : n = 0) :
    Entries z toast t.alone i off liveI phys row 0 := by
  induction h with
  | nil i off liveI => exact .nil i off liveI
  | cons hentry _ ih =>
    obtain ⟨rfl, rfl⟩ := Nat.add_eq_zero_iff.mp hn
    exact .cons (Entry.alone_iff.mpr ⟨rfl, hentry⟩) (ih rfl)

/-- The old row makes a difference exactly if a row can be read with it and a value is
taken from it. -/
theorem decodeAttrs_alone_iff {i off liveI : Nat} {phys : List PhysCol} :
    (decodeAttrs z toast t i off liveI phys).toOption =
      (decodeAttrs z toast t.alone i off liveI phys).toOption ↔
      ¬ ∃ row n, Entries z toast t i off liveI phys row (n + 1) := by
  constructor
  · rintro heq ⟨row, n, hrow⟩
    have hwith := decodeAttrs_ok_iff.mpr ⟨_, hrow⟩
    cases halone : decodeAttrs z toast t.alone i off liveI phys with
    | error e =>
      rw [hwith, halone] at heq
      cases heq
    | ok row' =>
      obtain ⟨m, hm⟩ := decodeAttrs_ok_iff.mp halone
      have := hrow.count_unique hm.of_alone.2
      omega
  · intro hnone
    cases hwith : decodeAttrs z toast t i off liveI phys with
    | error e =>
      cases halone : decodeAttrs z toast t.alone i off liveI phys with
      | error e' => rfl
      | ok row =>
        obtain ⟨m, hm⟩ := decodeAttrs_ok_iff.mp halone
        rw [decodeAttrs_ok_iff.mpr ⟨0, hm.of_alone.2⟩] at hwith
        cases hwith
    | ok row =>
      obtain ⟨n, hn⟩ := decodeAttrs_ok_iff.mp hwith
      cases n with
      | zero => rw [decodeAttrs_ok_iff.mpr ⟨0, hn.alone rfl⟩]
      | succ n => exact absurd ⟨row, n, hn⟩ hnone

end Ltap
