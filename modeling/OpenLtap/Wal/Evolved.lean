-- SUMMARY: Tuples under a descriptor with columns dropped and appended since.
import OpenLtap.Wal.AttrLoop
import OpenLtap.Wal.Reencode

/-!
# Evolved descriptors

A dropped column leaves a slot with its width and alignment, which is stepped over as its
value was read. A row keeps the values of the columns that stay.
-/

namespace Ltap

/-! ## Slots of dropped columns -/

/-- Columns with these attribute numbers are dropped. -/
def PhysCol.evolve (drops : Nat → Bool) (i : Nat) : PhysCol → PhysCol
  | .live col => if drops i then .dropped col.ty.attlen col.ty.align else .live col
  | .dropped attlen align => .dropped attlen align

def evolveFrom (drops : Nat → Bool) : Nat → List PhysCol → List PhysCol
  | _, [] => []
  | i, pc :: rest => pc.evolve drops i :: evolveFrom drops (i + 1) rest

/-- The attribute numbers of the live columns, in the order of the row. -/
def liveSlots : Nat → List PhysCol → List Nat
  | _, [] => []
  | i, .live _ :: rest => i :: liveSlots (i + 1) rest
  | i, .dropped _ _ :: rest => liveSlots (i + 1) rest

/-- The values of the columns that stay. -/
def keptFrom (drops : Nat → Bool) (i : Nat) (phys : List PhysCol) (row : Row) : Row :=
  (((liveSlots i phys).zip row).filter fun slot => !drops slot.1).map (·.2)

namespace TableDesc

variable (desc : TableDesc) (drops : Nat → Bool) (added : List Col)

/-- The descriptor after `drop column` and `add column`. -/
def evolve : TableDesc :=
  let phys := evolveFrom drops 0 desc.phys ++ added.map .live
  { desc with phys, cols := phys.filterMap PhysCol.live? }

/-- A row of the table in the shape of the evolved one. -/
def project (row : Row) : Row := keptFrom drops 0 desc.phys row ++ List.replicate added.length none

end TableDesc

/-! ## Stepping over a value -/

section Skip

variable {z : Codecs} {toast : ToastCache} {data : Bytes} {off off' : Nat}

/-- The slot of a dropped column is as wide as the value in it, aligned the same way. -/
theorem skipDropped_of_decodeValue {ty : PgType} {v : Option Value}
    (h : decodeValue z toast data off ty = .ok (v, off')) :
    skipDropped z toast data off ty.attlen ty.align = .ok off' := by
  rcases decodeValue_ok h with ⟨hlen, rfl, hle, -⟩ | ⟨hlen, bytes, hread, -⟩
  · have halign : ty.align ≠ 0 := by cases ty <;> decide
    have hwidth : off + ty.align ≤ alignTo off ty.align + ty.attlen.toNat := by
      have hoff : off ≤ alignTo off ty.align := by
        cases ty with
        | bool | uuid => exact le_alignTo off 0
        | int2 => exact le_alignTo off 1
        | int4 | float4 | date | text | bytea | numeric | jsonb => exact le_alignTo off 2
        | int8 | float8 | timestamp | timestampTz => exact le_alignTo off 3
      have hwide : ty.align ≤ ty.attlen.toNat := by
        cases ty with
        | text | bytea | numeric | jsonb => exact absurd hlen (by decide)
        | bool | int2 | int4 | int8 | float4 | float8 | date | timestamp | timestampTz | uuid => decide
      exact Nat.add_le_add hoff hwide
    have hfits : ¬ (ty.align = 0 ∨ data.length < off + ty.align ∧
        2 ^ 64 ≤ max (off + ty.align) (alignTo off ty.align + ty.attlen.toNat)) := by
      rintro (hzero | ⟨hlt, -⟩)
      · exact halign hzero
      · exact absurd (hwidth.trans hle) (not_le.mpr hlt)
    rw [skipDropped, if_pos hlen]
    exact if_neg hfits
  · rw [skipDropped, hlen, if_neg (by decide), hread]
    rfl

end Skip

/-! ## The columns that stay -/

section Kept

variable {drops : Nat → Bool} {i : Nat} {col : Col} {rest : List PhysCol}

@[simp] theorem keptFrom_nil (phys : List PhysCol) : keptFrom drops i phys [] = [] := by
  simp [keptFrom]

@[simp] theorem keptFrom_dropped {attlen : Int} {align : Nat} (row : Row) :
    keptFrom drops i (.dropped attlen align :: rest) row = keptFrom drops (i + 1) rest row := rfl

theorem keptFrom_live_drop (h : drops i = true) (row : Row) :
    keptFrom drops i (.live col :: rest) row = keptFrom drops (i + 1) rest row.tail := by
  cases row with
  | nil => simp
  | cons v row => simp [keptFrom, liveSlots, h]

theorem keptFrom_live_keep (h : drops i = false) (v : Option Value) (row : Row) :
    keptFrom drops i (.live col :: rest) (v :: row) = v :: keptFrom drops (i + 1) rest row := by
  simp [keptFrom, liveSlots, h]

variable (drops) in
/-- From a column on, the evolved old row has the values that stay of the old row. -/
def OldAligned (i : Nat) (phys : List PhysCol) (old old' : Option Row) (liveI liveI' : Nat) : Prop :=
  ∀ r, old = some r → ∃ r' tail, old' = some r' ∧ r'.drop liveI' = keptFrom drops i phys (r.drop liveI) ++ tail

variable {old old' : Option Row} {liveI liveI' : Nat}

theorem OldAligned.drop (h : OldAligned drops i (.live col :: rest) old old' liveI liveI') (hdrop : drops i = true) :
    OldAligned drops (i + 1) rest old old' (liveI + 1) liveI' := by
  intro r hr
  obtain ⟨r', tail, hr', hkept⟩ := h r hr
  refine ⟨r', tail, hr', ?_⟩
  rw [hkept, keptFrom_live_drop hdrop, List.tail_drop]

theorem OldAligned.keep (h : OldAligned drops i (.live col :: rest) old old' liveI liveI') (hkeep : drops i = false) :
    OldAligned drops (i + 1) rest old old' (liveI + 1) (liveI' + 1) := by
  intro r hr
  obtain ⟨r', tail, hr', hkept⟩ := h r hr
  have hnext : r'.drop (liveI' + 1) = (r'.drop liveI').tail := List.tail_drop.symm
  have hnextOld : r.drop (liveI + 1) = (r.drop liveI).tail := List.tail_drop.symm
  cases hvalues : r.drop liveI with
  | nil =>
    refine ⟨r', tail.tail, hr', ?_⟩
    rw [hnext, hkept, hnextOld, hvalues, keptFrom_nil, List.tail_nil, keptFrom_nil, List.nil_append, List.nil_append]
  | cons v values =>
    refine ⟨r', tail, hr', ?_⟩
    rw [hnext, hkept, hnextOld, hvalues, keptFrom_live_keep hkeep, List.cons_append, List.tail_cons, List.tail_cons]

/-- The old value of a column that stays. -/
theorem OldAligned.value (h : OldAligned drops i (.live col :: rest) old old' liveI liveI') (hkeep : drops i = false)
    {v : Value} (hv : (old.bind fun r => (r[liveI]?).join) = some v) :
    (old'.bind fun r => (r[liveI']?).join) = some v := by
  obtain ⟨r, hr, hv⟩ := Option.bind_eq_some_iff.mp hv
  obtain ⟨r', tail, hr', hkept⟩ := h r hr
  have hhead : (r.drop liveI)[0]? = some (some v) := by
    rw [List.getElem?_drop, Nat.add_zero]
    exact Option.join_eq_some_iff.mp hv
  obtain ⟨values, hvalues⟩ : ∃ values, r.drop liveI = some v :: values := by
    cases hdrop : r.drop liveI with
    | nil => simp [hdrop] at hhead
    | cons w values =>
      rw [hdrop] at hhead
      exact ⟨values, by rw [Option.some.inj hhead]⟩
  have hhead' : (r'.drop liveI')[0]? = some (some v) := by
    rw [hkept, hvalues, keptFrom_live_keep hkeep]
    rfl
  rw [List.getElem?_drop, Nat.add_zero] at hhead'
  rw [hr', Option.bind_some, hhead', Option.join_some]

end Kept

/-! ## Reading with the evolved descriptor -/

section Evolve

variable {z : Codecs} {toast : ToastCache} {t : TupleBody} {drops : Nat → Bool} {old' : Option Row}

/-- Appended columns are absent from tuples that are older. -/
theorem Entries.appended {i off liveI : Nat} (added : List Col) (hnatts : t.natts ≤ i) :
    Entries z toast t i off liveI (added.map .live) (List.replicate added.length none) 0 := by
  induction added generalizing i liveI with
  | nil => exact .nil i off liveI
  | cons col added ih => exact .cons (.absentLive col hnatts) (ih (by omega))

/-- A column that is dropped now is passed where its value ended. -/
theorem Entry.drop {i off liveI off' k : Nat} {col : Col} {vs : Row}
    (h : Entry z toast t i off liveI (.live col) vs off' k) (old' : Option Row) (liveI' : Nat) :
    Entry z toast { t with oldRow := old' } i off liveI' (.dropped col.ty.attlen col.ty.align) [] off' 0 := by
  cases h with
  | absentLive _ hi => exact .absentDropped _ _ hi
  | nullLive _ hi hnull => exact .nullDropped _ _ hi hnull
  | value hi hnull hvalue => exact .dropped hi hnull (skipDropped_of_decodeValue hvalue)
  | carried hi hnull hvalue _ => exact .dropped hi hnull (skipDropped_of_decodeValue hvalue)

/-- A column that stays has the same value. -/
theorem Entry.keep {i off liveI liveI' off' k : Nat} {col : Col} {rest : List PhysCol} {vs : Row}
    (h : Entry z toast t i off liveI (.live col) vs off' k)
    (hold : OldAligned drops i (.live col :: rest) t.oldRow old' liveI liveI') (hkeep : drops i = false) :
    Entry z toast { t with oldRow := old' } i off liveI' (.live col) vs off' k := by
  cases h with
  | absentLive _ hi => exact .absentLive _ hi
  | nullLive _ hi hnull => exact .nullLive _ hi hnull
  | value hi hnull hvalue => exact .value hi hnull hvalue
  | carried hi hnull hvalue hrow => exact .carried hi hnull hvalue (hold.value hkeep hrow)

/-- A slot that was dropped before is passed as before. -/
theorem Entry.stay {i off liveI off' k : Nat} {attlen : Int} {align : Nat} {vs : Row}
    (h : Entry z toast t i off liveI (.dropped attlen align) vs off' k) (old' : Option Row) (liveI' : Nat) :
    Entry z toast { t with oldRow := old' } i off liveI' (.dropped attlen align) [] off' 0 := by
  cases h with
  | absentDropped _ _ hi => exact .absentDropped _ _ hi
  | nullDropped _ _ hi hnull => exact .nullDropped _ _ hi hnull
  | dropped hi hnull hskip => exact .dropped hi hnull hskip

theorem Entries.evolve {i off liveI liveI' n : Nat} {phys : List PhysCol} {row : Row} (added : List Col)
    (h : Entries z toast t i off liveI phys row n) (hnatts : t.natts ≤ i + phys.length)
    (hold : OldAligned drops i phys t.oldRow old' liveI liveI') :
    ∃ n', Entries z toast { t with oldRow := old' } i off liveI' (evolveFrom drops i phys ++ added.map .live)
      (keptFrom drops i phys row ++ List.replicate added.length none) n' := by
  induction h generalizing liveI' with
  | nil i off liveI =>
    rw [evolveFrom, keptFrom_nil]
    exact ⟨0, Entries.appended added hnatts⟩
  | @cons i off liveI off' k n pc rest vs row hentry _ ih =>
    have hnatts' : t.natts ≤ i + 1 + rest.length := by
      rw [List.length_cons] at hnatts
      omega
    cases pc with
    | dropped attlen align =>
      obtain rfl := hentry.dropped_row
      obtain ⟨n', hrest⟩ := ih hnatts' hold
      have hcons := Entries.cons (hentry.stay old' liveI') hrest
      exact ⟨n' + 0, hcons⟩
    | live col =>
      obtain ⟨v, rfl⟩ := hentry.live_row
      by_cases hdrop : drops i = true
      · obtain ⟨n', hrest⟩ := ih hnatts' (hold.drop hdrop)
        refine ⟨n' + 0, ?_⟩
        rw [evolveFrom, PhysCol.evolve, if_pos hdrop, keptFrom_live_drop hdrop]
        have hcons := Entries.cons (hentry.drop old' liveI') hrest
        exact hcons
      · rw [Bool.not_eq_true] at hdrop
        obtain ⟨n', hrest⟩ := ih hnatts' (hold.keep hdrop)
        refine ⟨n' + k, ?_⟩
        rw [evolveFrom, PhysCol.evolve, if_neg (by simp [hdrop]), List.singleton_append, keptFrom_live_keep hdrop]
        have hcons := Entries.cons (hentry.keep hold hdrop) hrest
        exact hcons

theorem evolveFrom_length (i : Nat) (phys : List PhysCol) : (evolveFrom drops i phys).length = phys.length := by
  induction phys generalizing i with
  | nil => rfl
  | cons pc rest ih => rw [evolveFrom, List.length_cons, ih, List.length_cons]

/-- A tuple that reads under a descriptor reads under an evolved one, with the same bytes and the values of the
columns that are left. -/
theorem decodeTuplePayload_evolve (z : Codecs) (toast : ToastCache) (tuple : Bytes) (tInfomask2 tInfomask tHoff : Nat)
    (desc : TableDesc) (oldRow : Option Row) (drops : Nat → Bool) (added : List Col) (row : Row) (attrs : Bytes)
    (h : decodeTuplePayload z toast tuple tInfomask2 tInfomask tHoff desc oldRow = .ok (row, attrs)) :
    decodeTuplePayload z toast tuple tInfomask2 tInfomask tHoff (desc.evolve drops added)
      (oldRow.map (desc.project drops added)) = .ok (desc.project drops added row, attrs) := by
  have hlength : (desc.evolve drops added).phys.length = desc.phys.length + added.length := by
    rw [TableDesc.evolve, List.length_append, evolveFrom_length, List.length_map]
  obtain ⟨hnatts, hhoff, hlen, rfl, hread⟩ := (HeapTuple.decodeTuplePayload_ok_iff z desc toast).mp h
  obtain ⟨n, hentries⟩ := decodeAttrs_ok_iff.mp hread
  have hold : OldAligned drops 0 desc.phys oldRow (oldRow.map (desc.project drops added)) 0 0 := by
    rintro r rfl
    exact ⟨_, List.replicate added.length none, rfl, rfl⟩
  obtain ⟨n', hevolved⟩ := hentries.evolve added (by simpa using hnatts) hold
  exact (HeapTuple.decodeTuplePayload_ok_iff z (desc.evolve drops added) toast).mpr
    ⟨by omega, hhoff, hlen, rfl, decodeAttrs_ok_iff.mpr ⟨n', hevolved⟩⟩

/-- `(id int, note text, n int)` without `note`, and with a new column. -/
theorem decodeTuplePayload_evolve_note :
    let desc : TableDesc := {
      name := "t", oid := 16384, dbOid := 5, relNode := 16384, toastRelNode := none
      cols := [⟨"id", .int4⟩, ⟨"note", .text⟩, ⟨"n", .int4⟩]
      phys := [.live ⟨"id", .int4⟩, .live ⟨"note", .text⟩, .live ⟨"n", .int4⟩]
      hasFastDefaults := false, pk := ["id"] }
    decodeTuplePayload .pglzOnly .empty ([0] ++ toLe 4 1 ++ [0x07, 0x68, 0x69, 0] ++ toLe 4 2) 3 0x0802 24
      (desc.evolve (· = 1) [⟨"late", .bool⟩]) none =
        .ok ([some (.i32 1), some (.i32 2), none], toLe 4 1 ++ [0x07, 0x68, 0x69, 0] ++ toLe 4 2) :=
  decodeTuplePayload_evolve .pglzOnly .empty _ 3 0x0802 24 _ none (· = 1) [⟨"late", .bool⟩]
    [some (.i32 1), some (.text "hi"), some (.i32 2)] _ (by decide +kernel)

end Evolve

end Ltap
