-- SUMMARY: What the COPY parser makes of a stream that ends too early (`snapshot.rs`).
import OpenLtap.CopyBinary
import OpenLtap.Wal.DecodePanics

/-!
# Truncated COPY streams

A cut can fall into any field of any row, a length, an address or the trailer. Every read is
checked but that of the address. The rows before the cut are decoded first, and a date may
panic on its own.
-/

namespace Ltap

/-! ## Failing computations -/

/-- The computation fails, and by a panic exactly under this condition. -/
def Fails {α : Type} (x : Except Fault α) (p : Prop) : Prop :=
  x = .error .panic ∧ p ∨ (∃ e, x = .error (.error e)) ∧ ¬ p

namespace Fails

variable {α β : Type} {x : Except Fault α} {p q : Prop}

theorem rejects_iff (h : Fails x p) : (∃ e, x = .error (.error e)) ↔ ¬ p := by
  rcases h with ⟨rfl, hp⟩ | ⟨⟨e, rfl⟩, hp⟩
  · simp [hp]
  · simp [hp]

theorem of_bail {what : String} (hp : ¬ p) : Fails (bail what : Except Fault α) p :=
  .inr ⟨⟨_, rfl⟩, hp⟩

theorem bind (h : Fails x p) (f : α → Except Fault β) : Fails (x >>= f) p := by
  rcases h with ⟨rfl, hp⟩ | ⟨⟨e, rfl⟩, hp⟩
  · exact .inl ⟨rfl, hp⟩
  · exact .inr ⟨⟨e, rfl⟩, hp⟩

theorem map (h : Fails x p) (f : α → β) : Fails (x.map f) p := by
  rcases h with ⟨rfl, hp⟩ | ⟨⟨e, rfl⟩, hp⟩
  · exact .inl ⟨rfl, hp⟩
  · exact .inr ⟨⟨e, rfl⟩, hp⟩

theorem congr (h : Fails x p) (hpq : p ↔ q) : Fails x q := by
  rwa [← propext hpq]

end Fails

/-! ## Positions in a list -/

/-- An element with this relation to the elements before it is the first one or behind it. -/
theorem exists_split_cons {α : Type} {P : List α → α → Prop} {a : α} {l : List α} :
    (∃ before x after, a :: l = before ++ x :: after ∧ P before x) ↔
      P [] a ∨ ∃ before x after, l = before ++ x :: after ∧ P (a :: before) x := by
  constructor
  · rintro ⟨before, x, after, heq, hP⟩
    cases before with
    | nil =>
      obtain ⟨rfl, -⟩ := List.cons.inj heq
      exact .inl hP
    | cons b before =>
      obtain ⟨rfl, rfl⟩ := List.cons.inj heq
      exact .inr ⟨before, x, after, rfl, hP⟩
  · rintro (hP | ⟨before, x, after, rfl, hP⟩)
    · exact ⟨[], a, l, rfl, hP⟩
    · exact ⟨a :: before, x, after, rfl, hP⟩

theorem take_append_of_le {α : Type} {before after : List α} {m : Nat} (h : before.length ≤ m) :
    (before ++ after).take m = before ++ after.take (m - before.length) := by
  rw [List.take_append, List.take_of_length_le h]

/-! ## Overflows -/

/-- The value has no room for the shift to the Unix epoch. -/
def Datum.Overflows : Datum → Prop
  | .date x => 2 ^ 31 ≤ fromTwos 32 x.toNat + pgEpochDays
  | .timestamp x | .timestampTz x => 2 ^ 63 ≤ fromTwos 64 x.toNat + pgEpochMicros
  | _ => False

theorem Datum.value_eq_panic {d : Datum} : d.value = .error .panic ↔ d.Overflows := by
  cases d with
  | date x =>
    rw [value, map_eq_panic]
    have hlo : -2 ^ (32 - 1) ≤ fromTwos 32 x.toNat := fromTwos_ge 32 _
    exact checkedAdd_eq_panic (hlo.trans (Int.le_add_of_nonneg_right (by decide)))
  | timestamp x | timestampTz x =>
    rw [value, map_eq_panic]
    have hlo : -2 ^ (64 - 1) ≤ fromTwos 64 x.toNat := fromTwos_ge 64 _
    exact checkedAdd_eq_panic (hlo.trans (Int.le_add_of_nonneg_right (by decide)))
  | uuid b h =>
    have hlen : ¬ (b.flatMap hexByte).length < 32 := by
      simp only [List.length_flatMap, hexByte, List.length_cons, List.length_nil, List.map_const', List.sum_replicate,
        h, smul_eq_mul]
      omega
    simp only [value, formatUuid, if_neg hlen]
    exact iff_of_false (by rintro ⟨⟩) id
  | bool | int2 | int4 | int8 | float4 | float8 | text | bytea | numericLong | numericShort
  | numericSpecial | jsonb => exact iff_of_false (by rintro ⟨⟩) id

namespace CopyRow

/-- A value among the first `m` bytes of the fields overflows. -/
def OverflowIn (ds : List (Option Datum)) (m : Nat) : Prop :=
  ∃ before d after, ds = before ++ d :: after ∧ (∃ x ∈ d, x.Overflows) ∧
    ((before ++ [d]).flatMap fieldBytes).length ≤ m

theorem overflowIn_cons {d : Option Datum} {ds : List (Option Datum)} {m : Nat} :
    OverflowIn (d :: ds) m ↔
      (fieldBytes d).length ≤ m ∧ ((∃ x ∈ d, x.Overflows) ∨ OverflowIn ds (m - (fieldBytes d).length)) := by
  rw [OverflowIn, exists_split_cons (P := fun before d => (∃ x ∈ d, x.Overflows) ∧
    ((before ++ [d]).flatMap fieldBytes).length ≤ m)]
  simp only [List.nil_append, List.cons_append, List.flatMap_cons, List.flatMap_nil, List.append_nil,
    List.length_append]
  constructor
  · rintro (⟨hx, hm⟩ | ⟨before, x, after, rfl, hx, hm⟩)
    · exact ⟨hm, .inl hx⟩
    · exact ⟨by omega, .inr ⟨before, x, after, rfl, hx, by omega⟩⟩
  · rintro ⟨hm, hx | ⟨before, x, after, rfl, hx, hle⟩⟩
    · exact .inl ⟨hx, hm⟩
    · exact .inr ⟨before, x, after, rfl, hx, by omega⟩

theorem not_overflowIn_nil (m : Nat) : ¬ OverflowIn [] m := by
  rintro ⟨before, d, after, heq, -⟩
  simp at heq

/-- All fields of a row: it has its values, or one of them overflows. -/
theorem mapM_cell_cases (ds : List (Option Datum)) {m : Nat} (hm : (ds.flatMap fieldBytes).length ≤ m) :
    (∃ row, ds.mapM cell = .ok row) ∧ ¬ OverflowIn ds m ∨ ds.mapM cell = .error .panic ∧ OverflowIn ds m := by
  induction ds generalizing m with
  | nil => exact .inl ⟨⟨[], rfl⟩, not_overflowIn_nil m⟩
  | cons d ds ih =>
    rw [List.flatMap_cons, List.length_append] at hm
    have ih := ih (m := m - (fieldBytes d).length) (by omega)
    have hcons : OverflowIn (d :: ds) m ↔ _ := overflowIn_cons
    rw [and_iff_right (by omega)] at hcons
    have hcell : (∃ v, cell d = .ok v) ∧ ¬ (∃ x ∈ d, x.Overflows) ∨
        cell d = .error .panic ∧ ∃ x ∈ d, x.Overflows := by
      cases d with
      | none => exact .inl ⟨⟨none, rfl⟩, by simp⟩
      | some x =>
        rcases x.value_cases with ⟨v, hv⟩ | hpanic
        · have hnot : ¬ x.Overflows := by
            rw [← Datum.value_eq_panic, hv]
            rintro ⟨⟩
          exact .inl ⟨⟨some v, by rw [cell, hv]; rfl⟩, by simpa using hnot⟩
        · exact .inr ⟨by rw [cell, hpanic]; rfl, x, rfl, Datum.value_eq_panic.mp hpanic⟩
    rw [List.mapM_cons, hcons]
    rcases hcell with ⟨⟨v, hv⟩, hnot⟩ | ⟨hpanic, hx⟩
    · rw [hv]
      rcases ih with ⟨⟨row, hrow⟩, hrest⟩ | ⟨hpanic, hrest⟩
      · exact .inl ⟨⟨v :: row, by rw [hrow]; rfl⟩, not_or.mpr ⟨hnot, hrest⟩⟩
      · exact .inr ⟨by rw [hpanic]; rfl, .inr hrest⟩
    · exact .inr ⟨by rw [hpanic]; rfl, .inl hx⟩

end CopyRow

/-! ## Fields -/

open CopyRow

/-- A field that is cut in its length or in its value. -/
theorem copyFields_short {p : Prop} {col : Col} {cols : List Col} {d : Option Datum} (rest : Bytes) {m : Nat}
    (hlt : ∀ x ∈ d, x.send.length < 2 ^ 31) (hm : m < (fieldBytes d).length) (hp : ¬ p) :
    Fails (copyFields (col :: cols) ((fieldBytes d ++ rest).take m)) p := by
  by_cases hshort : m < 4
  · have hlen : ((fieldBytes d ++ rest).take m).length < 4 := by
      rw [List.length_take]
      omega
    rw [copyFields, if_pos hlen]
    exact .of_bail hp
  · -- Only a field with a value is longer than its length.
    cases d with
    | none => exact absurd hm hshort
    | some x =>
      have hsend := hlt x rfl
      have hlen : fromTwos 32 (fromBe (toBe 4 x.send.length)) = x.send.length := by
        rw [fromBe_toBe (by omega), fromTwos, if_pos (by omega)]
      have hrest : ((x.send ++ rest).take (m - 4)).length < x.send.length := by
        rw [fieldBytes, List.length_append, toBe_length] at hm
        rw [List.length_take]
        omega
      have hfour : (toBe 4 x.send.length).length = 4 := toBe_length 4 _
      rw [fieldBytes, List.append_assoc, take_append_of_le (by omega), hfour, copyFields,
        if_neg (not_toBe_lt 4 _ _), toBe_take, toBe_drop, hlen, if_neg (by omega), Int.toNat_natCast, if_pos hrest]
      exact .of_bail hp

/-- A tuple that is cut in its fields is rejected, unless a value before the cut panics. -/
theorem copyFields_cut {cols : List Col} {ds : List (Option Datum)}
    (htyped : List.Forall₂ (fun col d => ∀ x ∈ d, x.ty = col.ty) cols ds)
    (hlt : ∀ d, some d ∈ ds → d.send.length < 2 ^ 31) {m : Nat} (hm : m < (ds.flatMap fieldBytes).length) :
    Fails (copyFields cols ((ds.flatMap fieldBytes).take m)) (OverflowIn ds m) := by
  induction htyped generalizing m with
  | nil => cases hm
  | @cons col d cols ds hty _ ih =>
    rw [List.flatMap_cons] at hm ⊢
    by_cases hfield : m < (fieldBytes d).length
    · refine copyFields_short _ (fun x hx => hlt x (hx ▸ List.mem_cons_self)) hfield ?_
      rw [overflowIn_cons]
      omega
    · have ih := ih (fun x hx => hlt x (List.mem_cons_of_mem _ hx)) (m := m - (fieldBytes d).length)
        (by rw [List.length_append] at hm; omega)
      have hcons : OverflowIn (d :: ds) m ↔ _ := overflowIn_cons
      rw [and_iff_right (by omega)] at hcons
      rw [take_append_of_le (by omega)]
      cases d with
      | none =>
        rw [copyFields_null]
        exact (ih.map _).congr (by simpa using hcons.symm)
      | some x =>
        rw [copyFields_some (hty x rfl) (hlt x List.mem_cons_self)]
        rcases x.value_cases with ⟨v, hv⟩ | hpanic
        · have hnot : ¬ x.Overflows := by
            rw [← Datum.value_eq_panic, hv]
            rintro ⟨⟩
          rw [hv]
          exact (ih.map _).congr (by simpa [hnot] using hcons.symm)
        · rw [hpanic]
          exact .inl ⟨rfl, hcons.mpr (.inl ⟨x, rfl, Datum.value_eq_panic.mp hpanic⟩)⟩

/-! ## Rows -/

/-- The bytes that rows take in the stream. -/
def rowsLength (rows : List CopyRow) : Nat := (rows.flatMap (·.bytes)).length

@[simp] theorem rowsLength_nil : rowsLength [] = 0 := rfl

@[simp] theorem rowsLength_cons (r : CopyRow) (rows : List CopyRow) :
    rowsLength (r :: rows) = r.bytes.length + rowsLength rows := by
  rw [rowsLength, List.flatMap_cons, List.length_append, rowsLength]

/-- The cut falls into the address of a row. -/
def AddressCut (rows : List CopyRow) (n : Nat) : Prop :=
  ∃ before r after, rows = before ++ r :: after ∧ rowsLength before + 6 ≤ n ∧ n < rowsLength before + 12

/-- A value that ends before the cut overflows. -/
def OverflowBefore (rows : List CopyRow) (n : Nat) : Prop :=
  ∃ before r after, rows = before ++ r :: after ∧
    rowsLength before + 12 ≤ n ∧ OverflowIn r.datums (n - (rowsLength before + 12))

/-- The parser panics on the rows up to the cut. -/
def PanicsAt (rows : List CopyRow) (n : Nat) : Prop := AddressCut rows n ∨ OverflowBefore rows n

section Rows

variable {r : CopyRow} {rows : List CopyRow} {n : Nat}

theorem CopyRow.bytes_length (r : CopyRow) : r.bytes.length = 12 + (r.datums.flatMap fieldBytes).length := by
  simp only [bytes, List.length_append, toBe_length]
  omega

theorem addressCut_cons :
    AddressCut (r :: rows) n ↔
      (6 ≤ n ∧ n < 12) ∨ (r.bytes.length ≤ n ∧ AddressCut rows (n - r.bytes.length)) := by
  rw [AddressCut, exists_split_cons (P := fun before _ => rowsLength before + 6 ≤ n ∧ n < rowsLength before + 12)]
  simp only [rowsLength_nil, rowsLength_cons, Nat.zero_add]
  refine or_congr Iff.rfl ?_
  constructor
  · rintro ⟨before, x, after, rfl, hlo, hhi⟩
    exact ⟨by omega, before, x, after, rfl, by omega, by omega⟩
  · rintro ⟨hn, before, x, after, rfl, hlo, hhi⟩
    exact ⟨before, x, after, rfl, by omega, by omega⟩

theorem overflowBefore_cons :
    OverflowBefore (r :: rows) n ↔
      (12 ≤ n ∧ OverflowIn r.datums (n - 12)) ∨
        (r.bytes.length ≤ n ∧ OverflowBefore rows (n - r.bytes.length)) := by
  rw [OverflowBefore, exists_split_cons (P := fun before x =>
    rowsLength before + 12 ≤ n ∧ OverflowIn x.datums (n - (rowsLength before + 12)))]
  simp only [rowsLength_nil, rowsLength_cons, Nat.zero_add]
  have hsub : ∀ k, n - (r.bytes.length + k + 12) = n - r.bytes.length - (k + 12) := by omega
  refine or_congr Iff.rfl ?_
  constructor
  · rintro ⟨before, x, after, rfl, hlo, hover⟩
    exact ⟨by omega, before, x, after, rfl, by omega, hsub _ ▸ hover⟩
  · rintro ⟨hn, before, x, after, rfl, hlo, hover⟩
    exact ⟨before, x, after, rfl, by omega, (hsub _).symm ▸ hover⟩

theorem panicsAt_cons :
    PanicsAt (r :: rows) n ↔
      (6 ≤ n ∧ n < 12) ∨ (12 ≤ n ∧ OverflowIn r.datums (n - 12)) ∨
        (r.bytes.length ≤ n ∧ PanicsAt rows (n - r.bytes.length)) := by
  rw [PanicsAt, addressCut_cons, overflowBefore_cons, PanicsAt]
  tauto

theorem PanicsAt.le (h : PanicsAt rows n) : 6 ≤ n := by
  rcases h with ⟨before, r, after, -, hlo, -⟩ | ⟨before, r, after, -, hlo, -⟩
  all_goals omega

theorem not_panicsAt_nil : ¬ PanicsAt [] n := by
  rintro (⟨before, r, after, heq, -⟩ | ⟨before, r, after, heq, -⟩)
  all_goals simp at heq

end Rows

section Cut

variable {desc : TableDesc} {r : CopyRow} {m : Nat}

/-- A cut that does not leave the address whole. -/
theorem copyTuple_head (r : CopyRow) (rest : Bytes) (hm : m < 10) :
    Fails (copyTuple desc ((toBe 4 6 ++ (toBe 4 r.ctid.1 ++ (toBe 2 r.ctid.2 ++ rest))).take m)) (4 ≤ m) := by
  by_cases hshort : m < 4
  · have hlen : ((toBe 4 6 ++ (toBe 4 r.ctid.1 ++ (toBe 2 r.ctid.2 ++ rest))).take m).length < 4 := by
      rw [List.length_take]
      omega
    rw [copyTuple, if_pos hlen]
    exact .of_bail (by omega)
  · have hfour : (toBe 4 6).length = 4 := toBe_length 4 6
    have hsix : fromTwos 32 (fromBe (toBe 4 6)) = 6 := by decide
    have hlen : ((toBe 4 r.ctid.1 ++ (toBe 2 r.ctid.2 ++ rest)).take (m - 4)).length < 6 := by
      rw [List.length_take]
      omega
    rw [take_append_of_le (by omega), hfour, copyTuple, if_neg (not_toBe_lt 4 _ _), toBe_take, toBe_drop, hsix]
    simp only [ne_eq, not_true_eq_false, if_false, if_pos hlen]
    exact .inl ⟨rfl, by omega⟩

/-- A cut behind the address. -/
theorem copyTuple_take (hr : r.Of desc) (rest : Bytes) (hm : 10 ≤ m) :
    copyTuple desc ((toBe 4 6 ++ (toBe 4 r.ctid.1 ++ (toBe 2 r.ctid.2 ++ rest))).take m) =
      (copyFields desc.cols (rest.take (m - 10))).map fun f => ((r.ctid, f.1), f.2) := by
  have hfour : ∀ v, (toBe 4 v).length = 4 := toBe_length 4
  have htwo : (toBe 2 r.ctid.2).length = 2 := toBe_length 2 _
  rw [take_append_of_le (by rw [hfour]; omega), take_append_of_le (by rw [hfour, hfour]; omega),
    take_append_of_le (by rw [hfour, hfour, htwo]; omega), hfour, hfour, htwo,
    show m - 4 - 4 - 2 = m - 10 by omega]
  exact copyTuple_fields hr _

/-- A row that is cut behind its column count. -/
theorem copyTuple_cut (hr : r.Of desc) (rest : Bytes) (hm : m < 10 + (r.datums.flatMap fieldBytes).length) :
    Fails (copyTuple desc ((toBe 4 6 ++ (toBe 4 r.ctid.1 ++ (toBe 2 r.ctid.2 ++
      (r.datums.flatMap fieldBytes ++ rest)))).take m)) ((4 ≤ m ∧ m < 10) ∨ (10 ≤ m ∧ OverflowIn r.datums (m - 10))) := by
  by_cases haddress : m < 10
  · exact (copyTuple_head r _ haddress).congr (by omega)
  · rw [copyTuple_take hr _ (by omega), List.take_append_of_le_length (by omega)]
    refine ((copyFields_cut hr.typed hr.send_lt (by omega)).map _).congr ?_
    constructor
    · exact fun h => .inr ⟨by omega, h⟩
    · rintro (h | ⟨-, h⟩)
      · omega
      · exact h

/-- A row that ends before the cut. -/
theorem copyTuple_whole (hr : r.Of desc) (rest : Bytes) (hm : 10 + (r.datums.flatMap fieldBytes).length ≤ m) :
    copyTuple desc ((toBe 4 6 ++ (toBe 4 r.ctid.1 ++ (toBe 2 r.ctid.2 ++
      (r.datums.flatMap fieldBytes ++ rest)))).take m) =
      r.row.map fun row => ((r.ctid, row), rest.take (m - (10 + (r.datums.flatMap fieldBytes).length))) := by
  rw [copyTuple_take hr _ (by omega), take_append_of_le (by omega), ← copyTuple_fields hr, copyTuple_row hr,
    Nat.sub_sub]

/-- Fewer bytes than a column count, the end of the fuel among them. -/
theorem copyTuples_short {p : Prop} {data : Bytes} (hlen : data.length < 2) (fuel : Nat) (hp : ¬ p) :
    Fails (copyTuples desc fuel data) p := by
  cases fuel with
  | zero => exact .of_bail hp
  | succ fuel =>
    rw [copyTuples, if_pos hlen]
    exact .of_bail hp

/-- Rows that are cut before the end of the trailer. -/
theorem copyTuples_cut (hcols : desc.cols.length + 1 < 2 ^ 15) {rows : List CopyRow}
    (hrows : ∀ r ∈ rows, r.Of desc) {n : Nat}
    (hn : n < (rows.flatMap (·.bytes) ++ CopyStream.trailer).length) {fuel : Nat} (hfuel : n ≤ fuel) :
    Fails (copyTuples desc fuel ((rows.flatMap (·.bytes) ++ CopyStream.trailer).take n)) (PanicsAt rows n) := by
  induction rows generalizing n fuel with
  | nil =>
    refine copyTuples_short ?_ fuel not_panicsAt_nil
    rw [List.length_take]
    exact lt_of_le_of_lt (Nat.min_le_left _ _) hn
  | cons r rows ih =>
    have hr := hrows r List.mem_cons_self
    by_cases hshort : n < 2
    · refine copyTuples_short ?_ fuel fun h => absurd h.le (by omega)
      rw [List.length_take]
      omega
    obtain ⟨fuel, rfl⟩ : ∃ k, fuel = k + 1 := ⟨fuel - 1, by omega⟩
    have hsplit : (r :: rows).flatMap (·.bytes) ++ CopyStream.trailer =
        toBe 2 (r.datums.length + 1) ++ (toBe 4 6 ++ (toBe 4 r.ctid.1 ++ (toBe 2 r.ctid.2 ++
          (r.datums.flatMap fieldBytes ++ (rows.flatMap (·.bytes) ++ CopyStream.trailer))))) := by
      simp only [List.flatMap_cons, CopyRow.bytes, List.append_assoc]
    have htwo : (toBe 2 (r.datums.length + 1)).length = 2 := toBe_length 2 _
    have hlength := r.bytes_length
    rw [hsplit] at hn ⊢
    rw [take_append_of_le (by omega), htwo, copyTuples_counted hcols hr]
    by_cases hcut : n - 2 < 10 + (r.datums.flatMap fieldBytes).length
    · refine ((copyTuple_cut hr _ hcut).congr ?_).bind _
      rw [panicsAt_cons, show n - 2 - 10 = n - 12 by omega]
      constructor
      · rintro (h | ⟨hbehind, h⟩)
        · exact .inl (by omega)
        · exact .inr (.inl ⟨by omega, h⟩)
      · rintro (h | ⟨hbehind, h⟩ | ⟨h, -⟩)
        · exact .inl (by omega)
        · exact .inr ⟨by omega, h⟩
        · omega
    · rw [copyTuple_whole hr _ (by omega), row]
      rcases mapM_cell_cases r.datums (m := n - 12) (by omega) with ⟨⟨row, hrow⟩, hnot⟩ | ⟨hpanic, hover⟩
      · have hless : n - r.bytes.length < (rows.flatMap (·.bytes) ++ CopyStream.trailer).length := by
          simp only [List.length_append, toBe_length] at hn ⊢
          omega
        have hfits : n - r.bytes.length ≤ fuel := by omega
        have hrest := ih (fun x hx => hrows x (List.mem_cons_of_mem r hx)) hless hfits
        rw [hrow, show n - 2 - (10 + (r.datums.flatMap fieldBytes).length) = n - r.bytes.length by omega]
        refine (hrest.congr ?_).bind _
        rw [panicsAt_cons]
        constructor
        · exact fun h => .inr (.inr ⟨by omega, h⟩)
        · rintro (h | ⟨-, h⟩ | ⟨-, h⟩)
          · omega
          · exact absurd h hnot
          · exact h
      · rw [hpanic]
        exact .inl ⟨rfl, panicsAt_cons.mpr (.inr (.inl ⟨by omega, hover⟩))⟩

end Cut

/-! ## Streams -/

namespace CopyStream

variable {desc : TableDesc} (c : CopyStream desc)

/-- Where the rows begin. -/
def headerLength : Nat := 19 + c.extension.length

/-- The first `n` bytes end within the six bytes of an address. -/
def CutInAddress (n : Nat) : Prop := AddressCut c.rows (n - c.headerLength)

/-- Among the first `n` bytes is a whole date or timestamp that overflows. -/
def OverflowsBefore (n : Nat) : Prop := OverflowBefore c.rows (n - c.headerLength)

variable {c}

theorem parse_take {n : Nat} (hend : c.behind = []) (hn : n < c.bytes.length) :
    Fails (parseCopyBinary (c.bytes.take n) desc) (c.CutInAddress n ∨ c.OverflowsBefore n) := by
  have hnot : n < c.headerLength → ¬ (c.CutInAddress n ∨ c.OverflowsBefore n) := by
    intro hlt h
    have := PanicsAt.le h
    omega
  by_cases hshort : n < 19
  · have hlen : (c.bytes.take n).length < 19 := by
      rw [List.length_take]
      omega
    rw [parseCopyBinary, if_pos (.inl hlen)]
    exact .of_bail (hnot (by unfold headerLength; omega))
  -- The header is whole, so the parser comes to the rows as far as they are there.
  have hlen : (c.bytes.take n).length = n := List.length_take_of_le hn.le
  have hsig : (c.bytes.take n).take 11 = copySignature := by
    rw [List.take_take, Nat.min_eq_left (by omega), c.bytes_header.2]
  have hext : fromBe (((c.bytes.take n).drop 15).take 4) = c.extension.length := by
    rw [List.drop_take, List.take_take, Nat.min_eq_left (by omega), c.bytes_extLen]
  have hrest : (c.bytes.take n).drop (19 + c.extension.length) =
      (c.rows.flatMap (·.bytes) ++ trailer).take (n - c.headerLength) := by
    rw [List.drop_take, c.bytes_rows, hend, List.append_nil, headerLength]
  have htotal : c.bytes.length - c.headerLength = (c.rows.flatMap (·.bytes) ++ trailer).length := by
    have := congrArg List.length c.bytes_rows
    rwa [List.length_drop, hend, List.append_nil] at this
  have hpos : 0 < (c.rows.flatMap (·.bytes) ++ trailer).length := by
    rw [List.length_append, trailer, toBe_length]
    omega
  rw [parseCopyBinary, if_neg (not_or.mpr ⟨by omega, not_not.mpr hsig⟩), hext]
  dsimp only
  rw [hrest]
  refine copyTuples_cut c.cols_lt c.rows_ok (by omega) ?_
  rw [List.length_take_of_le (by omega)]

/-- A stream that ends too early is refused by an error, exactly if it does not end within the
address of a row and no value before its end overflows. -/
theorem truncated_rejected_iff {desc : TableDesc} (c : CopyStream desc) (n : Nat) (hend : c.behind = [])
    (hn : n < c.bytes.length) :
    (∃ e, parseCopyBinary (c.bytes.take n) desc = .error (.error e)) ↔
      ¬ c.CutInAddress n ∧ ¬ c.OverflowsBefore n := by
  rw [(parse_take hend hn).rejects_iff, not_or]

/-- The stream ends within the trailer. -/
theorem truncated_rejected_trailer :
    ∃ e, parseCopyBinary (Sample.copyStream.bytes.take 41) .oneInt = .error (.error e) := by
  refine (truncated_rejected_iff Sample.copyStream 41 rfl (by decide)).mpr (not_or.mp ?_)
  show ¬ PanicsAt [Sample.copyRow] 21
  rw [panicsAt_cons]
  rintro (h | ⟨-, h⟩ | ⟨-, h⟩)
  · omega
  · rcases (overflowIn_cons.mp h).2 with ⟨x, ⟨⟩, hx⟩ | hx
    · exact hx
    · exact not_overflowIn_nil _ hx
  · exact not_panicsAt_nil h

/-- The stream ends within the address of its row. -/
theorem truncated_panics :
    Sample.copyStream.behind = [] ∧ 28 < Sample.copyStream.bytes.length ∧
      parseCopyBinary (Sample.copyStream.bytes.take 28) .oneInt = .error .panic := by
  decide

end CopyStream

end Ltap
