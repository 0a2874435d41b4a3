-- SUMMARY: Rows and errors as a server sends them, and that the client reads them back.
import OpenLtap.Wire.Messages

/-!
# Rows and errors

A row is a number of fields with their lengths in front; a length of -1 is a null. An error is
a list of typed fields, each ended by a zero, and a zero behind the last.
-/

namespace Ltap

open Incremental

/-! ## Rows -/

def rowField : Option String → Bytes
  | none => toBe 4 (2 ^ 32 - 1)
  | some s => toBe 4 (Utf8.encode s).length ++ Utf8.encode s

def dataRow (fields : List (Option String)) : Bytes := toBe 2 fields.length ++ fields.flatMap rowField

theorem dataRowFields_flatMap {fields : List (Option String)}
    (hshort : ∀ s, some s ∈ fields → (Utf8.encode s).length < 2 ^ 31) (rest : Bytes) :
    dataRowFields fields.length (fields.flatMap rowField ++ rest) = .ok fields := by
  induction fields with
  | nil => rfl
  | cons f fields ih =>
    have hrest := ih fun s hs => hshort s (List.mem_cons_of_mem f hs)
    rw [List.flatMap_cons, List.append_assoc, List.length_cons, dataRowFields]
    cases f with
    | none =>
      rw [rowField, getUint_append (by decide)]
      simp only [bind, Except.bind, hrest]
      rfl
    | some s =>
      have hlt := hshort s List.mem_cons_self
      have hpositive : ¬ fromTwos 32 (Utf8.encode s).length < 0 := by
        rw [fromTwos, if_pos hlt]
        omega
      have hsplit : splitTo (Utf8.encode s).length (Utf8.encode s ++ (fields.flatMap rowField ++ rest)) =
          .ok (Utf8.encode s, fields.flatMap rowField ++ rest) := by
        rw [splitTo, if_neg (by rw [List.length_append]; omega), List.take_left, List.drop_left]
      rw [rowField, List.append_assoc, getUint_append (lt_trans hlt (by decide))]
      simp only [bind, Except.bind, if_neg hpositive, hsplit, hrest, Utf8.lossy_encode]
      rfl

theorem parseDataRow_dataRow {fields : List (Option String)} (hcount : fields.length < 2 ^ 16)
    (hshort : ∀ s, some s ∈ fields → (Utf8.encode s).length < 2 ^ 31) : parseDataRow (dataRow fields) = .ok fields := by
  have hfields := dataRowFields_flatMap hshort []
  rw [List.append_nil] at hfields
  rw [parseDataRow, dataRow, getUint_append hcount]
  exact hfields

theorem encode_length_le (s : String) : (Utf8.encode s).length ≤ 4 * s.length := by
  rw [Utf8.encode, List.length_flatMap, ← String.length_toList]
  have hsum : ∀ cs : List Char, (cs.map fun c => (String.utf8EncodeChar c).length).sum ≤ 4 * cs.length := by
    intro cs
    induction cs with
    | nil => exact le_rfl
    | cons c cs ih =>
      have hc := c.utf8Size_le_four
      rw [← String.length_utf8EncodeChar] at hc
      rw [List.map_cons, List.sum_cons, List.length_cons]
      omega
  exact hsum _

/-- Short fields make a row that fits a message. -/
theorem dataRow_fits {fields : List (Option String)} (hcount : fields.length ≤ 8)
    (hshort : ∀ s, some s ∈ fields → s.length ≤ 1000) : (dataRow fields).length + 4 < 2 ^ 32 := by
  have hsum : ∀ fs : List (Option String), (∀ s, some s ∈ fs → s.length ≤ 1000) →
      (fs.flatMap rowField).length ≤ 4004 * fs.length := by
    intro fs hfs
    induction fs with
    | nil => exact le_rfl
    | cons f fs ih =>
      have hrest := ih fun s hs => hfs s (List.mem_cons_of_mem f hs)
      have hf : (rowField f).length ≤ 4004 := by
        cases f with
        | none => rw [rowField, toBe_length]; omega
        | some s =>
          have hlen := encode_length_le s
          have hs := hfs s List.mem_cons_self
          rw [rowField, List.length_append, toBe_length]
          omega
      rw [List.flatMap_cons, List.length_append, List.length_cons]
      omega
  have hall := hsum fields hshort
  rw [dataRow, List.length_append, toBe_length]
  omega

/-! ## Errors -/

def errorResponse (fields : List (UInt8 × String)) : Bytes :=
  (fields.flatMap fun f => f.1 :: (Utf8.encode f.2 ++ [0])) ++ [0]

theorem all_nonzero {s : Bytes} (h : 0 ∉ s) : ∀ b ∈ s, decide (b ≠ 0) = true := by
  intro b hb
  exact decide_eq_true fun heq => h (heq ▸ hb)

theorem takeWhile_cstring {s rest : Bytes} (h : 0 ∉ s) : (s ++ 0 :: rest).takeWhile (· ≠ 0) = s := by
  rw [List.takeWhile_append_of_pos (all_nonzero h)]
  simp

theorem dropWhile_cstring {s rest : Bytes} (h : 0 ∉ s) : (s ++ 0 :: rest).dropWhile (· ≠ 0) = 0 :: rest := by
  rw [List.dropWhile_append_of_pos (all_nonzero h)]
  simp

theorem errorFields_flatMap {fields : List (UInt8 × String)}
    (hfields : ∀ f ∈ fields, f.1 ≠ 0 ∧ 0 ∉ Utf8.encode f.2) {fuel : Nat} (hfuel : fields.length < fuel)
    (acc : Option String × String) :
    errorFields fuel (errorResponse fields) acc = fields.foldl (fun acc f => errorField acc f.1 f.2) acc := by
  induction fields generalizing fuel acc with
  | nil =>
    obtain ⟨fuel, rfl⟩ : ∃ k, fuel = k + 1 := ⟨fuel - 1, by simp at hfuel; omega⟩
    simp [errorFields, errorResponse]
  | cons f fields ih =>
    obtain ⟨fuel, rfl⟩ : ∃ k, fuel = k + 1 := ⟨fuel - 1, by simp at hfuel; omega⟩
    obtain ⟨htype, hnul⟩ := hfields f List.mem_cons_self
    have hsplit : errorResponse (f :: fields) = f.1 :: (Utf8.encode f.2 ++ 0 :: errorResponse fields) := by
      simp [errorResponse]
    rw [hsplit, errorFields, if_neg htype, takeWhile_cstring hnul, dropWhile_cstring hnul, Utf8.lossy_encode,
      List.drop_succ_cons, List.drop_zero]
    exact ih (fun g hg => hfields g (List.mem_cons_of_mem f hg)) (by simp at hfuel; omega) _

/-- The code and the message are made of the fields in order, whatever other fields there are. -/
theorem parseErrorFields_errorResponse {fields : List (UInt8 × String)}
    (hfields : ∀ f ∈ fields, f.1 ≠ 0 ∧ 0 ∉ Utf8.encode f.2) :
    parseErrorFields (errorResponse fields) =
      let acc := fields.foldl (fun acc f => errorField acc f.1 f.2) (none, "")
      (acc.1, if acc.2 = "" then "unknown error" else acc.2) := by
  have hlen : fields.length < (errorResponse fields).length := by
    have hsum : ∀ fs : List (UInt8 × String),
        fs.length ≤ (fs.flatMap fun f => f.1 :: (Utf8.encode f.2 ++ [0])).length := by
      intro fs
      induction fs with
      | nil => exact le_rfl
      | cons f fs ih =>
        simp only [List.flatMap_cons, List.length_append, List.length_cons]
        omega
    have hall := hsum fields
    rw [errorResponse, List.length_append, List.length_singleton]
    omega
  rw [parseErrorFields, errorFields_flatMap hfields hlen]

end Ltap
