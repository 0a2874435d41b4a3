-- SUMMARY: WAL positions as text, and numbers read from text (`pgwire.rs`).
import OpenLtap.Wal.Pglz

/-!
# Positions as text

A position is printed as its two halves in upper-case hex. Numbers are read as the standard
library reads them: with an optional plus sign, in either case, and refused when they do not
fit.
-/

namespace Ltap

/-! ## Numbers -/

/-- `char::to_digit`. -/
def toDigit (radix : Nat) (c : Char) : Option Nat :=
  let d :=
    if '0' ≤ c ∧ c ≤ '9' then c.toNat - 48
    else if 'a' ≤ c ∧ c ≤ 'z' then c.toNat - 97 + 10
    else if 'A' ≤ c ∧ c ≤ 'Z' then c.toNat - 65 + 10
    else radix
  if d < radix then some d else none

def radixDigits (radix bits : Nat) : Nat → List Char → Except Fault Nat
  | acc, [] => .ok acc
  | acc, c :: cs =>
    match toDigit radix c with
    | none => bail "invalid digit found in string"
    | some d =>
      if 2 ^ bits ≤ acc * radix + d then bail "number too large to fit in target type"
      else radixDigits radix bits (acc * radix + d) cs

/-- `from_str_radix` of an unsigned type. -/
def fromStrRadix (radix bits : Nat) (s : String) : Except Fault Nat :=
  match s.toList with
  | [] => bail "cannot parse integer from empty string"
  | ['+'] => bail "invalid digit found in string"
  | '+' :: cs => radixDigits radix bits 0 cs
  | cs => radixDigits radix bits 0 cs

/-! ## Positions -/

/-- `{:X}`. -/
def upperHex (n : Nat) : String := String.ofList ((Nat.toDigits 16 n).map Char.toUpper)

def fmtLsn (lsn : Lsn) : String := upperHex (lsn >>> 32) ++ "/" ++ upperHex (lsn &&& 0xFFFFFFFF)

/-- A high half of more than 32 bits is cut off silently. -/
def parseLsn (s : String) : Except Fault Lsn :=
  match s.toList.span (· ≠ '/') with
  | (_, []) => bail "bad LSN format"
  | (hi, _ :: lo) => do
    let hi ← fromStrRadix 16 64 (String.ofList hi)
    let lo ← fromStrRadix 16 64 (String.ofList lo)
    return ((hi <<< 32) % 2 ^ 64) ||| lo

/-! ## Reading back -/

section ReadBack

variable {radix bits : Nat}

theorem radixDigits_append {acc m : Nat} {xs : List Char} (h : radixDigits radix bits acc xs = .ok m) (ys : List Char) :
    radixDigits radix bits acc (xs ++ ys) = radixDigits radix bits m ys := by
  induction xs generalizing acc with
  | nil =>
    cases h
    rfl
  | cons x xs ih =>
    simp only [radixDigits, List.cons_append] at h ⊢
    split at h
    · cases h
    · split at h
      · cases h
      · rename_i hfits
        rw [if_neg hfits]
        exact ih h

/-- Digits in any writing that `to_digit` reads are read back, if the number fits. -/
theorem radixDigits_toDigits {write : Char → Char} (hradix : 1 < radix)
    (hwrite : ∀ d < radix, toDigit radix (write d.digitChar) = some d) {n : Nat} (h : n < 2 ^ bits) :
    radixDigits radix bits 0 ((Nat.toDigits radix n).map write) = .ok n := by
  induction n using Nat.strong_induction_on with
  | _ n ih =>
    by_cases hsmall : n < radix
    · rw [Nat.toDigits_of_lt_base hsmall]
      simp only [List.map_cons, List.map_nil, radixDigits, hwrite n hsmall, Nat.zero_mul, Nat.zero_add]
      rw [if_neg (by omega)]
    · have hlt : n / radix < n := Nat.div_lt_self (by omega) hradix
      have hhigh := ih (n / radix) hlt (lt_trans hlt h)
      rw [Nat.toDigits_of_base_le hradix (by omega), List.map_append, radixDigits_append hhigh]
      have hsplit : n / radix * radix + n % radix = n := Nat.div_add_mod' n radix
      simp only [List.map_cons, List.map_nil, radixDigits, hwrite _ (Nat.mod_lt n (by omega)), hsplit]
      rw [if_neg (by omega)]

theorem toDigit_upper {d : Nat} (h : d < 16) : toDigit 16 d.digitChar.toUpper = some d := by
  revert d
  decide

theorem toDigit_decimal {d : Nat} (h : d < 10) : toDigit 10 d.digitChar = some d := by
  revert d
  decide

/-- A text that begins with a digit has no sign to read. -/
theorem fromStrRadix_ofList {cs : List Char} {n : Nat} (hne : cs ≠ [])
    (h : radixDigits radix bits 0 cs = .ok n) (hplus : toDigit radix '+' = none) :
    fromStrRadix radix bits (String.ofList cs) = .ok n := by
  obtain ⟨c, cs, rfl⟩ := List.exists_cons_of_ne_nil hne
  have hc : c ≠ '+' := by
    rintro rfl
    simp only [radixDigits, hplus] at h
    cases h
  unfold fromStrRadix
  rw [String.toList_ofList]
  split
  · rename_i heq; cases heq
  · rename_i heq; cases heq; exact absurd rfl hc
  · rename_i heq; cases heq; exact absurd rfl hc
  · exact h

theorem fromStrRadix_upperHex {n : Nat} (h : n < 2 ^ bits) : fromStrRadix 16 bits (upperHex n) = .ok n := by
  refine fromStrRadix_ofList ?_ (radixDigits_toDigits (by decide) (fun _ => toDigit_upper) h) (by decide)
  simp [Nat.toDigits_ne_nil]

theorem fromStrRadix_repr {n : Nat} (h : n < 2 ^ bits) : fromStrRadix 10 bits n.repr = .ok n := by
  have hdigits : radixDigits 10 bits 0 ((Nat.toDigits 10 n).map id) = .ok n :=
    radixDigits_toDigits (by decide) (fun _ => toDigit_decimal) h
  rw [List.map_id] at hdigits
  rw [Nat.repr_eq_ofList_toDigits]
  exact fromStrRadix_ofList Nat.toDigits_ne_nil hdigits (by decide)

theorem not_mem_upperHex {c : Char} (hdigit : ∀ d < 16, c ∉ [d.digitChar].map Char.toUpper) (n : Nat) :
    c ∉ (upperHex n).toList := by
  rw [upperHex, String.toList_ofList]
  induction n using Nat.strong_induction_on with
  | _ n ih =>
    by_cases hsmall : n < 16
    · rw [Nat.toDigits_of_lt_base hsmall]
      exact hdigit n hsmall
    · rw [Nat.toDigits_of_base_le (by decide) (by omega), List.map_append, List.mem_append]
      exact not_or.mpr ⟨ih _ (Nat.div_lt_self (by omega) (by decide)), hdigit _ (Nat.mod_lt n (by decide))⟩

theorem slash_not_mem_upperHex (n : Nat) : '/' ∉ (upperHex n).toList := not_mem_upperHex (by decide) n

theorem span_append {cs rest : List Char} (h : '/' ∉ cs) :
    (cs ++ '/' :: rest).span (· ≠ '/') = (cs, '/' :: rest) := by
  have hall : ∀ c ∈ cs, decide (c ≠ '/') = true := fun c hc => decide_eq_true fun heq => h (heq ▸ hc)
  rw [List.span_eq_takeWhile_dropWhile, List.takeWhile_append_of_pos hall, List.dropWhile_append_of_pos hall]
  simp

/-- Every position survives its text. -/
theorem parseLsn_fmtLsn {lsn : Nat} (h : lsn < 2 ^ 64) : parseLsn (fmtLsn lsn) = .ok lsn := by
  have hhi : lsn >>> 32 < 2 ^ 32 := by
    rw [Nat.shiftRight_eq_div_pow]
    omega
  have hlo : lsn &&& 0xFFFFFFFF < 2 ^ 32 := Nat.and_lt_two_pow _ (by decide)
  have hsplit : ((lsn >>> 32) <<< 32) % 2 ^ 64 ||| (lsn &&& 0xFFFFFFFF) = lsn := by
    rw [show (0xFFFFFFFF : Nat) = 2 ^ 32 - 1 by decide, Nat.and_two_pow_sub_one_eq_mod,
      Nat.mod_eq_of_lt (by rw [Nat.shiftLeft_eq]; omega), Nat.shiftLeft_eq, Nat.mul_comm,
      ← Nat.two_pow_add_eq_or_of_lt (Nat.mod_lt _ (by decide)), Nat.shiftRight_eq_div_pow, Nat.div_add_mod]
  have htext : (fmtLsn lsn).toList =
      (upperHex (lsn >>> 32)).toList ++ '/' :: (upperHex (lsn &&& 0xFFFFFFFF)).toList := by
    simp [fmtLsn]
  simp only [parseLsn, htext, span_append (slash_not_mem_upperHex _), String.ofList_toList,
    fromStrRadix_upperHex (lt_trans hhi (by decide : 2 ^ 32 < 2 ^ 64)),
    fromStrRadix_upperHex (lt_trans hlo (by decide : 2 ^ 32 < 2 ^ 64)), bind, Except.bind, pure, Except.pure, hsplit]

end ReadBack

end Ltap
