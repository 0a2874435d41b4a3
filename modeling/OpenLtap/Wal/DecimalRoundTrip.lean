-- SUMMARY: Decimal literals survive the stored form of a numeric.
import OpenLtap.Wal.NumericText

/-!
# Decimal literals in the stored form

A literal of up to 131072 digits in front of the point and 16383 behind it fits the 16-bit
weight and the 14-bit scale of the long form. Its text is a decimal text, so what is
written is read back; only a zero loses its sign.
-/

namespace Ltap

open Decimal

/-- A sign, digits without superfluous leading zeros, and digits behind a point if there are any. -/
structure DecimalLiteral where
  neg : Bool
  int : List Char
  frac : List Char
  int_digits : ∀ c ∈ int, c.isDigit
  int_ne_nil : int ≠ []
  int_leading : int.head? = some '0' → int = ['0']
  int_length : int.length ≤ 131072
  frac_digits : ∀ c ∈ frac, c.isDigit
  frac_length : frac.length ≤ 16383

namespace DecimalLiteral

variable (l : DecimalLiteral)

def text : String := String.ofList (signed l.neg (l.int ++ fraction l.frac))

/-- All digits are zero. -/
def IsZero : Prop := ∀ c ∈ l.int ++ l.frac, c = '0'

instance : Decidable l.IsZero := inferInstanceAs (Decidable (∀ c ∈ l.int ++ l.frac, c = '0'))

def unsigned : DecimalLiteral := { l with neg := false }

/-- The number that the digits make without the point. -/
def scaled : Nat := Nat.ofDigitChars 10 (l.int ++ l.frac) 0

theorem scaled_eq : l.scaled = 10 ^ l.frac.length * Nat.ofDigitChars 10 l.int 0 + Nat.ofDigitChars 10 l.frac 0 := by
  rw [scaled, Nat.ofDigitChars_append, Nat.ofDigitChars_eq_ofDigitChars_zero]

theorem toDigits_scaled : Nat.toDigits 10 (l.scaled / 10 ^ l.frac.length) = l.int := by
  have hfrac : Nat.ofDigitChars 10 l.frac 0 / 10 ^ l.frac.length = 0 := Nat.div_eq_of_lt (ofDigitChars_lt l.frac_digits)
  rw [scaled_eq, Nat.mul_add_div (by positivity), hfrac, Nat.add_zero]
  exact toDigits_ofDigitChars l.int_digits l.int_ne_nil l.int_leading

theorem fixedDigits_scaled : fixedDigits l.frac.length l.scaled = l.frac := by
  rw [scaled, Nat.ofDigitChars_append]
  exact fixedDigits_ofDigitChars l.frac_digits _

theorem text_eq : l.text = decimalText l.neg l.scaled l.frac.length := by
  rw [← String.toList_inj, decimalText_toList, text, String.toList_ofList, l.toDigits_scaled, l.fixedDigits_scaled,
    signed, fraction, List.append_assoc]
  simp only [List.length_eq_zero_iff]

theorem isZero_iff : l.IsZero ↔ l.scaled = 0 := by
  constructor
  · intro h
    rw [scaled, List.eq_replicate_iff.mpr ⟨rfl, h⟩, Nat.ofDigitChars_replicate_zero, Nat.mul_zero]
  · intro h c hc
    rcases List.mem_append.mp hc with hc | hc
    · rw [← l.toDigits_scaled, h, Nat.zero_div] at hc
      exact List.mem_singleton.mp hc
    · rw [← l.fixedDigits_scaled, h, fixedDigits_eq_map] at hc
      obtain ⟨i, -, rfl⟩ := List.mem_map.mp hc
      rw [Nat.zero_div]
      rfl

end DecimalLiteral

/-- What is written for a decimal text is read back, a zero without its sign. -/
theorem numericToString_numericBytes (neg : Bool) {x scale : Nat} (hscale : scale ≤ 16383)
    (hint : (Nat.toDigits 10 (x / 10 ^ scale)).length ≤ 131072) :
    numericToString (numericBytes neg (Nat.toDigits 10 (x / 10 ^ scale)) (fixedDigits scale x)) =
      .ok (decimalText (neg && decide (x ≠ 0)) x scale) := by
  obtain ⟨digits, weight, hbytes, hred, hdigits, hlo, hhi, hvalue⟩ := exists_decimal_groups x hscale
  have hword : ∀ d ∈ digits, d < 256 ^ 2 := fun d hd => (hdigits d hd).trans (by decide)
  rw [hbytes]
  -- All groups are zero exactly for the number zero, and then the sign is not written.
  by_cases hall : digits.all (· = 0) = true
  · have hx : x = 0 := by
      rw [positional_all_zero hall, zero_mul] at hvalue
      exact_mod_cast hvalue.symm
    have hlong := @numericToString_long false 0 scale [] (by decide) (by decide) hscale (by simp)
    have hprinted := @numericDigitsToString_eq 0 [] (by simp) false scale
    rw [positional_nil, zero_mul, Nat.floor_zero] at hprinted
    simp only [Bool.toNat_false, Nat.mul_zero, Nat.zero_add, List.flatMap_nil, List.append_nil] at hlong
    rw [if_pos hall, hlong, hprinted, hx]
    simp
  · have hx : x ≠ 0 := by
      rintro rfl
      -- A reduced group list of value zero would be empty.
      have hends := (reduced_of_not_zero hred hall).1
      have hzero : positional 10000 weight digits = positional 10000 0 [] := by
        rw [positional_nil]
        exact (mul_eq_zero.mp (hvalue.trans Nat.cast_zero)).resolve_right (by positivity)
      obtain ⟨rfl, -⟩ := positional_unique (by decide) hdigits (by simp) hends ⟨by simp, by simp⟩ hzero
      exact hall rfl
    rw [if_neg hall, numericToString_long neg (by omega) (by omega) hscale hword, numericDigitsToString_eq hdigits,
      hvalue, Nat.floor_natCast, decide_eq_true hx, Bool.and_true]

/-- Writing a decimal literal and reading it back gives its text, of a zero without the sign. -/
theorem DecimalLiteral.roundTrip (l : DecimalLiteral) :
    ∃ bytes, numericFromString l.text = .ok bytes ∧
      numericToString bytes = .ok (if l.IsZero then l.unsigned else l).text := by
  have hint : (Nat.toDigits 10 (l.scaled / 10 ^ l.frac.length)).length ≤ 131072 := by
    rw [l.toDigits_scaled]
    exact l.int_length
  -- The text is that of the number without the point, so the digits come back with their scale.
  refine ⟨_, by rw [l.text_eq]; exact numericFromString_decimal .., ?_⟩
  rw [numericToString_numericBytes l.neg l.frac_length hint]
  by_cases hzero : l.IsZero
  · have hscaled := l.isZero_iff.mp hzero
    have hunsigned : l.unsigned.text = decimalText false l.scaled l.frac.length := l.unsigned.text_eq
    rw [if_pos hzero, hunsigned, hscaled]
    simp
  · have hscaled : l.scaled ≠ 0 := fun h => hzero (l.isZero_iff.mpr h)
    rw [if_neg hzero, l.text_eq, decide_eq_true hscaled, Bool.and_true]

/-- `-10.05`. -/
def Sample.literal : DecimalLiteral where
  neg := true
  int := ['1', '0']
  frac := ['0', '5']
  int_digits := by simp
  int_ne_nil := by simp
  int_leading := by simp
  int_length := by simp
  frac_digits := by simp
  frac_length := by simp

example : Sample.literal.text = "-10.05" := rfl

end Ltap
