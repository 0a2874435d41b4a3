-- SUMMARY: Positional values over the rationals, and decimal texts with a fixed number of fractional digits.
import Mathlib.Algebra.BigOperators.Fin
import Mathlib.Algebra.Order.Floor.Semifield
import Mathlib.Data.List.GetD
import Mathlib.Data.Rat.Floor
import Mathlib.Tactic.FieldSimp
import Mathlib.Tactic.IntervalCases
import Mathlib.Tactic.Linarith
import Mathlib.Tactic.Positivity
import Mathlib.Tactic.Ring

/-!
# Positional values and decimal texts

A list of digits in some base, with the exponent of the first, stands for a rational
number. The digit at an exponent is read off the floor of the number scaled by that
exponent. A decimal text is a natural number with a point in front of its last digits.
-/

open Finset

namespace Decimal

/-! ## Positional values -/

/-- The number with digits `ds` in base `b`, the first of them at exponent `w`. -/
def positional (b : ℕ) (w : ℤ) (ds : List ℕ) : ℚ :=
  ∑ k ∈ range ds.length, (ds.getD k 0 : ℚ) * (b : ℚ) ^ (w - k)

section Positional

variable {b : ℕ}

@[simp] theorem positional_nil (w : ℤ) : positional b w [] = 0 := rfl

theorem positional_cons (w : ℤ) (d : ℕ) (ds : List ℕ) :
    positional b w (d :: ds) = d * (b : ℚ) ^ w + positional b (w - 1) ds := by
  rw [positional, List.length_cons, sum_range_succ', add_comm]
  congr 1
  · simp
  · refine sum_congr rfl fun k _ => ?_
    rw [List.getD_cons_succ, Nat.cast_succ, show w - (k + 1 : ℤ) = w - 1 - k by ring]

/-- Zeros in front only move the exponent. -/
theorem positional_zeros_append (w : ℤ) (k : ℕ) (ds : List ℕ) :
    positional b w (List.replicate k 0 ++ ds) = positional b (w - k) ds := by
  induction k generalizing w with
  | zero => simp
  | succ k ih =>
    rw [List.replicate_succ, List.cons_append, positional_cons, ih, Nat.cast_zero, zero_mul, zero_add]
    congr 1
    push_cast
    ring

/-- Zeros behind do nothing. -/
theorem positional_append_zeros (w : ℤ) (ds : List ℕ) (k : ℕ) :
    positional b w (ds ++ List.replicate k 0) = positional b w ds := by
  induction ds generalizing w with
  | nil =>
    have h := positional_zeros_append (b := b) w k []
    rwa [List.append_nil] at h
  | cons d ds ih => rw [List.cons_append, positional_cons, positional_cons, ih]

theorem positional_nonneg (w : ℤ) (ds : List ℕ) : 0 ≤ positional b w ds :=
  sum_nonneg fun _ _ => mul_nonneg (Nat.cast_nonneg _) (zpow_nonneg (Nat.cast_nonneg _) _)

variable (hb : 1 < b)
include hb

theorem positional_lt {ds : List ℕ} (hds : ∀ d ∈ ds, d < b) :
    ∀ w : ℤ, positional b w ds < (b : ℚ) ^ (w + 1) := by
  have hpos : (0 : ℚ) < b := by exact_mod_cast Nat.zero_lt_of_lt hb
  induction ds with
  | nil => intro w; exact zpow_pos hpos _
  | cons d ds ih =>
    intro w
    have hd : (d : ℚ) + 1 ≤ b := by exact_mod_cast hds d List.mem_cons_self
    have hrest := ih (fun x hx => hds x (List.mem_cons_of_mem d hx)) (w - 1)
    rw [sub_add_cancel] at hrest
    have hw : (0 : ℚ) < (b : ℚ) ^ w := zpow_pos hpos _
    calc positional b w (d :: ds) = d * (b : ℚ) ^ w + positional b (w - 1) ds := positional_cons w d ds
      _ < d * (b : ℚ) ^ w + (b : ℚ) ^ w := by linarith
      _ = (d + 1) * (b : ℚ) ^ w := by ring
      _ ≤ b * (b : ℚ) ^ w := by gcongr
      _ = (b : ℚ) ^ (w + 1) := by rw [zpow_add_one₀ hpos.ne', mul_comm]

/-- Above the first digit there is nothing. -/
theorem floor_positional_of_lt {ds : List ℕ} (hds : ∀ d ∈ ds, d < b) {w q : ℤ} (h : w < q) :
    ⌊positional b w ds / (b : ℚ) ^ q⌋₊ = 0 := by
  have hpos : (0 : ℚ) < b := by exact_mod_cast Nat.zero_lt_of_lt hb
  have hq : (0 : ℚ) < (b : ℚ) ^ q := zpow_pos hpos _
  have hle : (b : ℚ) ^ (w + 1) ≤ (b : ℚ) ^ q :=
    zpow_le_zpow_right₀ (by exact_mod_cast hb.le) (by omega)
  rw [Nat.floor_eq_zero, div_lt_one hq]
  exact (positional_lt hb hds w).trans_le hle

/-- The digit at exponent `q`. -/
def digitOf (w : ℤ) (ds : List ℕ) (q : ℤ) : ℕ :=
  if w - q < 0 ∨ w - q ≥ ds.length then 0 else ds.getD (w - q).toNat 0

omit hb in
theorem digitOf_cons_of_lt {w q : ℤ} (d : ℕ) (ds : List ℕ) (h : q < w) :
    digitOf w (d :: ds) q = digitOf (w - 1) ds q := by
  obtain ⟨n, hn⟩ : ∃ n : ℕ, w - q = n + 1 := ⟨(w - q - 1).toNat, by omega⟩
  have hn' : w - 1 - q = n := by omega
  unfold digitOf
  rw [hn, hn']
  by_cases hlen : n < ds.length
  · rw [if_neg (by simp; omega), if_neg (by omega), Int.toNat_natCast]
    exact List.getD_cons_succ
  · rw [if_pos (by simp; omega), if_pos (by omega)]

theorem floor_positional_mod {ds : List ℕ} (hds : ∀ d ∈ ds, d < b) :
    ∀ w q : ℤ, ⌊positional b w ds / (b : ℚ) ^ q⌋₊ % b = digitOf w ds q := by
  have hpos : (0 : ℚ) < b := by exact_mod_cast Nat.zero_lt_of_lt hb
  induction ds with
  | nil =>
    intro w q
    simp [digitOf]
  | cons d ds ih =>
    intro w q
    have hds' : ∀ x ∈ ds, x < b := fun x hx => hds x (List.mem_cons_of_mem d hx)
    by_cases habove : w < q
    · rw [floor_positional_of_lt hb hds habove, digitOf, if_pos (by omega), Nat.zero_mod]
    obtain ⟨n, hn⟩ : ∃ n : ℕ, w - q = n := ⟨(w - q).toNat, by omega⟩
    -- The first digit contributes a natural number, and a multiple of the base unless it is
    -- the digit asked for.
    have hsplit : positional b w (d :: ds) / (b : ℚ) ^ q =
        positional b (w - 1) ds / (b : ℚ) ^ q + ((d * b ^ n : ℕ) : ℚ) := by
      have hzpow : (b : ℚ) ^ w = (b : ℚ) ^ n * (b : ℚ) ^ q := by
        rw [← zpow_natCast, ← zpow_add₀ hpos.ne', ← hn, sub_add_cancel]
      rw [positional_cons, hzpow, add_div, ← mul_assoc, mul_div_assoc, div_self (zpow_pos hpos q).ne',
        mul_one, add_comm, Nat.cast_mul, Nat.cast_pow]
    have hnonneg : 0 ≤ positional b (w - 1) ds / (b : ℚ) ^ q :=
      div_nonneg (positional_nonneg _ _) (zpow_pos hpos q).le
    rw [hsplit, Nat.floor_add_natCast hnonneg]
    cases n with
    | zero =>
      rw [floor_positional_of_lt hb hds' (by omega), Nat.zero_add, pow_zero, mul_one,
        Nat.mod_eq_of_lt (hds d List.mem_cons_self), digitOf, if_neg (by simp; omega), hn]
      rfl
    | succ n =>
      rw [pow_succ, ← mul_assoc, Nat.add_mul_mod_self_right, ih hds' (w - 1) q,
        digitOf_cons_of_lt d ds (by omega)]

omit hb in
/-- No zeros that could go: neither the first digit nor the last one is zero. -/
def Reduced (ds : List ℕ) : Prop := ds.head? ≠ some 0 ∧ ds.getLast? ≠ some 0

omit hb in
theorem digitOf_eq_getD {w q : ℤ} {ds : List ℕ} {k : ℕ} (h : w - q = k) : digitOf w ds q = ds.getD k 0 := by
  rw [digitOf, h, Int.toNat_natCast]
  by_cases hk : k < ds.length
  · rw [if_neg (by omega)]
  · rw [if_pos (by omega), List.getD_eq_default _ _ (by omega)]

omit hb in
theorem digitOf_ne_zero {w q : ℤ} {ds : List ℕ} (h : digitOf w ds q ≠ 0) : 0 ≤ w - q ∧ w - q < ds.length := by
  unfold digitOf at h
  split at h
  · exact absurd rfl h
  · omega

omit hb in
theorem Reduced.ends {ds : List ℕ} (h : Reduced ds) (hne : ds ≠ []) (w : ℤ) :
    digitOf w ds w ≠ 0 ∧ digitOf w ds (w - (ds.length - 1 : ℕ)) ≠ 0 := by
  have hpos := List.length_pos_iff.mpr hne
  have hhead : ds.head? = ds[0]? := List.head?_eq_getElem?
  have hlast : ds.getLast? = ds[ds.length - 1]? := List.getLast?_eq_getElem?
  rw [digitOf_eq_getD (show w - w = (0 : ℕ) by simp), digitOf_eq_getD (show _ = ((ds.length - 1 : ℕ) : ℤ) by ring)]
  rw [Reduced, hhead, hlast, List.getElem?_eq_getElem hpos, List.getElem?_eq_getElem (by omega)] at h
  rw [List.getD_eq_getElem _ _ hpos, List.getD_eq_getElem _ _ (by omega)]
  exact ⟨fun hz => h.1 (congrArg some hz), fun hz => h.2 (congrArg some hz)⟩

/-- The reduced digits of a number are determined by it. -/
theorem positional_unique {w w' : ℤ} {ds ds' : List ℕ} (hds : ∀ d ∈ ds, d < b) (hds' : ∀ d ∈ ds', d < b)
    (hred : Reduced ds) (hred' : Reduced ds') (h : positional b w ds = positional b w' ds') :
    ds = ds' ∧ (ds ≠ [] → w = w') := by
  have hdigit : ∀ q, digitOf w ds q = digitOf w' ds' q := by
    intro q
    rw [← floor_positional_mod hb hds, ← floor_positional_mod hb hds', h]
  have hnil : ds = [] ↔ ds' = [] := by
    constructor
    · rintro rfl
      by_contra hne
      exact (hred'.ends hne w').1 (by rw [← hdigit]; simp [digitOf])
    · rintro rfl
      by_contra hne
      exact (hred.ends hne w).1 (by rw [hdigit]; simp [digitOf])
  by_cases hne : ds = []
  · exact ⟨hne.trans (hnil.mp hne).symm, fun hne' => absurd hne hne'⟩
  have hne' : ds' ≠ [] := fun h' => hne (hnil.mpr h')
  obtain ⟨hfirst, hlast⟩ := hred.ends hne w
  obtain ⟨hfirst', hlast'⟩ := hred'.ends hne' w'
  have hw : w = w' := by
    have h₁ := digitOf_ne_zero (hdigit w ▸ hfirst)
    have h₂ := digitOf_ne_zero ((hdigit w').symm ▸ hfirst')
    omega
  subst hw
  have hlen : ds.length = ds'.length := by
    have h₁ := digitOf_ne_zero (hdigit _ ▸ hlast)
    have h₂ := digitOf_ne_zero ((hdigit _).symm ▸ hlast')
    have := List.length_pos_iff.mpr hne
    have := List.length_pos_iff.mpr hne'
    omega
  refine ⟨List.ext_getElem hlen fun k hk hk' => ?_, fun _ => rfl⟩
  have hq := hdigit (w - k)
  rwa [digitOf_eq_getD (show w - (w - k) = k by ring), digitOf_eq_getD (show w - (w - k) = k by ring),
    List.getD_eq_getElem _ _ hk, List.getD_eq_getElem _ _ hk'] at hq

end Positional

/-- Scaling up and dropping the digits gained. -/
theorem floor_scaled_div (v : ℚ) (scale : ℕ) : ⌊v * (10 : ℚ) ^ scale⌋₊ / 10 ^ scale = ⌊v⌋₊ := by
  have hcast : (10 : ℚ) ^ scale = ((10 ^ scale : ℕ) : ℚ) := by push_cast; rfl
  rw [← Nat.floor_div_natCast, ← hcast, mul_div_assoc, div_self (by positivity), mul_one]

/-! ## Decimal texts -/

/-- The last `n` decimal digits of `x`, leading zeros included. -/
def fixedDigits : ℕ → ℕ → List Char
  | 0, _ => []
  | n + 1, x => (x / 10 ^ n % 10).digitChar :: fixedDigits n x

@[simp] theorem fixedDigits_length (n x : ℕ) : (fixedDigits n x).length = n := by
  induction n with
  | zero => rfl
  | succ n ih => rw [fixedDigits, List.length_cons, ih]

theorem fixedDigits_mod {n m : ℕ} (h : n ≤ m) (x : ℕ) : fixedDigits n (x % 10 ^ m) = fixedDigits n x := by
  induction n with
  | zero => rfl
  | succ n ih =>
    have hpow : 10 ^ m = 10 ^ n * 10 * 10 ^ (m - (n + 1)) := by
      rw [← pow_succ, ← pow_add]
      congr 1
      omega
    have hdigit : x % 10 ^ m / 10 ^ n % 10 = x / 10 ^ n % 10 := by
      rw [hpow, mul_assoc, Nat.mod_mul_right_div_self, Nat.mod_mul_right_mod]
    rw [fixedDigits, fixedDigits, hdigit, ih (by omega)]

theorem fixedDigits_eq_map (n x : ℕ) :
    fixedDigits n x = (List.range n).map fun i => (x / 10 ^ (n - 1 - i) % 10).digitChar := by
  induction n with
  | zero => rfl
  | succ n ih =>
    rw [fixedDigits, List.range_succ_eq_map, List.map_cons, List.map_map, ih]
    congr 1
    refine List.map_congr_left fun i _ => ?_
    rw [Function.comp_apply, show n + 1 - 1 - i.succ = n - 1 - i by omega]

theorem fixedDigits_succ_last (n x : ℕ) :
    fixedDigits (n + 1) x = fixedDigits n (x / 10) ++ [(x % 10).digitChar] := by
  induction n with
  | zero => simp [fixedDigits]
  | succ n ih =>
    rw [fixedDigits, ih, fixedDigits, Nat.div_div_eq_div_mul, ← pow_succ', List.cons_append]

theorem isDigit_of_mem_fixedDigits {n x : ℕ} {c : Char} (h : c ∈ fixedDigits n x) : c.isDigit := by
  rw [fixedDigits_eq_map, List.mem_map] at h
  obtain ⟨i, -, rfl⟩ := h
  rw [Nat.isDigit_digitChar]
  exact decide_eq_true (Nat.mod_lt _ (by decide))

theorem ofDigitChars_fixedDigits (n x init : ℕ) :
    Nat.ofDigitChars 10 (fixedDigits n x) init = 10 ^ n * init + x % 10 ^ n := by
  induction n generalizing init with
  | zero => simp [fixedDigits, Nat.mod_one]
  | succ n ih =>
    rw [fixedDigits, Nat.ofDigitChars_cons_digitChar_of_lt_ten (Nat.mod_lt _ (by decide)), ih, Nat.mod_pow_succ,
      pow_succ]
    ring

theorem ofDigitChars_lt {cs : List Char} (h : ∀ c ∈ cs, c.isDigit) : Nat.ofDigitChars 10 cs 0 < 10 ^ cs.length := by
  induction cs with
  | nil => simp
  | cons c cs ih =>
    obtain ⟨-, hc⟩ := Char.isDigit_iff_toNat.mp (h c List.mem_cons_self)
    have hdigit : c.toNat - 48 ≤ 9 := Nat.sub_le_of_le_add hc
    have hrest := ih fun e he => h e (List.mem_cons_of_mem c he)
    have hmul := Nat.mul_le_mul_left (10 ^ cs.length) hdigit
    rw [Nat.ofDigitChars_cons, Nat.ofDigitChars_eq_ofDigitChars_zero, List.length_cons, pow_succ]
    simp only [mul_zero, zero_add, Char.reduceToNat]
    omega

theorem toDigits_append_fixedDigits {a : ℕ} (ha : 0 < a) :
    ∀ n x : ℕ, x < 10 ^ n → Nat.toDigits 10 (a * 10 ^ n + x) = Nat.toDigits 10 a ++ fixedDigits n x := by
  intro n
  induction n with
  | zero =>
    intro x hx
    have hx : x = 0 := by simpa using hx
    simp [hx, fixedDigits]
  | succ n ih =>
    intro x hx
    have hx' : x / 10 < 10 ^ n := by
      rw [pow_succ] at hx
      omega
    have hsplit : a * 10 ^ (n + 1) + x = 10 * (a * 10 ^ n + x / 10) + x % 10 := by
      rw [pow_succ, ← mul_assoc]
      omega
    have hpos : 0 < a * 10 ^ n + x / 10 := Nat.add_pos_left (by positivity) _
    have hlt : x % 10 < 10 := Nat.mod_lt _ (by decide)
    rw [hsplit, ← Nat.toDigits_append_toDigits (by decide) hpos hlt, ih _ hx',
      Nat.toDigits_of_lt_base hlt, List.append_assoc, ← fixedDigits_succ_last]

/-- The digits below a leading one. -/
theorem toDigits_of_leading {n x : ℕ} (hlow : 10 ^ n ≤ x) (hhigh : x < 10 ^ (n + 1)) :
    Nat.toDigits 10 x = (x / 10 ^ n).digitChar :: fixedDigits n x := by
  have hlead : 0 < x / 10 ^ n := Nat.div_pos hlow (by positivity)
  have hlt : x / 10 ^ n < 10 := by
    rw [Nat.div_lt_iff_lt_mul (by positivity), ← pow_succ']
    exact hhigh
  have h := toDigits_append_fixedDigits hlead n (x % 10 ^ n) (Nat.mod_lt _ (by positivity))
  rwa [Nat.div_add_mod', Nat.toDigits_of_lt_base hlt, fixedDigits_mod le_rfl] at h

theorem fixedDigits_eq_leftpad {n x : ℕ} (hx : x < 10 ^ (n + 1)) :
    fixedDigits (n + 1) x = (Nat.toDigits 10 x).leftpad (n + 1) '0' := by
  induction n with
  | zero =>
    have hx' : x < 10 := by simpa using hx
    rw [Nat.toDigits_of_lt_base hx', fixedDigits, pow_zero, Nat.div_one, Nat.mod_eq_of_lt hx']
    rfl
  | succ n ih =>
    have hpos : 0 < 10 ^ (n + 1) := by positivity
    by_cases hlow : 10 ^ (n + 1) ≤ x
    · have hlt : x / 10 ^ (n + 1) < 10 := by
        rw [Nat.div_lt_iff_lt_mul hpos, ← pow_succ']
        exact hx
      rw [toDigits_of_leading hlow hx, fixedDigits, Nat.mod_eq_of_lt hlt, List.leftpad]
      simp
    · have hlt : x < 10 ^ (n + 1) := Nat.lt_of_not_le hlow
      have hlen : (Nat.toDigits 10 x).length ≤ n + 1 :=
        (Nat.length_toDigits_le_iff (by decide) n.succ_pos).mpr hlt
      rw [fixedDigits, Nat.div_eq_of_lt hlt, ih hlt, List.leftpad, List.leftpad, ← List.cons_append]
      congr 1
      rw [Nat.succ_sub hlen, List.replicate_succ]
      rfl

/-! ## Characters of a number -/

theorem digitChar_toNat {c : Char} (h : c.isDigit) : c.toNat - 48 < 10 ∧ (c.toNat - 48).digitChar = c := by
  obtain ⟨hlo, hhi⟩ := Char.isDigit_iff_toNat.mp h
  simp only [Char.reduceToNat] at hlo hhi
  obtain ⟨k, hk⟩ : ∃ k, c.toNat = 48 + k := ⟨c.toNat - 48, by omega⟩
  have hlt : k < 10 := by omega
  refine ⟨by omega, ?_⟩
  have hc : c = Char.ofNat (48 + k) := by rw [← hk, Char.ofNat_toNat]
  rw [hk, Nat.add_sub_cancel_left, hc]
  interval_cases k <;> rfl

/-- Digits are those of the number they make. -/
theorem fixedDigits_ofDigitChars {cs : List Char} (h : ∀ c ∈ cs, c.isDigit) (init : ℕ) :
    fixedDigits cs.length (Nat.ofDigitChars 10 cs init) = cs := by
  induction cs generalizing init with
  | nil => rfl
  | cons c cs ih =>
    obtain ⟨hlt, hchar⟩ := digitChar_toNat (h c List.mem_cons_self)
    have hrest : ∀ e ∈ cs, e.isDigit := fun e he => h e (List.mem_cons_of_mem c he)
    have hhead : Nat.ofDigitChars 10 cs (10 * init + (c.toNat - 48)) / 10 ^ cs.length % 10 = c.toNat - 48 := by
      rw [Nat.ofDigitChars_eq_ofDigitChars_zero, Nat.mul_add_div (by positivity),
        Nat.div_eq_of_lt (ofDigitChars_lt hrest), Nat.add_zero, Nat.mul_add_mod, Nat.mod_eq_of_lt hlt]
    rw [Nat.ofDigitChars_cons, List.length_cons, fixedDigits]
    simp only [Char.reduceToNat]
    rw [hhead, hchar, ih hrest]

/-- Digits without superfluous zeros in front are the decimal form of the number they make. -/
theorem toDigits_ofDigitChars {cs : List Char} (h : ∀ c ∈ cs, c.isDigit) (hne : cs ≠ [])
    (hlead : cs.head? = some '0' → cs = ['0']) : Nat.toDigits 10 (Nat.ofDigitChars 10 cs 0) = cs := by
  obtain ⟨c, ds, rfl⟩ := List.exists_cons_of_ne_nil hne
  obtain ⟨hlt, hchar⟩ := digitChar_toNat (h c List.mem_cons_self)
  have hrest : ∀ e ∈ ds, e.isDigit := fun e he => h e (List.mem_cons_of_mem c he)
  by_cases hzero : c = '0'
  · rw [hlead (congrArg some hzero)]
    rfl
  · have hpos : 0 < c.toNat - 48 := by
      refine Nat.pos_of_ne_zero fun heq => hzero ?_
      rw [← hchar, heq]
      rfl
    have hfixed := fixedDigits_ofDigitChars hrest 0
    rw [Nat.ofDigitChars_cons, Nat.ofDigitChars_eq_ofDigitChars_zero, Nat.mul_comm]
    simp only [mul_zero, zero_add, Char.reduceToNat]
    rw [toDigits_append_fixedDigits hpos _ _ (ofDigitChars_lt hrest), hfixed, Nat.toDigits_of_lt_base hlt, hchar]
    rfl

/-- `n / 10 ^ scale` in decimal, with exactly `scale` digits behind the point and no leading
zero in front of it but a single one. -/
def decimalText (neg : Bool) (n scale : ℕ) : String :=
  (if neg then "-" else "") ++ toString (n / 10 ^ scale) ++
    (if scale = 0 then ""
     else "." ++ String.ofList ((Nat.toDigits 10 (n % 10 ^ scale)).leftpad scale '0'))

/-- The characters of a decimal text. -/
theorem decimalText_toList (neg : Bool) (n scale : ℕ) :
    (decimalText neg n scale).toList =
      (if neg then ['-'] else []) ++ Nat.toDigits 10 (n / 10 ^ scale) ++
        (if scale = 0 then [] else '.' :: fixedDigits scale n) := by
  have hfrac : ∀ s, fixedDigits (s + 1) n = (Nat.toDigits 10 (n % 10 ^ (s + 1))).leftpad (s + 1) '0' := by
    intro s
    rw [← fixedDigits_eq_leftpad (Nat.mod_lt _ (by positivity)), fixedDigits_mod le_rfl]
  unfold decimalText
  cases scale with
  | zero => cases neg <;> simp
  | succ s => cases neg <;> simp [hfrac]

end Decimal
