-- SUMMARY: The three forms of a numeric and their common text (`numeric_to_string`, `numeric_from_binary`).
import Mathlib.Tactic.IntervalCases
import OpenLtap.Base.Decimal
import OpenLtap.Wal.Pglz

/-!
# Numerics

A numeric is a sign, a list of digits in base 10000, the weight of the first digit, and
the number of decimal digits to show behind the point. It is stored in a short or a long
form and sent over the wire in a third one.
-/

namespace Ltap

open Decimal

/-! ## Machine integers -/

/-- The signed value of an unsigned machine integer. -/
def fromTwos (bits x : Nat) : Int := if x < 2 ^ (bits - 1) then x else x - 2 ^ bits

def toTwos (bits : Nat) (i : Int) : Nat := (i % 2 ^ bits).toNat

/-- Big-endian value of a byte list. -/
def fromBe (bs : Bytes) : Nat := fromLe bs.reverse

def toBe (n v : Nat) : Bytes := (toLe n v).reverse

/-- `{:#x}` of a number. -/
def hex (n : Nat) : String := "0x" ++ String.ofList (Nat.toDigits 16 n)

/-! ## Text of the digits -/

/-- The digit at a decimal exponent: 0 are the ones, negative ones are behind the point. -/
def digitAt (weight : Int) (digits : List Nat) (exp : Int) : Nat :=
  let g := weight - exp / 4
  if g < 0 ∨ g ≥ digits.length then 0
  else digits.getD g.toNat 0 / 10 ^ (exp % 4).toNat % 10

/-- The digits below exponent `n` in front of the point, from the first that is not zero on
unless one was written before. -/
def intChars (weight : Int) (digits : List Nat) : Nat → Bool → List Char
  | 0, started => if started then [] else ['0']
  | n + 1, started =>
    let d := digitAt weight digits n
    if started || d ≠ 0 then d.digitChar :: intChars weight digits n true
    else intChars weight digits n false

def fracChars (weight : Int) (digits : List Nat) (dscale : Nat) : List Char :=
  (List.range dscale).map fun i : Nat => (digitAt weight digits (-((i : Int) + 1))).digitChar

def numericDigitsToString (neg : Bool) (weight dscale : Int) (digits : List Nat) : String :=
  let hi := max (4 * weight + 3) 0
  String.ofList ((if neg then ['-'] else []) ++ intChars weight digits (hi + 1).toNat false ++
    if dscale > 0 then '.' :: fracChars weight digits dscale.toNat else [])

/-! ## The forms -/

/-- The text of a numeric as a page stores it, without its varlena header. -/
def numericToString (payload : Bytes) : Except Fault String :=
  if payload.length < 2 then bail s!"numeric too short: {payload.length} bytes"
  else
    let nHeader := fromLe (payload.take 2)
    let flagbits := nHeader &&& 0xC000
    if flagbits = 0xC000 then
      let special := nHeader &&& 0xF000
      if special = 0xC000 then .ok "NaN"
      else if special = 0xD000 then .ok "Infinity"
      else if special = 0xF000 then .ok "-Infinity"
      else bail s!"numeric: unknown special header {hex special}"
    else if flagbits = 0x8000 then
      -- The short form has sign, scale, and a seven-bit weight in the header.
      let dscale := (nHeader &&& 0x1F80) >>> 7
      let rawW : Int := (nHeader &&& 0x003F : Nat)
      let weight := if nHeader &&& 0x0040 ≠ 0 then rawW - 64 else rawW
      let digits := chunksLe 2 ((payload.length - 2) / 2) (payload.drop 2)
      .ok (numericDigitsToString (nHeader &&& 0x2000 ≠ 0) weight dscale digits)
    else if payload.length < 4 then bail "numeric long header truncated"
    else
      let dscale := nHeader &&& 0x3FFF
      let weight := fromTwos 16 (fromLe ((payload.drop 2).take 2))
      let digits := chunksLe 2 ((payload.length - 4) / 2) (payload.drop 4)
      .ok (numericDigitsToString (flagbits = 0x4000) weight dscale digits)

/-- `n` big-endian digits. -/
def binaryDigits : Nat → Bytes → Except Fault (List Nat)
  | 0, _ => .ok []
  | n + 1, f =>
    if f.length < 2 then bail "numeric binary digits truncated"
    else do
      let rest ← binaryDigits n (f.drop 2)
      return fromBe (f.take 2) :: rest

/-- The text of a numeric as `numeric_send` writes it. -/
def numericFromBinary (f : Bytes) : Except Fault String :=
  if f.length < 8 then bail s!"numeric binary too short: {f.length} bytes"
  else
    let ndigits := (fromTwos 16 (fromBe (f.take 2))).toNat
    let weight := fromTwos 16 (fromBe ((f.drop 2).take 2))
    let sign := fromBe ((f.drop 4).take 2)
    let dscale := fromTwos 16 (fromBe ((f.drop 6).take 2))
    if sign = 0xC000 then .ok "NaN"
    else if sign = 0xD000 then .ok "Infinity"
    else if sign = 0xF000 then .ok "-Infinity"
    else do
      let digits ← binaryDigits ndigits (f.drop 8)
      return numericDigitsToString (sign = 0x4000) weight dscale digits

/-! ## Digits and value -/

section Value

variable {weight : Int} {digits : List Nat} (hdigits : ∀ d ∈ digits, d < 10000)
include hdigits

/-- A decimal digit of the number. -/
theorem digitAt_eq_floor (exp : Int) :
    digitAt weight digits exp = ⌊positional 10000 weight digits / (10 : ℚ) ^ exp⌋₊ % 10 := by
  have hgroup := floor_positional_mod (b := 10000) (by decide) hdigits weight (exp / 4)
  obtain ⟨r, hr⟩ : ∃ r : Nat, exp % 4 = r := ⟨(exp % 4).toNat, by omega⟩
  have hlt : r < 4 := by omega
  have hexp : (10 : ℚ) ^ exp = ((10000 : ℕ) : ℚ) ^ (exp / 4) * ((10 ^ r : ℕ) : ℚ) := by
    have hsplit : exp = 4 * (exp / 4) + r := by omega
    have hten : ((10000 : ℕ) : ℚ) = (10 : ℚ) ^ (4 : ℤ) := by norm_num
    rw [hten, ← zpow_mul, Nat.cast_pow, ← zpow_natCast, Nat.cast_ofNat, ← zpow_add₀ (by norm_num)]
    congr 1
  rw [hexp, ← div_div, Nat.floor_div_natCast]
  generalize ⌊positional 10000 weight digits / ((10000 : ℕ) : ℚ) ^ (exp / 4)⌋₊ = x at hgroup ⊢
  -- The group holds four decimal digits, the one asked for among them.
  have hdigit : x / 10 ^ r % 10 = x % 10000 / 10 ^ r % 10 := by
    interval_cases r <;> omega
  have hcode : digitAt weight digits exp = digitOf weight digits (exp / 4) / 10 ^ r % 10 := by
    simp only [digitAt, digitOf, hr, Int.toNat_natCast]
    split <;> simp
  rw [hcode, hdigit, hgroup]

/-- The digits of the number scaled up by `scale` decimal places. -/
theorem digitAt_eq_scaled (scale e : Nat) :
    digitAt weight digits (e - scale : Int) =
      ⌊positional 10000 weight digits * (10 : ℚ) ^ scale⌋₊ / 10 ^ e % 10 := by
  have hzpow : (10 : ℚ) ^ (e - scale : Int) = ((10 ^ e : ℕ) : ℚ) / (10 : ℚ) ^ scale := by
    rw [zpow_sub₀ (by norm_num), zpow_natCast, zpow_natCast, Nat.cast_pow, Nat.cast_ofNat]
  rw [digitAt_eq_floor hdigits, hzpow, div_div_eq_mul_div, Nat.floor_div_natCast]

theorem floor_positional_lt :
    ⌊positional 10000 weight digits⌋₊ < 10 ^ (max (4 * weight + 3) 0 + 1).toNat := by
  have hnonneg := positional_nonneg (b := 10000) weight digits
  have hlt := positional_lt (b := 10000) (by decide) hdigits weight
  have hle : (((10000 : ℕ) : ℚ)) ^ (weight + 1) ≤
      ((10 ^ (max (4 * weight + 3) 0 + 1).toNat : ℕ) : ℚ) := by
    have hten : ((10000 : ℕ) : ℚ) = (10 : ℚ) ^ (4 : ℤ) := by norm_num
    rw [hten, ← zpow_mul, Nat.cast_pow, ← zpow_natCast, Nat.cast_ofNat]
    exact zpow_le_zpow_right₀ (by norm_num) (by omega)
  exact (Nat.floor_lt hnonneg).mpr (hlt.trans_le hle)

end Value

/-! ## Text and value -/

section Text

variable {weight : Int} {digits : List Nat}

theorem intChars_started {x n : Nat} (h : ∀ e : Nat, e < n → digitAt weight digits e = x / 10 ^ e % 10) :
    intChars weight digits n true = fixedDigits n x := by
  induction n with
  | zero => rfl
  | succ n ih =>
    rw [intChars, fixedDigits, ← h n n.lt_succ_self, ← ih fun e he => h e (Nat.lt_succ_of_lt he)]
    rfl

theorem intChars_eq_toDigits {x n : Nat}
    (h : ∀ e : Nat, e < n → digitAt weight digits e = x / 10 ^ e % 10) (hx : x < 10 ^ n) :
    intChars weight digits n false = Nat.toDigits 10 x := by
  induction n with
  | zero =>
    have hx : x = 0 := by simpa using hx
    rw [hx]
    rfl
  | succ n ih =>
    have hdigit : digitAt weight digits n = x / 10 ^ n := by
      rw [h n n.lt_succ_self, Nat.mod_eq_of_lt]
      rw [Nat.div_lt_iff_lt_mul (by positivity), ← pow_succ']
      exact hx
    have hbelow : ∀ e : Nat, e < n → digitAt weight digits e = x / 10 ^ e % 10 :=
      fun e he => h e (Nat.lt_succ_of_lt he)
    by_cases hlow : 10 ^ n ≤ x
    · have hne : digitAt weight digits n ≠ 0 := by
        rw [hdigit]
        exact (Nat.div_pos hlow (by positivity)).ne'
      simp only [intChars, hne, ne_eq, not_false_eq_true, decide_true, Bool.or_true, if_true]
      rw [intChars_started hbelow, toDigits_of_leading hlow hx, hdigit]
    · have hlt : x < 10 ^ n := Nat.lt_of_not_le hlow
      have hzero : digitAt weight digits n = 0 := by rw [hdigit, Nat.div_eq_of_lt hlt]
      simp only [intChars, hzero, ne_eq, not_true_eq_false, decide_false, Bool.or_false,
        Bool.false_eq_true, if_false]
      exact ih hbelow hlt

/-- The text is the number cut after `scale` decimal places. -/
theorem numericDigitsToString_eq (hdigits : ∀ d ∈ digits, d < 10000) (neg : Bool) (scale : Nat) :
    numericDigitsToString neg weight scale digits =
      decimalText neg ⌊positional 10000 weight digits * (10 : ℚ) ^ scale⌋₊ scale := by
  let x := ⌊positional 10000 weight digits * (10 : ℚ) ^ scale⌋₊
  have hint : x / 10 ^ scale = ⌊positional 10000 weight digits⌋₊ := floor_scaled_div _ scale
  have hbefore : ∀ e : Nat, digitAt weight digits e = x / 10 ^ scale / 10 ^ e % 10 := by
    intro e
    have hexp : (e : Int) = ((scale + e : Nat) : Int) - scale := by push_cast; ring
    rw [hexp, digitAt_eq_scaled hdigits, pow_add, Nat.div_div_eq_div_mul]
  have hafter : fracChars weight digits scale = fixedDigits scale x := by
    rw [fracChars, fixedDigits_eq_map]
    refine List.map_congr_left fun i hi => ?_
    have hi : i < scale := List.mem_range.mp hi
    rw [← digitAt_eq_scaled hdigits scale (scale - 1 - i)]
    congr 2
    omega
  have hfront : intChars weight digits (max (4 * weight + 3) 0 + 1).toNat false =
      Nat.toDigits 10 (x / 10 ^ scale) := by
    refine intChars_eq_toDigits (fun e _ => hbefore e) ?_
    rw [hint]
    exact floor_positional_lt hdigits
  rw [← String.toList_inj, decimalText_toList, numericDigitsToString, String.toList_ofList, hfront,
    Int.toNat_natCast, hafter]
  cases scale with
  | zero => rfl
  | succ s => simp [x]

end Text

/-! ## Reading the forms -/

theorem fromTwos_toTwos {bits : Nat} (hbits : 0 < bits) {i : Int} (hlo : -2 ^ (bits - 1) ≤ i)
    (hhi : i < 2 ^ (bits - 1)) : fromTwos bits (toTwos bits i) = i := by
  have hpow : (2 : Int) ^ bits = 2 * 2 ^ (bits - 1) := by
    rw [← pow_succ']
    congr 1
    omega
  have hnat : ((2 ^ (bits - 1) : Nat) : Int) = 2 ^ (bits - 1) := by push_cast; rfl
  have hmod : 0 ≤ i % 2 ^ bits := Int.emod_nonneg _ (by positivity)
  have hcast : ((toTwos bits i : Nat) : Int) = i % 2 ^ bits := Int.toNat_of_nonneg hmod
  unfold fromTwos
  by_cases hneg : i < 0
  · have hi : i % 2 ^ bits = i + 2 ^ bits := by
      rw [← Int.add_emod_right, Int.emod_eq_of_lt (by omega) (by omega)]
    rw [if_neg (by omega), hcast, hi]
    ring
  · have hi : i % 2 ^ bits = i := Int.emod_eq_of_lt (by omega) (by omega)
    rw [if_pos (by omega), hcast, hi]

theorem toTwos_lt (bits : Nat) (i : Int) : toTwos bits i < 2 ^ bits := by
  have hmod := Int.emod_lt_of_pos i (show (0 : Int) < 2 ^ bits by positivity)
  have hnonneg := Int.emod_nonneg i (show (2 : Int) ^ bits ≠ 0 by positivity)
  have hnat : ((2 ^ bits : Nat) : Int) = 2 ^ bits := by push_cast; rfl
  unfold toTwos
  omega

theorem fromTwos_ge (bits x : Nat) : -2 ^ (bits - 1) ≤ fromTwos bits x := by
  have hnat : ((2 ^ (bits - 1) : Nat) : Int) = 2 ^ (bits - 1) := by push_cast; rfl
  have hdouble : (2 : Int) ^ bits ≤ 2 * 2 ^ (bits - 1) := by
    rw [← pow_succ']
    exact pow_le_pow_right₀ (by decide) (by omega)
  unfold fromTwos
  split <;> omega

theorem fromTwos_lt {bits x : Nat} (hx : x < 2 ^ bits) : fromTwos bits x < 2 ^ (bits - 1) := by
  have hnat : ((2 ^ (bits - 1) : Nat) : Int) = 2 ^ (bits - 1) := by push_cast; rfl
  have hnat' : ((2 ^ bits : Nat) : Int) = 2 ^ bits := by push_cast; rfl
  have hpos := Nat.two_pow_pos (bits - 1)
  unfold fromTwos
  split <;> omega

/-- A mask of `k` bits from bit `j` on. -/
theorem and_mask (x k j : Nat) : x &&& ((2 ^ k - 1) * 2 ^ j) = x / 2 ^ j % 2 ^ k * 2 ^ j := by
  apply Nat.eq_of_testBit_eq
  intro i
  rw [Nat.testBit_and, ← Nat.shiftLeft_eq, ← Nat.shiftLeft_eq, Nat.testBit_shiftLeft,
    Nat.testBit_shiftLeft, Nat.testBit_two_pow_sub_one, Nat.testBit_mod_two_pow,
    Nat.testBit_div_two_pow]
  by_cases h : j ≤ i
  · simp [h, Bool.and_comm]
  · simp [h]

theorem chunksLe_toLe {n : Nat} {ds : List Nat} (h : ∀ d ∈ ds, d < 256 ^ n) :
    chunksLe n ds.length (ds.flatMap (toLe n)) = ds := by
  induction ds with
  | nil => rfl
  | cons d ds ih =>
    rw [List.length_cons, chunksLe, List.flatMap_cons, List.take_left' (toLe_length n d),
      List.drop_left' (toLe_length n d), fromLe_toLe (h d List.mem_cons_self),
      ih fun x hx => h x (List.mem_cons_of_mem d hx)]

theorem flatMap_toLe_length (n : Nat) (ds : List Nat) : (ds.flatMap (toLe n)).length = n * ds.length := by
  induction ds with
  | nil => simp
  | cons d ds ih =>
    rw [List.flatMap_cons, List.length_append, toLe_length, ih, List.length_cons]
    ring

theorem toBe_length (n v : Nat) : (toBe n v).length = n := by
  rw [toBe, List.length_reverse, toLe_length]

theorem fromBe_toBe {n v : Nat} (h : v < 256 ^ n) : fromBe (toBe n v) = v := by
  rw [fromBe, toBe, List.reverse_reverse, fromLe_toLe h]

theorem binaryDigits_toBe {ds : List Nat} (h : ∀ d ∈ ds, d < 256 ^ 2) :
    binaryDigits ds.length (ds.flatMap (toBe 2)) = .ok ds := by
  induction ds with
  | nil => rfl
  | cons d ds ih =>
    have hlen : ¬ (toBe 2 d ++ ds.flatMap (toBe 2)).length < 2 := by
      rw [List.length_append, toBe_length]
      omega
    rw [List.length_cons, binaryDigits, List.flatMap_cons, if_neg hlen,
      List.drop_left' (toBe_length 2 d), ih fun x hx => h x (List.mem_cons_of_mem d hx),
      List.take_left' (toBe_length 2 d), fromBe_toBe (h d List.mem_cons_self)]
    rfl

/-- What is printed of a long header, a weight and digits. -/
theorem numericToString_long (neg : Bool) {weight : Int} {scale : Nat} {digits : List Nat} (hlo : -2 ^ 15 ≤ weight)
    (hhi : weight < 2 ^ 15) (hscale : scale ≤ 16383) (hdigits : ∀ d ∈ digits, d < 256 ^ 2) :
    numericToString (toLe 2 (0x4000 * neg.toNat + scale) ++ (toLe 2 (toTwos 16 weight) ++ digits.flatMap (toLe 2))) =
      .ok (numericDigitsToString neg weight scale digits) := by
  have hneg := neg.toNat_lt
  have hheader : 0x4000 * neg.toNat + scale < 256 ^ 2 := by omega
  generalize hpayload : toLe 2 (0x4000 * neg.toNat + scale) ++ (toLe 2 (toTwos 16 weight) ++ digits.flatMap (toLe 2)) =
    payload
  have hlen : payload.length = 4 + 2 * digits.length := by
    simp only [← hpayload, List.length_append, toLe_length, flatMap_toLe_length]
    omega
  have htake : fromLe (payload.take 2) = 0x4000 * neg.toNat + scale := by
    rw [← hpayload, List.take_left' (toLe_length 2 _), fromLe_toLe hheader]
  have hweight : fromTwos 16 (fromLe ((payload.drop 2).take 2)) = weight := by
    rw [← hpayload, List.drop_left' (toLe_length 2 _), List.take_left' (toLe_length 2 _),
      fromLe_toLe (toTwos_lt 16 _), fromTwos_toTwos (by decide) hlo hhi]
  have hdrop : payload.drop 4 = digits.flatMap (toLe 2) := by
    rw [← hpayload, show 4 = 2 + 2 by rfl, ← List.drop_drop, List.drop_left' (toLe_length 2 _),
      List.drop_left' (toLe_length 2 _)]
  have hflag : 0x4000 * neg.toNat + scale &&& 0xC000 = 0x4000 * neg.toNat := by
    rw [show 0xC000 = (2 ^ 2 - 1) * 2 ^ 14 by rfl, and_mask]
    omega
  have hmask : 0x4000 * neg.toNat + scale &&& 0x3FFF = scale := by
    rw [show 0x3FFF = (2 ^ 14 - 1) * 2 ^ 0 by rfl, and_mask]
    omega
  have hsign : decide (0x4000 * neg.toNat = 0x4000) = neg := by cases neg <;> rfl
  simp only [numericToString, hlen, htake, hflag, hmask, hweight, hdrop, hsign]
  rw [if_neg (by omega), if_neg (by omega), if_neg (by omega), if_neg (by omega),
    show (4 + 2 * digits.length - 4) / 2 = digits.length by omega, chunksLe_toLe hdigits]

/-! ## Numerics and their forms -/

/-- A finite numeric. -/
structure Numeric where
  neg : Bool
  weight : Int
  dscale : Nat
  digits : List Nat
  weight_ge : -2 ^ 15 ≤ weight
  weight_lt : weight < 2 ^ 15
  dscale_le : dscale ≤ 16383
  digits_length : digits.length ≤ 32767
  digits_lt : ∀ d ∈ digits, d < 10000

namespace Numeric

variable (n : Numeric)

/-- The number without its sign. -/
def magnitude : ℚ := ∑ k ∈ Finset.range n.digits.length, (n.digits.getD k 0 : ℚ) * 10000 ^ (n.weight - k)

/-- The number cut after `dscale` decimal places, in decimal. -/
def text : String := decimalText n.neg ⌊n.magnitude * 10 ^ n.dscale⌋₊ n.dscale

/-- `NUMERIC_SHORT`. -/
def shortForm : Bytes :=
  toLe 2 (0x8000 + 0x2000 * n.neg.toNat + 0x80 * n.dscale + toTwos 7 n.weight) ++
    n.digits.flatMap (toLe 2)

/-- `NUMERIC_LONG`. -/
def longForm : Bytes :=
  toLe 2 (0x4000 * n.neg.toNat + n.dscale) ++ (toLe 2 (toTwos 16 n.weight) ++ n.digits.flatMap (toLe 2))

/-- `numeric_send`. -/
def sendForm : Bytes :=
  toBe 2 n.digits.length ++ (toBe 2 (toTwos 16 n.weight) ++ (toBe 2 (0x4000 * n.neg.toNat) ++
    (toBe 2 n.dscale ++ n.digits.flatMap (toBe 2))))

/-- What the short header has room for. -/
def FitsShort : Prop := n.dscale ≤ 63 ∧ -64 ≤ n.weight ∧ n.weight ≤ 63

theorem numericDigitsToString_text :
    numericDigitsToString n.neg n.weight n.dscale n.digits = n.text := by
  rw [numericDigitsToString_eq n.digits_lt]
  rfl

theorem digits_lt_word : ∀ d ∈ n.digits, d < 256 ^ 2 :=
  fun d hd => (n.digits_lt d hd).trans (by decide)

theorem weight_word : fromTwos 16 (toTwos 16 n.weight) = n.weight :=
  fromTwos_toTwos (by decide) n.weight_ge n.weight_lt

theorem numericToString_longForm : numericToString n.longForm = .ok n.text := by
  rw [longForm, numericToString_long n.neg n.weight_ge n.weight_lt n.dscale_le n.digits_lt_word,
    n.numericDigitsToString_text]

theorem numericToString_shortForm (h : n.FitsShort) : numericToString n.shortForm = .ok n.text := by
  obtain ⟨hscale, hlo, hhi⟩ := h
  have hneg := n.neg.toNat_lt
  have hw := toTwos_lt 7 n.weight
  have hweight : fromTwos 7 (toTwos 7 n.weight) = n.weight :=
    fromTwos_toTwos (by decide) (by simpa using hlo) (by simp; omega)
  generalize hx : 0x8000 + 0x2000 * n.neg.toNat + 0x80 * n.dscale + toTwos 7 n.weight = x
  have hheader : x < 256 ^ 2 := by omega
  have hlen : n.shortForm.length = 2 + 2 * n.digits.length := by
    simp only [shortForm, List.length_append, toLe_length, flatMap_toLe_length]
  have htake : fromLe (n.shortForm.take 2) = x := by
    rw [shortForm, hx, List.take_left' (toLe_length 2 _), fromLe_toLe hheader]
  have hdrop : n.shortForm.drop 2 = n.digits.flatMap (toLe 2) := by
    rw [shortForm, List.drop_left' (toLe_length 2 _)]
  have hflag : x &&& 0xC000 = 0x8000 := by
    rw [show 0xC000 = (2 ^ 2 - 1) * 2 ^ 14 by rfl, and_mask]
    omega
  have hsign : x &&& 0x2000 = 0x2000 * n.neg.toNat := by
    rw [show 0x2000 = (2 ^ 1 - 1) * 2 ^ 13 by rfl, and_mask]
    omega
  have hdscale : (x &&& 0x1F80) >>> 7 = n.dscale := by
    rw [show 0x1F80 = (2 ^ 6 - 1) * 2 ^ 7 by rfl, and_mask, Nat.shiftRight_eq_div_pow]
    omega
  have hlow : x &&& 0x003F = toTwos 7 n.weight % 64 := by
    rw [show 0x003F = (2 ^ 6 - 1) * 2 ^ 0 by rfl, and_mask]
    omega
  have hbit : x &&& 0x0040 = toTwos 7 n.weight / 64 * 64 := by
    rw [show 0x0040 = (2 ^ 1 - 1) * 2 ^ 6 by rfl, and_mask]
    omega
  have hextend : (if x &&& 0x0040 ≠ 0 then ((x &&& 0x003F : Nat) : Int) - 64 else ((x &&& 0x003F : Nat) : Int)) =
      n.weight := by
    unfold fromTwos at hweight
    rw [hbit, hlow]
    split at hweight <;> split <;> omega
  have hneg' : decide (0x2000 * n.neg.toNat ≠ 0) = n.neg := by cases n.neg <;> rfl
  simp only [numericToString, hlen, htake, hflag, hdrop, hdscale, hsign, hextend, hneg']
  rw [if_neg (by omega), if_neg (by omega), if_pos trivial,
    show (2 + 2 * n.digits.length - 2) / 2 = n.digits.length by omega,
    chunksLe_toLe n.digits_lt_word, n.numericDigitsToString_text]

theorem numericFromBinary_sendForm : numericFromBinary n.sendForm = .ok n.text := by
  have hscale := n.dscale_le
  have hcount := n.digits_length
  have hneg := n.neg.toNat_lt
  have hlen : ¬ n.sendForm.length < 8 := by
    simp only [sendForm, List.length_append, toBe_length]
    omega
  have hnd : (fromTwos 16 (fromBe (n.sendForm.take 2))).toNat = n.digits.length := by
    rw [sendForm, List.take_left' (toBe_length 2 _), fromBe_toBe (by omega), fromTwos, if_pos (by omega),
      Int.toNat_natCast]
  have hweight : fromTwos 16 (fromBe ((n.sendForm.drop 2).take 2)) = n.weight := by
    rw [sendForm, List.drop_left' (toBe_length 2 _), List.take_left' (toBe_length 2 _),
      fromBe_toBe (toTwos_lt 16 _), n.weight_word]
  have hsign : fromBe ((n.sendForm.drop 4).take 2) = 0x4000 * n.neg.toNat := by
    rw [sendForm, show 4 = 2 + 2 by rfl, ← List.drop_drop, List.drop_left' (toBe_length 2 _),
      List.drop_left' (toBe_length 2 _), List.take_left' (toBe_length 2 _), fromBe_toBe (by omega)]
  have hdscale : fromTwos 16 (fromBe ((n.sendForm.drop 6).take 2)) = n.dscale := by
    rw [sendForm, show 6 = 2 + 2 + 2 by rfl, ← List.drop_drop, ← List.drop_drop,
      List.drop_left' (toBe_length 2 _), List.drop_left' (toBe_length 2 _),
      List.drop_left' (toBe_length 2 _), List.take_left' (toBe_length 2 _), fromBe_toBe (by omega),
      fromTwos, if_pos (by omega)]
  have hdrop : n.sendForm.drop 8 = n.digits.flatMap (toBe 2) := by
    rw [sendForm, show 8 = 2 + 2 + 2 + 2 by rfl, ← List.drop_drop, ← List.drop_drop, ← List.drop_drop,
      List.drop_left' (toBe_length 2 _), List.drop_left' (toBe_length 2 _),
      List.drop_left' (toBe_length 2 _), List.drop_left' (toBe_length 2 _)]
  have hneg' : decide (0x4000 * n.neg.toNat = 0x4000) = n.neg := by cases n.neg <;> rfl
  simp only [numericFromBinary, if_neg hlen, hnd, hweight, hsign, hdscale, hdrop,
    binaryDigits_toBe n.digits_lt_word, hneg', bind, Except.bind]
  rw [if_neg (by omega), if_neg (by omega), if_neg (by omega), n.numericDigitsToString_text]
  rfl

/-- All forms of a numeric print the number cut after `dscale` decimal places. -/
theorem forms_agree :
    numericToString n.longForm = .ok n.text ∧ numericFromBinary n.sendForm = .ok n.text ∧
      (n.FitsShort → numericToString n.shortForm = .ok n.text) :=
  ⟨n.numericToString_longForm, n.numericFromBinary_sendForm, n.numericToString_shortForm⟩

/-- -12.34, which fits the short form. -/
def sample : Numeric where
  neg := true
  weight := 0
  dscale := 2
  digits := [12, 3400]
  weight_ge := by decide
  weight_lt := by decide
  dscale_le := by decide
  digits_length := by decide
  digits_lt := by decide

theorem forms_agree_sample :
    sample.FitsShort ∧ numericToString sample.shortForm = .ok sample.text := by
  have hfits : sample.FitsShort := ⟨by decide, by decide, by decide⟩
  exact ⟨hfits, (forms_agree sample).2.2 hfits⟩

example : numericToString sample.shortForm = .ok "-12.34" := by decide +kernel

end Numeric

end Ltap
