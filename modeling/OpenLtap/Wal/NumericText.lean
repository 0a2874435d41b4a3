-- SUMMARY: Numeric texts read back: `numeric_from_string` gives a form that `numeric_to_string` prints the same.
import OpenLtap.Wal.Datum
import OpenLtap.Wal.Encode

/-!
# Numerics from their text

Every text that `numeric_to_string` prints is the name of a special value or a decimal
text. A decimal text is cut into groups of four digits around the point; zero groups at
both ends are dropped, and the number stays the same.
-/

namespace Ltap

open Decimal

/-! ## Texts that are printed -/

theorem digitAt_mod (weight : Int) (digits : List Nat) (exp : Int) :
    digitAt weight (digits.map (· % 10000)) exp = digitAt weight digits exp := by
  simp only [digitAt, List.length_map]
  split
  · rfl
  · rename_i hg
    have hlt : (weight - exp / 4).toNat < digits.length := by omega
    have hr : (exp % 4).toNat < 4 := by omega
    rw [List.getD_eq_getElem?_getD, List.getD_eq_getElem?_getD, List.getElem?_map, List.getElem?_eq_getElem hlt]
    simp only [Option.map_some, Option.getD_some]
    generalize digits[(weight - exp / 4).toNat] = d
    interval_cases (exp % 4).toNat <;> omega

theorem intChars_mod (weight : Int) (digits : List Nat) (n : Nat) (started : Bool) :
    intChars weight (digits.map (· % 10000)) n started = intChars weight digits n started := by
  induction n generalizing started with
  | zero => rfl
  | succ n ih => simp only [intChars, digitAt_mod, ih]

/-- Only the last four decimal digits of a group are printed. -/
theorem numericDigitsToString_mod (neg : Bool) (weight dscale : Int) (digits : List Nat) :
    numericDigitsToString neg weight dscale (digits.map (· % 10000)) =
      numericDigitsToString neg weight dscale digits := by
  simp only [numericDigitsToString, intChars_mod, fracChars, digitAt_mod]

/-- A decimal text whose scale and weight fit a numeric. -/
def IsDecimal (t : String) : Prop :=
  ∃ neg x scale, t = decimalText neg x scale ∧ scale ≤ 16383 ∧
    (Nat.toDigits 10 (x / 10 ^ scale)).length ≤ 131072

theorem isDecimal_digits {neg : Bool} {weight : Int} {scale : Nat} (digits : List Nat) (hweight : weight < 2 ^ 15)
    (hscale : scale ≤ 16383) : IsDecimal (numericDigitsToString neg weight scale digits) := by
  have hlt : ∀ d ∈ digits.map (· % 10000), d < 10000 := by
    intro d hd
    obtain ⟨e, -, rfl⟩ := List.mem_map.mp hd
    exact Nat.mod_lt _ (by decide)
  rw [← numericDigitsToString_mod, numericDigitsToString_eq hlt]
  refine ⟨neg, _, scale, rfl, hscale, ?_⟩
  rw [floor_scaled_div]
  have hfloor : ⌊positional 10000 weight (digits.map (· % 10000))⌋₊ < _ := floor_positional_lt hlt
  have hlen := (Nat.length_toDigits_le_iff (by decide) (by omega)).mpr hfloor
  omega

/-- What is printed is a special value or a decimal text. -/
theorem numericToString_ok {payload : Bytes} {t : String} (h : numericToString payload = .ok t) :
    (∃ s : NumericSpecial, t = s.text) ∨ IsDecimal t := by
  unfold numericToString at h
  dsimp only at h
  split at h
  · cases h
  split at h
  · split at h
    · exact .inl ⟨.nan, (Except.ok.inj h).symm⟩
    split at h
    · exact .inl ⟨.posInf, (Except.ok.inj h).symm⟩
    split at h
    · exact .inl ⟨.negInf, (Except.ok.inj h).symm⟩
    · cases h
  split at h
  · obtain rfl := Except.ok.inj h
    refine .inr (isDecimal_digits _ ?_ ?_)
    · have hlow : fromLe (payload.take 2) &&& 0x003F ≤ 0x003F := Nat.and_le_right
      split <;> omega
    · rw [show 0x1F80 = (2 ^ 6 - 1) * 2 ^ 7 by rfl, and_mask, Nat.shiftRight_eq_div_pow]
      omega
  split at h
  · cases h
  · obtain rfl := Except.ok.inj h
    refine .inr (isDecimal_digits _ ?_ Nat.and_le_right)
    have hlt : fromLe ((payload.drop 2).take 2) < 256 ^ 2 :=
      (fromLe_lt _).trans_le (Nat.pow_le_pow_right (by decide) (List.length_take_le 2 _))
    exact fromTwos_lt hlt

/-! ## Parsing a decimal text -/

theorem not_isWhitespace_of_isDigit {c : Char} (h : c.isDigit) : isWhitespace c = false := by
  obtain ⟨hlo, hhi⟩ := Char.isDigit_iff_toNat.mp h
  simp at hlo hhi
  simp [isWhitespace]
  omega

theorem toLower_of_isDigit {c : Char} (h : c.isDigit) : c.toLower = c := by
  obtain ⟨-, hhi⟩ := Char.isDigit_iff_toNat.mp h
  refine dif_neg ?_
  rintro ⟨hupper, -⟩
  exact absurd (UInt32.le_iff_toNat_le.mp hupper) (Nat.not_le.mpr (Nat.lt_of_le_of_lt hhi (by decide)))

/-- Without whitespace at its ends, nothing is trimmed. -/
theorem trimChars_eq_self {cs : List Char} (h : ∀ c ∈ cs, isWhitespace c = false) : trimChars cs = cs := by
  have hdrop : ∀ {ds : List Char}, (∀ c ∈ ds, isWhitespace c = false) → ds.dropWhile isWhitespace = ds := by
    intro ds hds
    cases ds with
    | nil => rfl
    | cons d ds => rw [List.dropWhile_cons_of_neg (by simp [hds d List.mem_cons_self])]
  rw [trimChars, hdrop h, hdrop (fun c hc => h c (List.mem_reverse.mp hc)), List.reverse_reverse]

/-- A minus sign where there is one. -/
def signed (neg : Bool) (cs : List Char) : List Char := (if neg then ['-'] else []) ++ cs

/-- The digits behind a point, which stands only before some. -/
def fraction (frac : List Char) : List Char := if frac = [] then [] else '.' :: frac

section Literal

variable {neg : Bool} {d : Char} {rest int frac : List Char}

theorem ne_of_isDigit (hd : d.isDigit) {c : Char} (hc : c.isDigit = false) : d ≠ c := by
  rintro rfl
  rw [hc] at hd
  cases hd

/-- No name of a special value has a digit at its beginning or behind its sign. -/
theorem signed_not_special (hd : d.isDigit) :
    (signed neg (d :: rest)).map Char.toLower ≠ "nan".toList ∧
      (signed neg (d :: rest)).map Char.toLower ∉ ["infinity", "inf", "+infinity", "+inf"].map String.toList ∧
      (signed neg (d :: rest)).map Char.toLower ∉ ["-infinity", "-inf"].map String.toList := by
  have hlower : (signed neg (d :: rest)).map Char.toLower = signed neg (d :: rest.map Char.toLower) := by
    rw [signed, List.map_append, List.map_cons, toLower_of_isDigit hd]
    cases neg <;> rfl
  have hn := ne_of_isDigit hd (show 'n'.isDigit = false by rfl)
  have hi := ne_of_isDigit hd (show 'i'.isDigit = false by rfl)
  have hplus := ne_of_isDigit hd (show '+'.isDigit = false by rfl)
  have hminus := ne_of_isDigit hd (show '-'.isDigit = false by rfl)
  rw [hlower]
  refine ⟨?_, ?_, ?_⟩ <;> cases neg <;> simp [signed, hn, hi, hplus, hminus]

theorem signed_head (hd : d.isDigit) : decide ((signed neg (d :: rest)).head? = some '-') = neg := by
  have hminus := ne_of_isDigit hd (show '-'.isDigit = false by rfl)
  cases neg <;> simp [signed, hminus]

/-- The sign is taken off. -/
theorem signed_body (hd : d.isDigit) :
    (if (signed neg (d :: rest)).head? = some '-' ∨ (signed neg (d :: rest)).head? = some '+' then
      (signed neg (d :: rest)).tail else signed neg (d :: rest)) = d :: rest := by
  have hplus := ne_of_isDigit hd (show '+'.isDigit = false by rfl)
  have hminus := ne_of_isDigit hd (show '-'.isDigit = false by rfl)
  cases neg <;> simp [signed, hplus, hminus]

theorem trimChars_signed (hint : ∀ c ∈ int, c.isDigit) (hfrac : ∀ c ∈ frac, c.isDigit) :
    trimChars (signed neg (int ++ fraction frac)) = signed neg (int ++ fraction frac) := by
  refine trimChars_eq_self fun c hc => ?_
  rcases List.mem_append.mp hc with hc | hc
  · cases neg with
    | false => cases hc
    | true =>
      obtain rfl := List.mem_singleton.mp hc
      rfl
  rcases List.mem_append.mp hc with hc | hc
  · exact not_isWhitespace_of_isDigit (hint c hc)
  · rw [fraction] at hc
    split at hc
    · cases hc
    · rcases List.mem_cons.mp hc with rfl | hc
      · rfl
      · exact not_isWhitespace_of_isDigit (hfrac c hc)

theorem takeWhile_point (hint : ∀ c ∈ int, c.isDigit) : (int ++ fraction frac).takeWhile (· ≠ '.') = int := by
  have hpoint : ∀ c ∈ int, decide (c ≠ '.') = true :=
    fun c hc => decide_eq_true (ne_of_isDigit (hint c hc) rfl)
  rw [List.takeWhile_append_of_pos hpoint, fraction]
  by_cases hnil : frac = [] <;> simp [hnil]

theorem drop_point (int frac : List Char) : (int ++ fraction frac).drop (int.length + 1) = frac := by
  rw [← List.drop_drop, List.drop_left' rfl, fraction]
  by_cases hnil : frac = [] <;> simp [hnil]

/-- A sign, digits, and digits behind a point are taken apart. -/
theorem numericFromString_digits {s : String} (hs : s.toList = signed neg (int ++ fraction frac))
    (hne : int ≠ []) (hint : ∀ c ∈ int, c.isDigit) (hfrac : ∀ c ∈ frac, c.isDigit) :
    numericFromString s = .ok (numericBytes neg int frac) := by
  have htrim := @trimChars_signed neg int frac hint hfrac
  have htake := @takeWhile_point int frac hint
  have hdrop := drop_point int frac
  have hvalid : ¬ ((int = [] ∧ frac = []) ∨ ¬ int.all Char.isDigit ∨ ¬ frac.all Char.isDigit) := by
    have h₁ : int.all Char.isDigit := List.all_eq_true.mpr hint
    have h₂ : frac.all Char.isDigit := List.all_eq_true.mpr hfrac
    simp [hne, h₁, h₂]
  obtain ⟨d, ds, rfl⟩ := List.exists_cons_of_ne_nil hne
  have hd : d.isDigit := hint d List.mem_cons_self
  rw [List.cons_append] at htrim htake hdrop hs
  obtain ⟨hnan, hinf, hninf⟩ := @signed_not_special neg d (ds ++ fraction frac) hd
  unfold numericFromString
  rw [hs, htrim]
  dsimp only
  rw [if_neg hnan, if_neg hinf, if_neg hninf]
  simp only [signed_body hd, htake, hdrop, if_neg hvalid, signed_head hd]

end Literal

/-! ## Groups of digits -/

theorem positional_digitGroups {k : Nat} {cs : List Char} (hlen : cs.length = 4 * k) (w : Int) :
    positional 10000 w (digitGroups k cs) = (Nat.ofDigitChars 10 cs 0 : ℚ) * (10000 : ℚ) ^ (w - k + 1) := by
  induction k generalizing cs w with
  | zero =>
    have hnil : cs = [] := List.length_eq_zero_iff.mp (by omega)
    simp [digitGroups, hnil]
  | succ k ih =>
    have hrest : (cs.drop 4).length = 4 * k := by
      rw [List.length_drop]
      omega
    have hvalue : Nat.ofDigitChars 10 cs 0 =
        10000 ^ k * Nat.ofDigitChars 10 (cs.take 4) 0 + Nat.ofDigitChars 10 (cs.drop 4) 0 := by
      conv_lhs => rw [← List.take_append_drop 4 cs]
      rw [Nat.ofDigitChars_append, Nat.ofDigitChars_eq_ofDigitChars_zero, hrest, pow_mul]
      rfl
    have hpow : (10000 : ℚ) ^ w = (10000 : ℚ) ^ (w - k) * (10000 : ℚ) ^ k := by
      rw [← zpow_natCast, ← zpow_add₀ (by norm_num), sub_add_cancel]
    have hexp : w - ((k + 1 : Nat) : Int) + 1 = w - k := by push_cast; ring
    have hexp' : w - 1 - (k : Int) + 1 = w - k := by ring
    rw [digitGroups, positional_cons, ih hrest, hvalue, hexp, hexp', Nat.cast_ofNat, hpow]
    push_cast
    ring

theorem mem_digitGroups_lt {k : Nat} {cs : List Char} (h : ∀ c ∈ cs, c.isDigit) {d : Nat}
    (hd : d ∈ digitGroups k cs) : d < 10000 := by
  induction k generalizing cs with
  | zero => cases hd
  | succ k ih =>
    rcases List.mem_cons.mp hd with rfl | hd
    · have hlt : Nat.ofDigitChars 10 (cs.take 4) 0 < 10 ^ (cs.take 4).length :=
        ofDigitChars_lt fun c hc => h c (List.mem_of_mem_take hc)
      exact hlt.trans_le (Nat.pow_le_pow_right (by decide) (List.length_take_le 4 cs))
    · exact ih (fun c hc => h c (List.mem_of_mem_drop hc)) hd

/-- The groups that are dropped from the front are zero, and never all of them. -/
theorem stripLeading_eq (ds : List Nat) (w : Int) :
    ∃ k, ds = List.replicate k 0 ++ (stripLeading ds w).1 ∧ (stripLeading ds w).2 = w - k ∧
      (ds = [] ∨ k < ds.length) := by
  fun_induction stripLeading ds w with
  | case1 w d ds ih =>
    obtain ⟨k, hds, hw, hlt⟩ := ih
    refine ⟨k + 1, ?_, ?_, .inr ?_⟩
    · rw [List.replicate_succ, List.cons_append, ← hds]
    · rw [hw]
      push_cast
      ring
    · rcases hlt with hnil | hlt
      · cases hnil
      · simp only [List.length_cons] at hlt ⊢
        omega
  | case2 ds w h =>
    refine ⟨0, rfl, by simp, ?_⟩
    cases ds with
    | nil => exact .inl rfl
    | cons d ds => exact .inr (Nat.succ_pos _)

theorem stripTrailing_eq (ds : List Nat) : ∃ k, ds = stripTrailing ds ++ List.replicate k 0 := by
  obtain ⟨k, hds, -, -⟩ := stripLeading_eq ds.reverse 0
  refine ⟨k, ?_⟩
  rw [stripTrailing, ← List.reverse_replicate, ← List.reverse_append, ← hds, List.reverse_reverse]

/-- A zero is left in front only where it is the last group. -/
theorem stripLeading_head (ds : List Nat) (w : Int) (h : (stripLeading ds w).1.head? = some 0) :
    (stripLeading ds w).1 = [0] := by
  fun_induction stripLeading ds w with
  | case1 w d ds ih => exact ih h
  | case2 ds w hstop =>
    cases ds with
    | nil => cases h
    | cons d ds =>
      obtain rfl := Option.some.inj h
      cases ds with
      | nil => rfl
      | cons d' ds => exact (hstop d' ds rfl).elim

/-- What is left of the groups has no zeros that could go, or is a zero. -/
theorem stripped_reduced (ds : List Nat) (w : Int) :
    stripTrailing (stripLeading ds w).1 = [0] ∨ Reduced (stripTrailing (stripLeading ds w).1) := by
  by_cases hlast : (stripTrailing (stripLeading ds w).1).getLast? = some 0
  · left
    rw [stripTrailing, List.getLast?_reverse] at hlast
    rw [stripTrailing, stripLeading_head _ _ hlast]
    rfl
  by_cases hhead : (stripTrailing (stripLeading ds w).1).head? = some 0
  · left
    obtain ⟨k, hk⟩ := stripTrailing_eq (stripLeading ds w).1
    have hfront : (stripLeading ds w).1 = [0] := by
      apply stripLeading_head
      rw [hk, List.head?_append, hhead]
      rfl
    rw [hfront]
    rfl
  · exact .inr ⟨hhead, hlast⟩

@[simp] theorem digitGroups_length (k : Nat) (cs : List Char) : (digitGroups k cs).length = k := by
  induction k generalizing cs with
  | zero => rfl
  | succ k ih => rw [digitGroups, List.length_cons, ih]

/-- Dropping zero groups at both ends leaves the number. -/
theorem positional_stripped (ds : List Nat) (w : Int) :
    positional 10000 (stripLeading ds w).2 (stripTrailing (stripLeading ds w).1) = positional 10000 w ds := by
  obtain ⟨k, hlead, hweight, -⟩ := stripLeading_eq ds w
  obtain ⟨m, htrail⟩ := stripTrailing_eq (stripLeading ds w).1
  calc positional 10000 (stripLeading ds w).2 (stripTrailing (stripLeading ds w).1)
      = positional 10000 (stripLeading ds w).2 (stripLeading ds w).1 := by
        rw [← positional_append_zeros _ _ m, ← htrail]
    _ = positional 10000 w ds := by
        rw [hweight, ← positional_zeros_append, ← hlead]

/-- The groups of a literal that is padded with zeros to whole groups on both sides of the point. -/
theorem positional_padded {int frac : List Char} {p q i n : Nat} (hi : p + int.length = 4 * i)
    (hn : frac.length + q = 4 * n) :
    positional 10000 (i - 1) (digitGroups (i + n) (List.replicate p '0' ++ int ++ frac ++ List.replicate q '0')) *
      (10 : ℚ) ^ frac.length = Nat.ofDigitChars 10 (int ++ frac) 0 := by
  have hlen : (List.replicate p '0' ++ int ++ frac ++ List.replicate q '0').length = 4 * (i + n) := by
    simp only [List.length_append, List.length_replicate]
    omega
  have hvalue : Nat.ofDigitChars 10 (List.replicate p '0' ++ int ++ frac ++ List.replicate q '0') 0 =
      10 ^ q * Nat.ofDigitChars 10 (int ++ frac) 0 := by
    simp only [Nat.ofDigitChars_append, Nat.ofDigitChars_replicate_zero, Nat.mul_zero]
  have hexp : (i : Int) - 1 - (i + n : Nat) + 1 = -(n : Int) := by
    push_cast
    ring
  have hpow : (10 : ℚ) ^ q * (10 : ℚ) ^ frac.length = (10000 : ℚ) ^ n := by
    rw [← pow_add, Nat.add_comm, hn, pow_mul]
    norm_num
  rw [positional_digitGroups hlen, hvalue, hexp, zpow_neg, zpow_natCast, Nat.cast_mul, Nat.cast_pow, Nat.cast_ofNat]
  calc (10 : ℚ) ^ q * (Nat.ofDigitChars 10 (int ++ frac) 0 : ℚ) * ((10000 : ℚ) ^ n)⁻¹ * 10 ^ frac.length
      = (Nat.ofDigitChars 10 (int ++ frac) 0 : ℚ) * ((10 : ℚ) ^ q * 10 ^ frac.length * ((10000 : ℚ) ^ n)⁻¹) := by
        ring
    _ = Nat.ofDigitChars 10 (int ++ frac) 0 := by
        rw [hpow, mul_inv_cancel₀ (by positivity), mul_one]

theorem isDigit_padded {int frac : List Char} (hint : ∀ c ∈ int, c.isDigit) (hfrac : ∀ c ∈ frac, c.isDigit)
    (p q : Nat) : ∀ c ∈ List.replicate p '0' ++ int ++ frac ++ List.replicate q '0', c.isDigit := by
  have hzero : ∀ n, ∀ c ∈ List.replicate n '0', c.isDigit := by
    intro n c hc
    rw [(List.mem_replicate.mp hc).2]
    decide
  intro c hc
  simp only [List.mem_append] at hc
  rcases hc with ((hc | hc) | hc) | hc
  · exact hzero p c hc
  · exact hint c hc
  · exact hfrac c hc
  · exact hzero q c hc

/-- The groups and the weight that are written for a literal. -/
theorem exists_groups {int frac : List Char} (hint : ∀ c ∈ int, c.isDigit) (hfrac : ∀ c ∈ frac, c.isDigit)
    (hne : int ≠ []) :
    ∃ (digits : List Nat) (weight : Int),
      (∀ neg, numericBytes neg int frac =
        if digits.all (· = 0) then toLe 2 (0 ||| (frac.length % 2 ^ 16 &&& 0x3FFF)) ++ (toLe 2 (toTwos 16 0) ++ [])
        else toLe 2 ((if neg then 0x4000 else 0) ||| (frac.length % 2 ^ 16 &&& 0x3FFF)) ++
          (toLe 2 (toTwos 16 weight) ++ digits.flatMap (toLe 2))) ∧
      (digits = [0] ∨ Reduced digits) ∧ (∀ d ∈ digits, d < 10000) ∧
      -((frac.length : Int) + 4) ≤ 4 * weight ∧ 4 * weight < int.length ∧
      positional 10000 weight digits * (10 : ℚ) ^ frac.length = Nat.ofDigitChars 10 (int ++ frac) 0 := by
  let intPad := (4 - int.length % 4) % 4
  let fracPad := (4 - frac.length % 4) % 4
  let combined := List.replicate intPad '0' ++ int ++ frac ++ List.replicate fracPad '0'
  let groups := digitGroups (combined.length / 4) combined
  let first : Int := (intPad + int.length : Nat) / 4 - 1
  have hpos : 0 < int.length := List.length_pos_iff.mpr hne
  have hlen : combined.length = intPad + int.length + frac.length + fracPad := by
    simp only [combined, List.length_append, List.length_replicate]
  have hpads : (intPad + int.length) % 4 = 0 ∧ (frac.length + fracPad) % 4 = 0 ∧ intPad < 4 ∧ fracPad < 4 := by
    simp only [intPad, fracPad]
    omega
  obtain ⟨k, hlead, hweight, hk⟩ := stripLeading_eq groups first
  obtain ⟨m, htrail⟩ := stripTrailing_eq (stripLeading groups first).1
  have hk' : k < combined.length / 4 := by
    rcases hk with hnil | hk
    · have hcount := congrArg List.length hnil
      rw [digitGroups_length, List.length_nil] at hcount
      omega
    · rwa [digitGroups_length] at hk
  refine ⟨stripTrailing (stripLeading groups first).1, (stripLeading groups first).2, ?_, stripped_reduced groups first,
    ?_, ?_, ?_, ?_⟩
  · intro neg
    show numericBytes neg int frac = _
    unfold numericBytes
    dsimp only
    split <;> rfl
  · intro d hd
    have hmem : d ∈ groups := by
      rw [hlead, htrail]
      simp [hd]
    exact mem_digitGroups_lt (isDigit_padded hint hfrac intPad fracPad) hmem
  · rw [hweight]
    omega
  · rw [hweight]
    omega
  · obtain ⟨i, hi⟩ : ∃ i, intPad + int.length = 4 * i := ⟨(intPad + int.length) / 4, by omega⟩
    obtain ⟨n, hn⟩ : ∃ n, frac.length + fracPad = 4 * n := ⟨(frac.length + fracPad) / 4, by omega⟩
    have hfirst : first = i - 1 := by
      simp only [first]
      omega
    have hgroups : groups = digitGroups (i + n) combined := by
      simp only [groups]
      rw [show combined.length / 4 = i + n by omega]
    rw [positional_stripped, hfirst, hgroups]
    exact positional_padded hi hn

/-! ## Reading back -/

/-- A zero with a sign, such as "-0.00". -/
def IsNegZero (t : String) : Prop := ∃ scale, t = decimalText true 0 scale

theorem positional_all_zero {digits : List Nat} (h : digits.all (· = 0)) (w : Int) : positional 10000 w digits = 0 := by
  have hrep : digits = List.replicate digits.length 0 := by
    refine List.eq_replicate_iff.mpr ⟨rfl, fun d hd => ?_⟩
    simpa using List.all_eq_true.mp h d hd
  have hzero := positional_append_zeros (b := 10000) w [] digits.length
  rwa [List.nil_append, ← hrep, positional_nil] at hzero

theorem isDigit_toDigits (n : Nat) : ∀ c ∈ Nat.toDigits 10 n, c.isDigit :=
  fun _ hc => Nat.isDigit_of_mem_toDigits (by decide) (by decide) hc

theorem isDigit_fixedDigits (scale x : Nat) : ∀ c ∈ fixedDigits scale x, c.isDigit :=
  fun _ hc => isDigit_of_mem_fixedDigits hc

/-- As the server keeps a number: no zeros that could go, no sign on a zero, and no digits behind the scale. -/
structure Numeric.Reduced (n : Numeric) : Prop where
  ends : Decimal.Reduced n.digits
  zero : n.digits = [] → n.weight = 0 ∧ n.neg = false
  scaled : ∃ x : Nat, n.magnitude * 10 ^ n.dscale = x

theorem scale_mask {scale : Nat} (hscale : scale ≤ 16383) : scale % 2 ^ 16 &&& 0x3FFF = scale := by
  rw [show 0x3FFF = (2 ^ 14 - 1) * 2 ^ 0 by rfl, and_mask]
  omega

theorem sign_header (neg : Bool) {scale : Nat} (hscale : scale ≤ 16383) :
    0x4000 * neg.toNat + scale = (if neg then 0x4000 else 0) ||| scale := by
  cases neg with
  | false => simp
  | true =>
    rw [if_pos rfl, show 0x4000 = 1 <<< 14 by rfl, ← Nat.shiftLeft_add_eq_or_of_lt (by omega)]
    rfl

/-- The groups that are written for a decimal text. -/
theorem exists_decimal_groups (x : Nat) {scale : Nat} (hscale : scale ≤ 16383) :
    ∃ (digits : List Nat) (weight : Int),
      (∀ neg, numericBytes neg (Nat.toDigits 10 (x / 10 ^ scale)) (fixedDigits scale x) =
        if digits.all (· = 0) then toLe 2 scale ++ toLe 2 (toTwos 16 0)
        else toLe 2 (0x4000 * neg.toNat + scale) ++ (toLe 2 (toTwos 16 weight) ++ digits.flatMap (toLe 2))) ∧
      (digits = [0] ∨ Reduced digits) ∧ (∀ d ∈ digits, d < 10000) ∧ -((scale : Int) + 4) ≤ 4 * weight ∧
      4 * weight < (Nat.toDigits 10 (x / 10 ^ scale)).length ∧
      positional 10000 weight digits * (10 : ℚ) ^ scale = x := by
  obtain ⟨digits, weight, hbytes, hred, hdigits, hlo, hhi, hvalue⟩ :=
    exists_groups (isDigit_toDigits (x / 10 ^ scale)) (isDigit_fixedDigits scale x) Nat.toDigits_ne_nil
  rw [Nat.ofDigitChars_append, Nat.ofDigitChars_ten_toDigits, ofDigitChars_fixedDigits, Nat.div_add_mod,
    fixedDigits_length] at hvalue
  rw [fixedDigits_length] at hlo hbytes
  rw [scale_mask hscale] at hbytes
  refine ⟨digits, weight, ?_, hred, hdigits, hlo, hhi, hvalue⟩
  intro neg
  rw [hbytes, Nat.zero_or, List.append_nil, sign_header neg hscale]

theorem reduced_of_not_zero {digits : List Nat} (hred : digits = [0] ∨ Reduced digits)
    (hall : ¬ digits.all (· = 0) = true) : Reduced digits ∧ digits ≠ [] := by
  constructor
  · refine hred.resolve_left ?_
    rintro rfl
    exact hall rfl
  · rintro rfl
    exact hall rfl

/-- The bytes of a decimal text are the long form of a numeric with that text. -/
theorem numericBytes_longForm {neg : Bool} {x scale : Nat} (hscale : scale ≤ 16383)
    (hint : (Nat.toDigits 10 (x / 10 ^ scale)).length ≤ 131072)
    (hlen : (numericBytes neg (Nat.toDigits 10 (x / 10 ^ scale)) (fixedDigits scale x)).length ≤ 126) :
    ∃ n : Numeric, n.Reduced ∧
      n.longForm = numericBytes neg (Nat.toDigits 10 (x / 10 ^ scale)) (fixedDigits scale x) ∧
      ((x = 0 → neg = false) → n.text = decimalText neg x scale) := by
  obtain ⟨digits, weight, hbytes, hred, hdigits, hlo, hhi, hvalue⟩ := exists_decimal_groups x hscale
  rw [hbytes] at hlen ⊢
  by_cases hall : digits.all (· = 0) = true
  · have hx : x = 0 := by
      rw [positional_all_zero hall, zero_mul] at hvalue
      exact_mod_cast hvalue.symm
    let n : Numeric := {
      neg := false, weight := 0, dscale := scale, digits := []
      weight_ge := by decide, weight_lt := by decide, dscale_le := hscale
      digits_length := by decide, digits_lt := by simp }
    have hzero : n.magnitude * 10 ^ n.dscale = (0 : Nat) := by simp [Numeric.magnitude, n]
    refine ⟨n, ⟨⟨by simp [n], by simp [n]⟩, fun _ => ⟨rfl, rfl⟩, ⟨0, hzero⟩⟩, ?_, ?_⟩
    · rw [if_pos hall]
      simp [Numeric.longForm, n]
    · intro hneg
      rw [hneg hx, hx, Numeric.text, hzero, Nat.floor_natCast]
  · rw [if_neg hall] at hlen
    have hcount : digits.length ≤ 32767 := by
      simp only [List.length_append, toLe_length, flatMap_toLe_length] at hlen
      omega
    let n : Numeric := {
      neg, weight, dscale := scale, digits
      weight_ge := by omega, weight_lt := by omega, dscale_le := hscale
      digits_length := hcount, digits_lt := hdigits }
    have hmagnitude : n.magnitude * 10 ^ n.dscale = x := hvalue
    obtain ⟨hends, hne⟩ := reduced_of_not_zero hred hall
    refine ⟨n, ⟨hends, fun hnil => absurd hnil hne, x, hmagnitude⟩, ?_, ?_⟩
    · rw [if_neg hall]
      rfl
    · intro _
      rw [Numeric.text, hmagnitude, Nat.floor_natCast]

theorem numericFromString_special (s : NumericSpecial) : numericFromString s.text = .ok (toLe 2 s.header) := by
  cases s <;> decide +kernel

theorem numericFromString_decimal (neg : Bool) (x scale : Nat) :
    numericFromString (decimalText neg x scale) =
      .ok (numericBytes neg (Nat.toDigits 10 (x / 10 ^ scale)) (fixedDigits scale x)) := by
  have htext : (decimalText neg x scale).toList =
      signed neg (Nat.toDigits 10 (x / 10 ^ scale) ++ fraction (fixedDigits scale x)) := by
    rw [decimalText_toList, signed, fraction]
    cases scale <;> simp [fixedDigits]
  exact numericFromString_digits htext Nat.toDigits_ne_nil (isDigit_toDigits _) (isDigit_fixedDigits scale x)

/-- A reduced number is written in its long form. -/
theorem Numeric.Reduced.numericFromString {n : Numeric} (h : n.Reduced) : numericFromString n.text = .ok n.longForm := by
  obtain ⟨x, hx⟩ := h.scaled
  rw [Numeric.text, hx, Nat.floor_natCast, numericFromString_decimal]
  obtain ⟨digits, weight, hbytes, hred, hdigits, -, -, hvalue⟩ := exists_decimal_groups x n.dscale_le
  have hsame : positional 10000 weight digits = positional 10000 n.weight n.digits := by
    refine mul_right_cancel₀ (b := (10 : ℚ) ^ n.dscale) (by positivity) ?_
    rw [hvalue, ← hx]
    rfl
  rw [hbytes]
  by_cases hall : digits.all (· = 0) = true
  · have hzero : positional 10000 n.weight n.digits = positional 10000 0 [] := by
      rw [← hsame, positional_all_zero hall, positional_nil]
    have hnil : n.digits = [] :=
      (positional_unique (by decide) n.digits_lt (by simp) h.ends ⟨by simp, by simp⟩ hzero).1
    obtain ⟨hweight, hneg⟩ := h.zero hnil
    rw [if_pos hall, Numeric.longForm, hnil, hweight, hneg]
    simp
  · obtain ⟨hends, hne⟩ := reduced_of_not_zero hred hall
    obtain ⟨rfl, hweight⟩ := positional_unique (by decide) hdigits n.digits_lt hends h.ends hsame
    rw [if_neg hall, hweight hne]
    rfl

/-- A text that is printed is written as the header of a special value, or in the long form of a reduced number. -/
theorem numericFromString_printed {payload bytes : Bytes} {t : String} (hprinted : numericToString payload = .ok t)
    (h : numericFromString t = .ok bytes) (hlen : bytes.length ≤ 126) :
    (∃ s : NumericSpecial, s.text = t ∧ toLe 2 s.header = bytes) ∨
      ∃ n : Numeric, n.Reduced ∧ n.longForm = bytes ∧ (¬ IsNegZero t → n.text = t) := by
  rcases numericToString_ok hprinted with ⟨s, rfl⟩ | ⟨neg, x, scale, rfl, hscale, hint⟩
  · rw [numericFromString_special] at h
    exact .inl ⟨s, rfl, Except.ok.inj h⟩
  · rw [numericFromString_decimal] at h
    obtain rfl := Except.ok.inj h
    obtain ⟨n, hred, hform, htext⟩ := numericBytes_longForm hscale hint hlen
    refine .inr ⟨n, hred, hform, ?_⟩
    intro hneg
    apply htext
    rintro rfl
    cases neg with
    | false => rfl
    | true => exact absurd ⟨scale, rfl⟩ hneg

end Ltap
