-- SUMMARY: UTF-8 decoding with replacement characters, and that it inverts the encoding.
import Mathlib.Tactic.Common

/-!
# UTF-8

Lossy decoding takes a byte string apart character by character. Where no character
starts, the longest piece that could have begun one is replaced by U+FFFD.
-/

namespace Utf8

/-- A continuation byte. -/
def IsCont (b : Nat) : Prop := 0x80 ≤ b ∧ b ≤ 0xBF

instance (b : Nat) : Decidable (IsCont b) := inferInstanceAs (Decidable (_ ∧ _))

/-- The first character of a byte string, from its first four bytes (zero past the end), and
how many bytes it takes; `none` is a replacement. -/
def first (b₀ b₁ b₂ b₃ : Nat) : Option Char × Nat :=
  if b₀ < 0x80 then (some (Char.ofNat b₀), 1)
  else if 0xC2 ≤ b₀ ∧ b₀ ≤ 0xDF then
    if IsCont b₁ then (some (Char.ofNat ((b₀ - 0xC0) * 0x40 + (b₁ - 0x80))), 2) else (none, 1)
  else if 0xE0 ≤ b₀ ∧ b₀ ≤ 0xEF then
    -- Neither an overlong form nor a surrogate.
    if IsCont b₁ ∧ (b₀ = 0xE0 → 0xA0 ≤ b₁) ∧ (b₀ = 0xED → b₁ ≤ 0x9F) then
      if IsCont b₂ then
        (some (Char.ofNat ((b₀ - 0xE0) * 0x1000 + (b₁ - 0x80) * 0x40 + (b₂ - 0x80))), 3)
      else (none, 2)
    else (none, 1)
  else if 0xF0 ≤ b₀ ∧ b₀ ≤ 0xF4 then
    if IsCont b₁ ∧ (b₀ = 0xF0 → 0x90 ≤ b₁) ∧ (b₀ = 0xF4 → b₁ ≤ 0x8F) then
      if IsCont b₂ then
        if IsCont b₃ then
          (some (Char.ofNat ((b₀ - 0xF0) * 0x40000 + (b₁ - 0x80) * 0x1000 + (b₂ - 0x80) * 0x40 +
            (b₃ - 0x80))), 4)
        else (none, 3)
      else (none, 2)
    else (none, 1)
  else (none, 1)

/-- The characters of a byte string. Each takes at least a byte, so the number of bytes
bounds the turns. -/
def chars : Nat → List UInt8 → List Char
  | 0, _ => []
  | _ + 1, [] => []
  | fuel + 1, b :: bs =>
    let (c, n) := first b.toNat (bs.getD 0 0).toNat (bs.getD 1 0).toNat (bs.getD 2 0).toNat
    c.getD (Char.ofNat 0xFFFD) :: chars fuel ((b :: bs).drop n)

/-- `String::from_utf8_lossy`. -/
def lossy (bs : List UInt8) : String := String.ofList (chars bs.length bs)

def encode (s : String) : List UInt8 := s.toList.flatMap String.utf8EncodeChar

theorem char_lt (c : Char) : c.val.toNat < 0xD800 ∨ 0xDFFF < c.val.toNat ∧ c.val.toNat < 0x110000 :=
  c.valid

theorem ofNat_of_eq {c : Char} {n : Nat} (h : n = c.val.toNat) : Char.ofNat n = c := by
  rw [h]
  exact Char.ofNat_toNat c

theorem encode_first (c : Char) (rest : List UInt8) :
    ∃ b bs, String.utf8EncodeChar c ++ rest = b :: bs ∧
      first b.toNat (bs.getD 0 0).toNat (bs.getD 1 0).toNat (bs.getD 2 0).toNat =
        (some c, (String.utf8EncodeChar c).length) := by
  have hvalid := char_lt c
  have hlit : ∀ n, n < 256 → (UInt8.ofNat n).toNat = n := by
    intro n hn
    rw [UInt8.toNat_ofNat']
    omega
  unfold String.utf8EncodeChar
  generalize hv : c.val.toNat = v at hvalid
  dsimp only
  have hchar : ∀ n, n = v → Char.ofNat n = c := fun n hn => ofNat_of_eq (hn.trans hv.symm)
  split
  · refine ⟨_, _, List.cons_append, ?_⟩
    rw [hlit _ (by omega), first, if_pos (by omega), hchar _ rfl]
    rfl
  split
  · refine ⟨_, _, List.cons_append, ?_⟩
    have h₀ := hlit (v / 64 % 0x20 + 0xc0) (by omega)
    have h₁ := hlit (v % 0x40 + 0x80) (by omega)
    simp only [List.cons_append, List.getD_cons_zero, h₀, h₁]
    rw [first, if_neg (by omega), if_pos (by omega), if_pos (by unfold IsCont; omega),
      hchar _ (by omega)]
    rfl
  split
  · refine ⟨_, _, List.cons_append, ?_⟩
    have h₀ := hlit (v / 4096 % 0x10 + 0xe0) (by omega)
    have h₁ := hlit (v / 64 % 0x40 + 0x80) (by omega)
    have h₂ := hlit (v % 0x40 + 0x80) (by omega)
    simp only [List.cons_append, List.getD_cons_zero, List.getD_cons_succ, h₀, h₁, h₂]
    rw [first, if_neg (by omega), if_neg (by omega), if_pos (by omega),
      if_pos (by unfold IsCont; omega), if_pos (by unfold IsCont; omega), hchar _ (by omega)]
    rfl
  · refine ⟨_, _, List.cons_append, ?_⟩
    have h₀ := hlit (v / 262144 % 0x08 + 0xf0) (by omega)
    have h₁ := hlit (v / 4096 % 0x40 + 0x80) (by omega)
    have h₂ := hlit (v / 64 % 0x40 + 0x80) (by omega)
    have h₃ := hlit (v % 0x40 + 0x80) (by omega)
    simp only [List.cons_append, List.getD_cons_zero, List.getD_cons_succ, h₀, h₁, h₂, h₃]
    rw [first, if_neg (by omega), if_neg (by omega), if_neg (by omega), if_pos (by omega),
      if_pos (by unfold IsCont; omega), if_pos (by unfold IsCont; omega),
      if_pos (by unfold IsCont; omega), hchar _ (by omega)]
    rfl

theorem chars_encode (cs : List Char) :
    ∀ fuel, (cs.flatMap String.utf8EncodeChar).length ≤ fuel →
      chars fuel (cs.flatMap String.utf8EncodeChar) = cs := by
  induction cs with
  | nil => intro fuel _; cases fuel <;> rfl
  | cons c cs ih =>
    intro fuel hfuel
    obtain ⟨b, bs, hsplit, hfirst⟩ := encode_first c (cs.flatMap String.utf8EncodeChar)
    have hpos : 0 < (String.utf8EncodeChar c).length := by
      rw [String.length_utf8EncodeChar]
      exact c.utf8Size_pos
    rw [List.flatMap_cons, List.length_append] at hfuel
    obtain ⟨fuel, rfl⟩ : ∃ m, fuel = m + 1 := ⟨fuel - 1, by omega⟩
    rw [List.flatMap_cons, hsplit, chars, hfirst, ← hsplit]
    simp only [Option.getD_some, List.drop_left]
    rw [ih fuel (by omega)]

/-- Encoded text in front of anything is read as itself. -/
theorem chars_encode_append (cs : List Char) (rest : List UInt8) :
    ∀ fuel, (cs.flatMap String.utf8EncodeChar).length ≤ fuel →
      ∃ more, chars fuel (cs.flatMap String.utf8EncodeChar ++ rest) = cs ++ chars more rest := by
  induction cs with
  | nil => exact fun fuel _ => ⟨fuel, rfl⟩
  | cons c cs ih =>
    intro fuel hfuel
    obtain ⟨b, bs, hsplit, hfirst⟩ := encode_first c (cs.flatMap String.utf8EncodeChar ++ rest)
    have hpos : 0 < (String.utf8EncodeChar c).length := by
      rw [String.length_utf8EncodeChar]
      exact c.utf8Size_pos
    rw [List.flatMap_cons, List.length_append] at hfuel
    obtain ⟨fuel, rfl⟩ : ∃ m, fuel = m + 1 := ⟨fuel - 1, by omega⟩
    obtain ⟨more, hmore⟩ := ih fuel (by omega)
    refine ⟨more, ?_⟩
    rw [List.flatMap_cons, List.append_assoc, hsplit, chars, hfirst, ← hsplit]
    simp only [Option.getD_some, List.drop_left, hmore, List.cons_append]

theorem lossy_encode_append (s : String) (rest : List UInt8) :
    ∃ cs, lossy (encode s ++ rest) = String.ofList (s.toList ++ cs) := by
  obtain ⟨more, hmore⟩ := chars_encode_append s.toList rest (encode s ++ rest).length
    (by rw [List.length_append]; exact Nat.le_add_right _ _)
  exact ⟨chars more rest, congrArg String.ofList hmore⟩

/-- An ASCII byte in encoded text is a character of its own. -/
theorem mem_encode_ascii {s : String} {b : UInt8} (hb : b ∈ encode s) (hascii : b.toNat < 0x80) :
    Char.ofNat b.toNat ∈ s.toList := by
  obtain ⟨c, hc, hb⟩ := List.mem_flatMap.mp hb
  have hchar : b.toNat = c.val.toNat := by
    unfold String.utf8EncodeChar at hb
    generalize c.val.toNat = v at hb ⊢
    dsimp only at hb
    have hlit : ∀ n, b = UInt8.ofNat n → b.toNat = n % 256 := by
      rintro n rfl
      exact UInt8.toNat_ofNat'
    split at hb
    · have := hlit v (List.mem_singleton.mp hb)
      omega
    split at hb
    · simp only [List.mem_cons, List.not_mem_nil, or_false] at hb
      rcases hb with hb | hb <;> have := hlit _ hb <;> omega
    split at hb
    · simp only [List.mem_cons, List.not_mem_nil, or_false] at hb
      rcases hb with hb | hb | hb <;> have := hlit _ hb <;> omega
    · simp only [List.mem_cons, List.not_mem_nil, or_false] at hb
      rcases hb with hb | hb | hb | hb <;> have := hlit _ hb <;> omega
  rw [ofNat_of_eq hchar]
  exact hc

theorem lossy_encode (s : String) : lossy (encode s) = s := by
  rw [lossy, encode, chars_encode s.toList _ (Nat.le_refl _), String.ofList_toList]

end Utf8
