-- SUMMARY: Decompression: pglz byte by byte, the other codecs as parameters, and the restoring of page images.
import Mathlib.Data.Nat.Bitwise
import OpenLtap.Wal.Framing
import OpenLtap.Wal.Heap

/-!
# Decompression

`pglz_decompress` of `wal/heap.rs` and `PageImage::restore` of `wal/mod.rs`. The
position in the source is the list of bytes still to read. The second half says what a
pglz stream is, independently of the decoder: a list of tokens that spells out the raw
bytes, packed in groups of eight behind a control byte.
-/

namespace Ltap

/-- How a decoder stops short: with an error it returns, or by a panic (an index out of
range or an overflow). -/
inductive Fault where
  | error (e : DecodeError)
  | panic
  deriving DecidableEq, Repr

/-- `bail!`. -/
def bail {α : Type} (what : String) : Except Fault α := .error (.error (.other what))

/-- `anyhow`'s `context`. -/
def withContext {α : Type} (what : String) : Except Fault α → Except Fault α
  | .error (.error (.other e)) => bail s!"{what}: {e}"
  | r => r

theorem bind_eq_ok {ε α β : Type} {x : Except ε α} {f : α → Except ε β} {b : β} :
    x >>= f = .ok b ↔ ∃ a, x = .ok a ∧ f a = .ok b := by
  cases x with
  | error e => simp [bind, Except.bind]
  | ok a => simp [bind, Except.bind]

/-- The decompressors of other crates: the source and the raw size. -/
structure Codecs where
  /-- `lz4_flex::block::decompress`. -/
  lz4 : Bytes → Nat → Except String Bytes
  /-- `zstd::bulk::decompress`. -/
  zstd : Bytes → Nat → Except String Bytes

/-! ## pglz -/

/-- Copy `len` bytes from `off` bytes back, at most up to the raw size. The copied bytes
may be ones the copy itself has written. -/
def pglzCopy (rawsize off : Nat) : Nat → Bytes → Bytes
  | 0, out => out
  | len + 1, out =>
    if out.length ≥ rawsize then out
    else pglzCopy rawsize off len (out ++ [out.getD (out.length - off) 0])

def pglzBackReference (rawsize : Nat) (src out : Bytes) : Except Fault (Bytes × Bytes) :=
  match src with
  | b₀ :: b₁ :: src =>
    let len := (b₀.toNat &&& 0x0F) + 3
    let off := ((b₀.toNat &&& 0xF0) <<< 4) ||| b₁.toNat
    if len = 18 ∧ src = [] then bail "pglz: truncated extended length"
    else
      let (len, src) := if len = 18 then (len + (src.headD 0).toNat, src.tail) else (len, src)
      if off = 0 ∨ off > out.length then
        bail s!"pglz: bad back-reference offset {off} at output {out.length}"
      else .ok (src, pglzCopy rawsize off len out)
  | _ => bail "pglz: truncated back-reference"

/-- The items a control byte governs, one for each bit still to look at. -/
def pglzItems (rawsize ctrl : Nat) : List Nat → Bytes → Bytes → Except Fault (Bytes × Bytes)
  | [], src, out => .ok (src, out)
  | bit :: bits, src, out =>
    if src = [] ∨ out.length ≥ rawsize then .ok (src, out)
    else if ctrl &&& (1 <<< bit) ≠ 0 then do
      let (src, out) ← pglzBackReference rawsize src out
      pglzItems rawsize ctrl bits src out
    else pglzItems rawsize ctrl bits src.tail (out ++ [src.headD 0])

/-- The outer loop. Every turn takes the control byte, so the number of bytes bounds the
turns. -/
def pglzLoop (rawsize : Nat) : Nat → Bytes → Bytes → Except Fault Bytes
  | 0, _, out => .ok out
  | fuel + 1, src, out =>
    match src with
    | [] => .ok out
    | ctrl :: src =>
      if out.length < rawsize then do
        let (src, out) ← pglzItems rawsize ctrl.toNat (List.range 8) src out
        pglzLoop rawsize fuel src out
      else .ok out

def pglzDecompress (src : Bytes) (rawsize : Nat) : Except Fault Bytes := do
  let out ← pglzLoop rawsize src.length src []
  if out.length ≠ rawsize then bail s!"pglz: expected {rawsize} bytes, produced {out.length}"
  else return out

theorem pglzDecompress_length {src out : Bytes} {rawsize : Nat}
    (h : pglzDecompress src rawsize = .ok out) : out.length = rawsize := by
  obtain ⟨out', -, hout⟩ := bind_eq_ok.mp h
  by_cases hlen : out'.length ≠ rawsize
  · rw [if_pos hlen] at hout
    cases hout
  · rw [if_neg hlen] at hout
    cases hout
    exact not_not.mp hlen

namespace Codecs

variable (z : Codecs)

def lz4Decompress (src : Bytes) (rawsize : Nat) : Except Fault Bytes :=
  match z.lz4 src rawsize with
  | .error e => bail s!"lz4 decompress: {e}"
  | .ok out =>
    if out.length ≠ rawsize then bail s!"lz4: expected {rawsize} bytes, produced {out.length}"
    else .ok out

/-- By the two-bit compression method of a datum. No vector has room for a raw size of
`2 ^ 63` or more. -/
def decompressDatum (method : Nat) (payload : Bytes) (rawsize : Nat) : Except Fault Bytes :=
  if method < 2 ∧ 2 ^ 63 ≤ rawsize then .error .panic
  else if method = 0 then pglzDecompress payload rawsize
  else if method = 1 then z.lz4Decompress payload rawsize
  else bail s!"unknown toast compression method {method}"

end Codecs

/-! ## Page images -/

/-- The bytes of a page image around its hole. -/
def PageImage.body (z : Codecs) (img : PageImage) : Except Fault Bytes :=
  let raw := xlogBlcksz - img.holeLen
  let method := img.bimgInfo &&& bkpimageCompressMask
  if method = 0 then .ok img.data
  else if method = 0x04 then pglzDecompress img.data raw
  else if method = 0x08 then z.lz4Decompress img.data raw
  else if method = 0x10 then
    match z.zstd img.data raw with
    | .error e => bail s!"zstd page image: {e}"
    | .ok out => .ok out
  else bail s!"unsupported page-image compression 0x{String.ofList (Nat.toDigits 16 method)}"

def PageImage.restore (z : Codecs) (img : PageImage) : Except Fault Bytes :=
  if xlogBlcksz < img.holeLen then .error .panic
  else do
    let body ← img.body z
    if body.length + img.holeLen ≠ xlogBlcksz ∨ img.holeOffset + img.holeLen > xlogBlcksz then
      bail s!"bad page image geometry: {body.length} bytes + {img.holeLen} hole"
    else
      return body.take img.holeOffset ++ List.replicate img.holeLen 0 ++ body.drop img.holeOffset

/-! ## Token streams -/

inductive PglzToken where
  | literal (b : UInt8)
  | copy (off len : Nat)
  deriving DecidableEq, Repr

namespace PglzToken

/-- How many raw bytes a token stands for. A copy that runs over the end is cut there. -/
def span (raw : Bytes) (pos : Nat) : PglzToken → Nat
  | .literal _ => 1
  | .copy _ len => min len (raw.length - pos)

/-- The token says what the raw bytes are from `pos` on. -/
def Says (raw : Bytes) (pos : Nat) : PglzToken → Prop
  | .literal b => raw[pos]? = some b
  | .copy off len =>
    0 < off ∧ off < 4096 ∧ 3 ≤ len ∧ len ≤ 273 ∧ off ≤ pos ∧ pos < raw.length ∧
      ∀ k < min len (raw.length - pos), raw[pos + k]? = raw[pos + k - off]?

/-- The control bit. -/
def bit : PglzToken → Bool
  | .literal _ => false
  | .copy _ _ => true

def bytes : PglzToken → Bytes
  | .literal b => [b]
  | .copy off len =>
    let tag := UInt8.ofNat (off / 256 * 16 + min (len - 3) 15)
    tag :: UInt8.ofNat (off % 256) :: (if len < 18 then [] else [UInt8.ofNat (len - 18)])

end PglzToken

/-- The tokens, one after the other, spell out the raw bytes from `pos` to the end. -/
def Spells (raw : Bytes) : Nat → List PglzToken → Prop
  | pos, [] => pos = raw.length
  | pos, t :: ts => t.Says raw pos ∧ Spells raw (pos + t.span raw pos) ts

/-- The control byte of a group of tokens, the first token in the lowest bit. -/
def pglzCtrl : List PglzToken → Nat
  | [] => 0
  | t :: ts => Nat.bit t.bit (pglzCtrl ts)

/-- A group: the control byte and its tokens. -/
def pglzGroup (ts : List PglzToken) : Bytes := UInt8.ofNat (pglzCtrl ts) :: ts.flatMap (·.bytes)

/-- Groups of eight tokens, the last one with what is left. -/
def pglzStream (ts : List PglzToken) : Bytes :=
  match ts with
  | [] => []
  | t :: ts => pglzGroup ((t :: ts).take 8) ++ pglzStream (ts.drop 7)
termination_by ts.length
decreasing_by simp only [List.length_drop, List.length_cons]; omega

/-! ## Decoding a stream -/

section Decoding

variable {raw : Bytes} {pos : Nat}

theorem PglzToken.Says.pos_lt {t : PglzToken} (h : t.Says raw pos) : pos < raw.length := by
  cases t with
  | literal b => exact (List.getElem?_eq_some_iff.mp h).1
  | copy off len => exact h.2.2.2.2.2.1

/-- One more raw byte. -/
theorem take_getD_snoc {i : Nat} (hpos : pos < raw.length) (hi : i < pos)
    (hbyte : raw[pos]? = raw[i]?) : raw.take pos ++ [(raw.take pos).getD i 0] = raw.take (pos + 1) := by
  have hget : (raw.take pos)[i]? = some raw[pos] := by
    rw [List.getElem?_take_of_lt hi, ← hbyte, List.getElem?_eq_getElem hpos]
  rw [List.getD_eq_getElem?_getD, hget, Option.getD_some, List.take_add_one,
    List.getElem?_eq_getElem hpos, Option.toList_some]

theorem pglzCopy_says {off : Nat} (hoff : 0 < off) :
    ∀ (len pos : Nat), off ≤ pos → pos ≤ raw.length →
      (∀ k < min len (raw.length - pos), raw[pos + k]? = raw[pos + k - off]?) →
      pglzCopy raw.length off len (raw.take pos) =
        raw.take (pos + min len (raw.length - pos)) := by
  intro len
  induction len with
  | zero => intro pos _ _ _; simp [pglzCopy]
  | succ len ih =>
    intro pos hle hpos hsame
    have hlen : (raw.take pos).length = pos := by simp [hpos]
    rw [pglzCopy, hlen]
    by_cases hend : raw.length ≤ pos
    · rw [if_pos hend, Nat.sub_eq_zero_of_le hend, Nat.min_zero, Nat.add_zero]
    · have hlt : pos < raw.length := Nat.lt_of_not_le hend
      have hbyte : raw[pos]? = raw[pos - off]? := by
        simpa using hsame 0 (by omega)
      rw [if_neg hend, take_getD_snoc hlt (by omega) hbyte, ih (pos + 1) (by omega) (by omega)]
      · congr 1
        omega
      · intro k hk
        have hstep := hsame (k + 1) (by omega)
        rwa [show pos + (k + 1) = pos + 1 + k by omega] at hstep

/-! ### Tokens -/

theorem low_nibble {x : Nat} (a : Nat) (hx : x < 16) : (a * 16 + x) &&& 0x0F = x := by
  rw [show (0x0F : Nat) = 2 ^ 4 - 1 by rfl, Nat.and_two_pow_sub_one_eq_mod]
  omega

theorem high_nibble : ∀ b < 256, (b &&& 0xF0) <<< 4 = b / 16 * 256 := by decide +kernel

theorem or_low_byte {x : Nat} (a : Nat) (hx : x < 256) : a * 256 ||| x = a * 256 + x := by
  have h := Nat.two_pow_add_eq_or_of_lt (i := 8) hx a
  rw [Nat.mul_comm] at h
  exact h.symm

theorem pglzBackReference_copy {off len : Nat} (src : Bytes)
    (h : (PglzToken.copy off len).Says raw pos) :
    pglzBackReference raw.length ((PglzToken.copy off len).bytes ++ src) (raw.take pos) =
      .ok (src, raw.take (pos + (PglzToken.copy off len).span raw pos)) := by
  obtain ⟨hoff, hoff', hlen, hlen', hle, hlt, hsame⟩ := h
  have htag : (UInt8.ofNat (off / 256 * 16 + min (len - 3) 15)).toNat =
      off / 256 * 16 + min (len - 3) 15 := by
    rw [UInt8.toNat_ofNat']
    omega
  have hlow : (UInt8.ofNat (off % 256)).toNat = off % 256 := by
    rw [UInt8.toNat_ofNat']
    omega
  have hoffset : (off / 256 * 16 + min (len - 3) 15 &&& 0xF0) <<< 4 ||| off % 256 = off := by
    rw [high_nibble _ (by omega), or_low_byte _ (by omega)]
    omega
  have hback : ¬ (off = 0 ∨ off > (raw.take pos).length) := by
    rw [List.length_take]
    omega
  have hcopy := pglzCopy_says hoff len pos hle hlt.le hsame
  by_cases hshort : len < 18
  · have hnibble : min (len - 3) 15 + 3 = len := by omega
    simp only [PglzToken.bytes, if_pos hshort, List.cons_append, List.nil_append,
      pglzBackReference, htag, hlow, low_nibble _ (show min (len - 3) 15 < 16 by omega), hoffset,
      hnibble, show ¬ len = 18 by omega, false_and, if_false, if_neg hback, hcopy, PglzToken.span]
  · have hext : (UInt8.ofNat (len - 18)).toNat = len - 18 := by
      rw [UInt8.toNat_ofNat']
      omega
    have hnibble : min (len - 3) 15 + 3 = 18 := by omega
    have hfull : 18 + (len - 18) = len := by omega
    simp only [PglzToken.bytes, if_neg hshort, List.cons_append, List.nil_append,
      pglzBackReference, htag, hlow, low_nibble _ (show min (len - 3) 15 < 16 by omega), hoffset,
      hnibble, reduceCtorEq, and_false, if_false, if_true, List.headD_cons, List.tail_cons, hext,
      hfull, if_neg hback, hcopy, PglzToken.span]

/-- A bit of the control byte. -/
theorem ctrl_bit {ctrl k n : Nat} {b : Bool} (h : ctrl >>> k = Nat.bit b n) :
    ctrl &&& (1 <<< k) ≠ 0 ↔ b = true := by
  have hbit : ctrl.testBit k = b := by
    rw [← Nat.add_zero k, ← Nat.testBit_shiftRight, h, Nat.testBit_bit_zero]
  rw [Nat.one_shiftLeft, Nat.and_two_pow, hbit]
  cases b <;> simp

theorem pglzItems_spelled {ctrl : Nat} {us : List PglzToken} :
    ∀ (ts : List PglzToken) (k n pos : Nat), ts.length ≤ n → (ts.length < n → us = []) →
      ctrl >>> k = pglzCtrl ts → Spells raw pos (ts ++ us) →
      ∃ pos', Spells raw pos' us ∧
        pglzItems raw.length ctrl (List.range' k n) (ts.flatMap (·.bytes) ++ pglzStream us)
          (raw.take pos) = .ok (pglzStream us, raw.take pos') := by
  intro ts
  induction ts with
  | nil =>
    intro k n pos _ hus _ h
    refine ⟨pos, h, ?_⟩
    cases n with
    | zero => rfl
    | succ n =>
      rw [hus n.succ_pos, pglzStream]
      rfl
  | cons t ts ih =>
    intro k n pos hn hus hctrl h
    obtain ⟨hspells, hrest⟩ := h
    obtain ⟨n, rfl⟩ : ∃ m, n = m + 1 := ⟨n - 1, by simp at hn; omega⟩
    have hlt := hspells.pos_lt
    have hshift : ctrl >>> (k + 1) = pglzCtrl ts := by
      rw [Nat.shiftRight_succ, hctrl, pglzCtrl, Nat.bit_div_two]
    obtain ⟨pos', hpos', hitems⟩ := ih (k + 1) n (pos + t.span raw pos)
      (by simpa using hn) (fun hl => hus (by simpa using hl)) hshift hrest
    refine ⟨pos', hpos', ?_⟩
    have hout : ¬ (raw.take pos).length ≥ raw.length := by
      rw [List.length_take]
      omega
    have hbit := ctrl_bit (n := pglzCtrl ts) hctrl
    rw [List.range'_succ, List.flatMap_cons, List.append_assoc]
    cases t with
    | literal b =>
      have hsnoc : raw.take pos ++ [b] = raw.take (pos + 1) := by
        rw [List.take_add_one, show raw[pos]? = some b from hspells, Option.toList_some]
      simp only [PglzToken.bytes, List.cons_append, List.nil_append, pglzItems, reduceCtorEq, hout,
        or_self, if_false, hbit, PglzToken.bit, List.tail_cons, List.headD_cons, hsnoc]
      exact hitems
    | copy off len =>
      have hback := pglzBackReference_copy (ts.flatMap (·.bytes) ++ pglzStream us) hspells
      have hne : (PglzToken.copy off len).bytes ++ (ts.flatMap (·.bytes) ++ pglzStream us) ≠ [] := by
        simp [PglzToken.bytes]
      simp only [pglzItems, hne, hout, or_self, if_false, hbit.mpr rfl, not_false_eq_true,
        ne_eq, hback]
      exact hitems

theorem pglzCtrl_lt (ts : List PglzToken) : pglzCtrl ts < 2 ^ ts.length := by
  induction ts with
  | nil => exact Nat.one_pos
  | cons t ts ih =>
    rw [pglzCtrl, Nat.bit_val, List.length_cons, Nat.pow_succ]
    have := t.bit.toNat_lt
    omega

theorem pglzLoop_spelled (ts : List PglzToken) :
    ∀ (pos fuel : Nat), (pglzStream ts).length ≤ fuel → Spells raw pos ts →
      pglzLoop raw.length fuel (pglzStream ts) (raw.take pos) = .ok raw := by
  induction ts using pglzStream.induct with
  | case1 =>
    intro pos fuel _ h
    have hpos : pos = raw.length := h
    rw [pglzStream, hpos, List.take_length]
    cases fuel <;> rfl
  | case2 t ts ih =>
    intro pos fuel hfuel h
    have hlt := h.1.pos_lt
    rw [pglzStream, pglzGroup] at hfuel ⊢
    rw [List.cons_append, List.length_cons, List.length_append] at hfuel
    obtain ⟨fuel, rfl⟩ : ∃ m, fuel = m + 1 := ⟨fuel - 1, by omega⟩
    have hgroup : ((t :: ts).take 8).length ≤ 8 := List.length_take_le _ _
    have hctrl : (UInt8.ofNat (pglzCtrl ((t :: ts).take 8))).toNat = pglzCtrl ((t :: ts).take 8) := by
      have h₁ := pglzCtrl_lt ((t :: ts).take 8)
      have h₂ : 2 ^ ((t :: ts).take 8).length ≤ 2 ^ 8 := Nat.pow_le_pow_right (by decide) hgroup
      rw [UInt8.toNat_ofNat']
      omega
    have hsplit : Spells raw pos ((t :: ts).take 8 ++ ts.drop 7) := by
      rw [show ts.drop 7 = (t :: ts).drop 8 by rfl, List.take_append_drop]
      exact h
    have hlast : ((t :: ts).take 8).length < 8 → ts.drop 7 = [] := by
      intro hl
      rw [List.drop_eq_nil_iff]
      rw [List.length_take, List.length_cons] at hl
      omega
    obtain ⟨pos', hpos', hitems⟩ :=
      pglzItems_spelled ((t :: ts).take 8) 0 8 pos hgroup hlast Nat.shiftRight_zero hsplit
    have hout : (raw.take pos).length < raw.length := by
      rw [List.length_take]
      omega
    have hloop := ih pos' fuel (by omega) hpos'
    rw [List.cons_append, pglzLoop]
    simp only [hout, if_true, hctrl, List.range_eq_range', hitems]
    exact hloop

end Decoding

/-- A stream that spells out the raw bytes decompresses to them. -/
theorem pglzDecompress_spelled {raw : Bytes} {ts : List PglzToken} (h : Spells raw 0 ts) :
    pglzDecompress (pglzStream ts) raw.length = .ok raw := by
  have hloop := pglzLoop_spelled ts 0 _ le_rfl h
  rw [List.take_zero] at hloop
  simp only [pglzDecompress, hloop, bind, Except.bind, ne_eq, not_true_eq_false, if_false]
  rfl

end Ltap
