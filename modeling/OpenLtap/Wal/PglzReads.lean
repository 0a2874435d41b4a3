-- SUMMARY: pglz in full: what a token list expands to, and the decoder with its positions and every read checked.
import OpenLtap.Wal.Pglz

/-!
# pglz: expansions and reads

What a list of tokens stands for, byte by byte, and that its stream decompresses to that.
Then `pglz_decompress` once more, with the positions of the source and a fault for every
index out of range: it is the decoder over lists, and it has no such fault.
-/

namespace Ltap

/-! ## Expansion -/

namespace PglzToken

/-- Copy `len` bytes, each from `off` bytes before the current end. -/
def expandCopy (off : Nat) : Nat → Bytes → Bytes
  | 0, out => out
  | len + 1, out => expandCopy off len (out ++ [out.getD (out.length - off) 0])

/-- The output after one more token. -/
def expandOn (out : Bytes) : PglzToken → Bytes
  | .literal b => out ++ [b]
  | .copy off len => expandCopy off len out

/-- The number of bytes a token adds. -/
def size : PglzToken → Nat
  | .literal _ => 1
  | .copy _ len => len

/-- The token can stand behind `pos` bytes of output. -/
def Fits (pos : Nat) : PglzToken → Prop
  | .literal _ => True
  | .copy off len => 1 ≤ off ∧ off ≤ 4095 ∧ off ≤ pos ∧ 3 ≤ len ∧ len ≤ 273

instance (pos : Nat) (t : PglzToken) : Decidable (t.Fits pos) := by
  cases t <;> unfold Fits <;> infer_instance

/-- Every token fits behind what the tokens before it expand to. -/
def AllFit : Nat → List PglzToken → Prop
  | _, [] => True
  | pos, t :: ts => t.Fits pos ∧ AllFit (pos + t.size) ts

instance : ∀ (pos : Nat) (ts : List PglzToken), Decidable (AllFit pos ts)
  | _, [] => instDecidableTrue
  | pos, t :: ts =>
    have := instDecidableAllFit (pos + t.size) ts
    inferInstanceAs (Decidable (t.Fits pos ∧ AllFit (pos + t.size) ts))

/-- The bytes a list of tokens expands to. -/
def expand (ts : List PglzToken) : Bytes := ts.foldl expandOn []

/-! ### What a copy adds -/

theorem expandCopy_extends (off len : Nat) (out : Bytes) :
    ∃ s : Bytes, s.length = len ∧ expandCopy off len out = out ++ s := by
  induction len generalizing out with
  | zero => exact ⟨[], rfl, by simp [expandCopy]⟩
  | succ len ih =>
    obtain ⟨s, hs, heq⟩ := ih (out ++ [out.getD (out.length - off) 0])
    refine ⟨out.getD (out.length - off) 0 :: s, by simp [hs], ?_⟩
    rw [expandCopy, heq, List.append_assoc, List.singleton_append]

/-- Every byte a copy adds is the one `off` bytes before it. -/
theorem expandCopy_repeats {off : Nat} (hoff : 0 < off) (len : Nat) (out : Bytes)
    (hle : off ≤ out.length) :
    ∀ k < len, (expandCopy off len out)[out.length + k]? =
      (expandCopy off len out)[out.length + k - off]? := by
  induction len generalizing out with
  | zero => intro k hk; omega
  | succ len ih =>
    intro k hk
    rw [expandCopy]
    -- The first byte comes from the old output; every later one is the first of a shorter copy.
    cases k with
    | zero =>
      obtain ⟨s, -, heq⟩ := expandCopy_extends off len (out ++ [out.getD (out.length - off) 0])
      have hget : out.length - off < out.length := by omega
      rw [heq, List.append_assoc, Nat.add_zero, List.getElem?_append_right le_rfl, Nat.sub_self,
        List.singleton_append, List.getElem?_cons_zero, List.getElem?_append_left hget,
        List.getElem?_eq_getElem hget, List.getD_eq_getElem?_getD, List.getElem?_eq_getElem hget,
        Option.getD_some]
    | succ k =>
      have hsnoc : (out ++ [out.getD (out.length - off) 0]).length = out.length + 1 := by simp
      have hrest := ih (out ++ [out.getD (out.length - off) 0]) (by omega) k (by omega)
      rw [hsnoc] at hrest
      rwa [show out.length + (k + 1) = out.length + 1 + k by omega]

theorem expandOn_extends (out : Bytes) (t : PglzToken) :
    ∃ s : Bytes, s.length = t.size ∧ expandOn out t = out ++ s := by
  cases t with
  | literal b => exact ⟨[b], rfl, rfl⟩
  | copy off len => exact expandCopy_extends off len out

theorem expandOn_length (out : Bytes) (t : PglzToken) :
    (expandOn out t).length = out.length + t.size := by
  obtain ⟨s, hs, heq⟩ := expandOn_extends out t
  rw [heq, List.length_append, hs]

theorem foldl_expandOn_extends (ts : List PglzToken) (out : Bytes) :
    ∃ s : Bytes, ts.foldl expandOn out = out ++ s := by
  induction ts generalizing out with
  | nil => exact ⟨[], (List.append_nil out).symm⟩
  | cons t ts ih =>
    obtain ⟨s, -, heq⟩ := expandOn_extends out t
    obtain ⟨s', heq'⟩ := ih (expandOn out t)
    exact ⟨s ++ s', by rw [List.foldl_cons, heq', heq, List.append_assoc]⟩

/-! ### The expansion is spelled out by its tokens -/

/-- A token says what the expansion has at its place. -/
theorem Fits.says {out : Bytes} {t : PglzToken} (h : t.Fits out.length) (rest : Bytes) :
    t.Says (expandOn out t ++ rest) out.length ∧
      out.length + t.span (expandOn out t ++ rest) out.length = (expandOn out t).length := by
  have hlen := expandOn_length out t
  have htotal : (expandOn out t ++ rest).length = out.length + t.size + rest.length := by
    rw [List.length_append, hlen]
  cases t with
  | literal b =>
    refine ⟨?_, hlen.symm⟩
    show (out ++ [b] ++ rest)[out.length]? = some b
    rw [List.append_assoc, List.getElem?_append_right le_rfl, Nat.sub_self]
    rfl
  | copy off len =>
    obtain ⟨hoff, hoff', hle, hlen3, hlen273⟩ := h
    simp only [size] at hlen htotal
    -- The copy is not cut off by the end of the output.
    have hspan : min len ((expandOn out (.copy off len) ++ rest).length - out.length) = len := by
      omega
    refine ⟨⟨hoff, by omega, hlen3, hlen273, hle, by omega, ?_⟩, by rw [span, hspan, hlen]⟩
    intro k hk
    rw [hspan] at hk
    have hrepeat := expandCopy_repeats hoff len out hle k hk
    rw [List.getElem?_append_left (by omega), List.getElem?_append_left (by omega)]
    exact hrepeat

theorem AllFit.spells (ts : List PglzToken) :
    ∀ out : Bytes, AllFit out.length ts → Spells (ts.foldl expandOn out) out.length ts := by
  induction ts with
  | nil => intro out _; rfl
  | cons t ts ih =>
    intro out h
    obtain ⟨hfits, hrest⟩ := h
    obtain ⟨rest, hextends⟩ := foldl_expandOn_extends ts (expandOn out t)
    obtain ⟨hspells, hspan⟩ := hfits.says rest
    rw [List.foldl_cons]
    rw [← hextends] at hspells hspan
    refine ⟨hspells, ?_⟩
    rw [hspan]
    exact ih (expandOn out t) (by rwa [expandOn_length])

end PglzToken

/-- The stream of well-formed tokens decompresses to what they expand to. -/
theorem pglzDecompress_expand {ts : List PglzToken} (h : PglzToken.AllFit 0 ts) :
    pglzDecompress (pglzStream ts) (PglzToken.expand ts).length = .ok (PglzToken.expand ts) :=
  pglzDecompress_spelled (PglzToken.AllFit.spells ts [] h)

/-! ## Positions and reads -/

/-- How the decoder over positions ends early: by `bail!`, by an index out of range, by a
capacity no vector can have, or because it is still running. -/
inductive PglzStop where
  | bail (e : DecodeError)
  | outOfBounds
  | capacity
  | running
  deriving DecidableEq, Repr

namespace PglzStop

/-- `src[sp]`. -/
def readAt (src : Bytes) (sp : Nat) : Except PglzStop UInt8 :=
  match src[sp]? with
  | some b => .ok b
  | none => .error .outOfBounds

/-- `bail!`. -/
def bailAt {α : Type} (what : String) : Except PglzStop α := .error (.bail (.other what))

end PglzStop

open PglzStop

/-- The copying loop. `out.len() - off` is a subtraction of unsigned integers. -/
def pglzCopyAt (rawsize off : Nat) : Nat → Bytes → Except PglzStop Bytes
  | 0, out => .ok out
  | len + 1, out =>
    if out.length ≥ rawsize then .ok out
    else if out.length < off then .error .outOfBounds
    else do
      let b ← readAt out (out.length - off)
      pglzCopyAt rawsize off len (out ++ [b])

def pglzBackReferenceAt (rawsize : Nat) (src : Bytes) (sp : Nat) (out : Bytes) :
    Except PglzStop (Nat × Bytes) :=
  if sp + 1 ≥ src.length then bailAt "pglz: truncated back-reference"
  else do
    let b₀ ← readAt src sp
    let b₁ ← readAt src (sp + 1)
    let len := (b₀.toNat &&& 0x0F) + 3
    let off := ((b₀.toNat &&& 0xF0) <<< 4) ||| b₁.toNat
    let sp := sp + 2
    let (len, sp) ←
      if len = 18 then
        if sp ≥ src.length then bailAt "pglz: truncated extended length"
        else do
          let ext ← readAt src sp
          pure (len + ext.toNat, sp + 1)
      else pure (len, sp)
    if off = 0 ∨ off > out.length then
      bailAt s!"pglz: bad back-reference offset {off} at output {out.length}"
    else do
      let out ← pglzCopyAt rawsize off len out
      pure (sp, out)

/-- One turn of the outer loop after its control byte. -/
def pglzItemsAt (rawsize : Nat) (src : Bytes) (ctrl : Nat) :
    List Nat → Nat → Bytes → Except PglzStop (Nat × Bytes)
  | [], sp, out => .ok (sp, out)
  | bit :: bits, sp, out =>
    if sp ≥ src.length ∨ out.length ≥ rawsize then .ok (sp, out)
    else if ctrl &&& (1 <<< bit) ≠ 0 then do
      let (sp, out) ← pglzBackReferenceAt rawsize src sp out
      pglzItemsAt rawsize src ctrl bits sp out
    else do
      let b ← readAt src sp
      pglzItemsAt rawsize src ctrl bits (sp + 1) (out ++ [b])

/-- The outer loop, for at most `fuel` tests of its condition. -/
def pglzLoopAt (rawsize : Nat) (src : Bytes) : Nat → Nat → Bytes → Except PglzStop Bytes
  | 0, _, _ => .error .running
  | fuel + 1, sp, out =>
    if sp < src.length ∧ out.length < rawsize then do
      let ctrl ← readAt src sp
      let (sp, out) ← pglzItemsAt rawsize src ctrl.toNat (List.range 8) (sp + 1) out
      pglzLoopAt rawsize src fuel sp out
    else .ok out

/-- `pglz_decompress` as the source has it. `Vec::with_capacity` panics from `2 ^ 63` on. -/
def pglzDecompressAt (fuel : Nat) (src : Bytes) (rawsize : Nat) : Except PglzStop Bytes :=
  if 2 ^ 63 ≤ rawsize then .error .capacity
  else do
    let out ← pglzLoopAt rawsize src fuel 0 []
    if out.length ≠ rawsize then bailAt s!"pglz: expected {rawsize} bytes, produced {out.length}"
    else pure out

/-! ### The two decoders agree -/

/-- A result over lists, as one over positions gives it, not before position `start`. -/
inductive SameRead (src : Bytes) (start : Nat) :
    Except Fault (Bytes × Bytes) → Except PglzStop (Nat × Bytes) → Prop
  | ok {sp : Nat} (hle : start ≤ sp) (out : Bytes) :
    SameRead src start (.ok (src.drop sp, out)) (.ok (sp, out))
  | bail (e : DecodeError) : SameRead src start (.error (.error e)) (.error (.bail e))

/-- The same for whole outputs. -/
inductive SameOutput : Except Fault Bytes → Except PglzStop Bytes → Prop
  | ok (out : Bytes) : SameOutput (.ok out) (.ok out)
  | bail (e : DecodeError) : SameOutput (.error (.error e)) (.error (.bail e))

section Agreement

variable {rawsize : Nat} {src : Bytes}

theorem readAt_eq {sp : Nat} (h : sp < src.length) : readAt src sp = .ok src[sp] := by
  rw [readAt, List.getElem?_eq_getElem h]

theorem pglzCopyAt_eq {off : Nat} (hoff : 0 < off) (len : Nat) (out : Bytes) (hle : off ≤ out.length) :
    pglzCopyAt rawsize off len out = .ok (pglzCopy rawsize off len out) := by
  induction len generalizing out with
  | zero => rfl
  | succ len ih =>
    rw [pglzCopyAt, pglzCopy]
    by_cases hfull : out.length ≥ rawsize
    · rw [if_pos hfull, if_pos hfull]
    -- The read stays inside the output, so the default of the list decoder is never used.
    · have hget : out.length - off < out.length := by omega
      have hbyte : out.getD (out.length - off) 0 = out[out.length - off] := by
        rw [List.getD_eq_getElem?_getD, List.getElem?_eq_getElem hget, Option.getD_some]
      rw [if_neg hfull, if_neg hfull, if_neg (by omega), readAt_eq hget, hbyte]
      exact ih (out ++ [out[out.length - off]]) (by rw [List.length_append]; omega)

theorem pglzBackReferenceAt_same (sp : Nat) (out : Bytes) :
    SameRead src sp (pglzBackReference rawsize (src.drop sp) out)
      (pglzBackReferenceAt rawsize src sp out) := by
  by_cases hshort : sp + 1 ≥ src.length
  · rw [pglzBackReferenceAt, if_pos hshort]
    have hlen : (src.drop sp).length ≤ 1 := by rw [List.length_drop]; omega
    match hdrop : src.drop sp, hlen with
    | [], _ => exact .bail _
    | [_], _ => exact .bail _
  · have h₀ : sp < src.length := by omega
    have h₁ : sp + 1 < src.length := by omega
    have hdrop : src.drop sp = src[sp] :: src[sp + 1] :: src.drop (sp + 2) := by
      rw [List.drop_eq_getElem_cons h₀, List.drop_eq_getElem_cons h₁]
    rw [pglzBackReferenceAt, if_neg hshort, readAt_eq h₀, readAt_eq h₁, hdrop, pglzBackReference]
    simp only [bind, Except.bind]
    generalize (src[sp].toNat &&& 0x0F) + 3 = len
    generalize ((src[sp].toNat &&& 0xF0) <<< 4) ||| src[sp + 1].toNat = off
    -- the offset check and the copy, behind either length
    have hcopied : ∀ len' sp' : Nat, sp ≤ sp' → SameRead src sp
        (if off = 0 ∨ off > out.length then
          bail s!"pglz: bad back-reference offset {off} at output {out.length}"
        else .ok (src.drop sp', pglzCopy rawsize off len' out))
        (if off = 0 ∨ off > out.length then
          bailAt s!"pglz: bad back-reference offset {off} at output {out.length}"
        else pglzCopyAt rawsize off len' out >>= fun out => pure (sp', out)) := by
      intro len' sp' hle
      by_cases hoff : off = 0 ∨ off > out.length
      · rw [if_pos hoff, if_pos hoff]
        exact .bail _
      · rw [if_neg hoff, if_neg hoff, pglzCopyAt_eq (by omega) len' out (by omega)]
        exact .ok hle _
    -- Eighteen in the nibble says that another byte of the length follows.
    by_cases hext : len = 18
    · by_cases hend : sp + 2 ≥ src.length
      · simp only [hext, hend, List.drop_eq_nil_of_le hend, and_self, if_true]
        exact .bail _
      · have h₂ : sp + 2 < src.length := by omega
        have hne : src.drop (sp + 2) ≠ [] := by
          rw [ne_eq, List.drop_eq_nil_iff]
          omega
        have hhead : (src.drop (sp + 2)).headD 0 = src[sp + 2] := by
          rw [List.drop_eq_getElem_cons h₂, List.headD_cons]
        simp only [hext, hend, hne, hhead, List.tail_drop, readAt_eq h₂, and_false, if_true, if_false,
          pure, Except.pure]
        exact hcopied _ (sp + 3) (by omega)
    · simp only [hext, false_and, if_false, pure, Except.pure]
      exact hcopied len (sp + 2) (by omega)

theorem SameRead.mono {start start' : Nat} {r : Except Fault (Bytes × Bytes)}
    {r' : Except PglzStop (Nat × Bytes)} (h : SameRead src start' r r') (hle : start ≤ start') :
    SameRead src start r r' := by
  cases h with
  | ok hsp out => exact .ok (hle.trans hsp) out
  | bail e => exact .bail e

theorem pglzItemsAt_same (ctrl : Nat) (bits : List Nat) (sp : Nat) (out : Bytes) :
    SameRead src sp (pglzItems rawsize ctrl bits (src.drop sp) out)
      (pglzItemsAt rawsize src ctrl bits sp out) := by
  induction bits generalizing sp out with
  | nil => exact .ok le_rfl out
  | cons bit bits ih =>
    have hnil : src.drop sp = [] ↔ sp ≥ src.length := List.drop_eq_nil_iff
    simp only [pglzItems, pglzItemsAt, hnil]
    by_cases hend : sp ≥ src.length ∨ out.length ≥ rawsize
    · rw [if_pos hend, if_pos hend]
      exact .ok le_rfl out
    -- A set bit is a back-reference, a clear one a literal.
    · rw [if_neg hend, if_neg hend]
      by_cases hbit : ctrl &&& (1 <<< bit) ≠ 0
      · rw [if_pos hbit, if_pos hbit]
        have hback := @pglzBackReferenceAt_same rawsize src sp out
        generalize pglzBackReference rawsize (src.drop sp) out = r at hback
        generalize pglzBackReferenceAt rawsize src sp out = r' at hback
        cases hback with
        | ok hle out' => exact (ih _ out').mono hle
        | bail e => exact .bail e
      · have hsp : sp < src.length := by omega
        rw [if_neg hbit, if_neg hbit, readAt_eq hsp, List.tail_drop, List.drop_eq_getElem_cons hsp,
          List.headD_cons]
        exact (ih (sp + 1) (out ++ [src[sp]])).mono (Nat.le_succ sp)

/-- With more fuel than bytes left both loops end, and in the same way. -/
theorem pglzLoopAt_same (fuel : Nat) :
    ∀ (fuel' sp : Nat) (out : Bytes), src.length - sp < fuel → src.length - sp ≤ fuel' →
      SameOutput (pglzLoop rawsize fuel' (src.drop sp) out) (pglzLoopAt rawsize src fuel sp out) := by
  induction fuel with
  | zero => intro fuel' sp out h _; omega
  | succ fuel ih =>
    intro fuel' sp out hfuel hfuel'
    rw [pglzLoopAt]
    by_cases hsp : sp < src.length
    · obtain ⟨fuel', rfl⟩ : ∃ m, fuel' = m + 1 := ⟨fuel' - 1, by omega⟩
      rw [List.drop_eq_getElem_cons hsp, pglzLoop]
      by_cases hout : out.length < rawsize
      · rw [if_pos hout, if_pos ⟨hsp, hout⟩, readAt_eq hsp]
        have hitems := @pglzItemsAt_same rawsize src src[sp].toNat (List.range 8) (sp + 1) out
        simp only [bind, Except.bind]
        generalize pglzItems rawsize src[sp].toNat (List.range 8) (src.drop (sp + 1)) out = r at hitems ⊢
        generalize pglzItemsAt rawsize src src[sp].toNat (List.range 8) (sp + 1) out = r' at hitems ⊢
        -- The items start behind the control byte, so fewer bytes are left for the rest.
        cases hitems with
        | ok hle out' => exact ih fuel' _ out' (by omega) (by omega)
        | bail e => exact .bail e
      · rw [if_neg hout, if_neg (fun h => hout h.2)]
        exact .ok out
    · rw [if_neg (fun h => hsp h.1), List.drop_eq_nil_of_le (by omega)]
      cases fuel' <;> exact .ok out

theorem pglzDecompressAt_same {fuel : Nat} (hfuel : src.length < fuel) (hcap : rawsize < 2 ^ 63) :
    SameOutput (pglzDecompress src rawsize) (pglzDecompressAt fuel src rawsize) := by
  rw [pglzDecompressAt, if_neg (by omega), pglzDecompress]
  have hloop := @pglzLoopAt_same rawsize src fuel src.length 0 [] (by omega) (by omega)
  rw [List.drop_zero] at hloop
  simp only [bind, Except.bind]
  generalize pglzLoop rawsize src.length src [] = r at hloop ⊢
  generalize pglzLoopAt rawsize src fuel 0 [] = r' at hloop ⊢
  cases hloop with
  | ok out =>
    by_cases hlen : out.length ≠ rawsize
    · simp only [hlen, ne_eq, not_false_eq_true, if_true]
      exact .bail _
    · simp only [hlen, if_false]
      exact .ok out
  | bail e => exact .bail e

end Agreement

/-- Whatever the bytes are, the decoder over positions ends, reads nothing outside its
input and its output, and gives the raw size or an error. -/
theorem pglzDecompressAt_outcome {fuel : Nat} {src : Bytes} (rawsize : Nat) (hfuel : src.length < fuel) :
    (∃ out, pglzDecompressAt fuel src rawsize = .ok out ∧ out.length = rawsize) ∨
      (∃ e, pglzDecompressAt fuel src rawsize = .error (.bail e)) ∨
      (2 ^ 63 ≤ rawsize ∧ pglzDecompressAt fuel src rawsize = .error .capacity) := by
  by_cases hcap : 2 ^ 63 ≤ rawsize
  · exact .inr (.inr ⟨hcap, if_pos hcap⟩)
  · have hsame := pglzDecompressAt_same hfuel (not_le.mp hcap)
    generalize hr : pglzDecompress src rawsize = r at hsame
    generalize pglzDecompressAt fuel src rawsize = r' at hsame
    cases hsame with
    | ok out => exact .inl ⟨out, rfl, pglzDecompress_length hr⟩
    | bail e => exact .inr (.inl ⟨e, rfl⟩)

/-- A stream of tokens decompresses to its expansion, through the list decoder and through
the one over positions; on any other bytes the latter ends without a read out of range. -/
theorem pglz_exact_and_safe :
    (∀ ts : List PglzToken, PglzToken.AllFit 0 ts →
      pglzDecompress (pglzStream ts) (PglzToken.expand ts).length = .ok (PglzToken.expand ts) ∧
      ∀ fuel, (pglzStream ts).length < fuel → (PglzToken.expand ts).length < 2 ^ 63 →
        pglzDecompressAt fuel (pglzStream ts) (PglzToken.expand ts).length =
          .ok (PglzToken.expand ts)) ∧
    ∀ (src : Bytes) (rawsize fuel : Nat), src.length < fuel →
      ((∃ out, pglzDecompressAt fuel src rawsize = .ok out ∧ out.length = rawsize) ∨
        (∃ e, pglzDecompressAt fuel src rawsize = .error (.bail e)) ∨
        (2 ^ 63 ≤ rawsize ∧ pglzDecompressAt fuel src rawsize = .error .capacity)) ∧
      (rawsize < 2 ^ 63 →
        SameOutput (pglzDecompress src rawsize) (pglzDecompressAt fuel src rawsize)) := by
  constructor
  · intro ts h
    refine ⟨pglzDecompress_expand h, fun fuel hfuel hcap => ?_⟩
    have hsame := pglzDecompressAt_same hfuel hcap
    rw [pglzDecompress_expand h] at hsame
    generalize pglzDecompressAt fuel (pglzStream ts) (PglzToken.expand ts).length = r at hsame
    cases hsame
    rfl
  · intro src rawsize fuel hfuel
    exact ⟨pglzDecompressAt_outcome rawsize hfuel, pglzDecompressAt_same hfuel⟩

/-- A run of one letter is a literal and a copy of itself. -/
example : PglzToken.expand [.literal 97, .copy 1 7] = List.replicate 8 97 ∧
    pglzDecompressAt 5 [0b10, 97, 0x04, 0x01] 8 = .ok (List.replicate 8 97) := by decide

end Ltap
