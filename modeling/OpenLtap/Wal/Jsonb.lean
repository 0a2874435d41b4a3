-- SUMMARY: The binary form of jsonb and the text the decoder prints for it (`jsonb_to_string`).
import OpenLtap.Base.Utf8
import OpenLtap.Wal.Numeric

/-!
# jsonb

A container is a header word, one entry word for each element (keys first, then values,
for an object), and the packed data. An entry holds a type and either the length or the
end offset of its data. Texts are lists of characters here.
-/

namespace Ltap

/-! ## Words -/

/-- The flags of a container header. -/
def jbFobject : Nat := 0x20000000
def jbFscalar : Nat := 0x10000000
def jbCmask : Nat := 0x0FFFFFFF

def jentryOfflenmask : Nat := 0x0FFFFFFF
def jentryHasOff : Nat := 0x80000000
def jentryTypemask : Nat := 0x70000000

def jentryIsString : Nat := 0x00000000
def jentryIsNumeric : Nat := 0x10000000
def jentryIsBoolFalse : Nat := 0x20000000
def jentryIsBoolTrue : Nat := 0x30000000
def jentryIsNull : Nat := 0x40000000
def jentryIsContainer : Nat := 0x50000000

/-! ## The decoder -/

/-- A number in four lower-case hex digits. -/
def hex4 (n : Nat) : List Char := (Nat.toDigits 16 n).leftpad 4 '0'

def escapeChar (c : Char) : List Char :=
  if c = '"' then ['\\', '"']
  else if c = '\\' then ['\\', '\\']
  else if c = Char.ofNat 0x08 then ['\\', 'b']
  else if c = Char.ofNat 0x0C then ['\\', 'f']
  else if c = '\n' then ['\\', 'n']
  else if c = '\r' then ['\\', 'r']
  else if c = '\t' then ['\\', 't']
  else if c.toNat < 0x20 then ['\\', 'u'] ++ hex4 c.toNat
  else [c]

def writeJsonString (bytes : Bytes) : List Char :=
  '"' :: (Utf8.lossy bytes).toList.flatMap escapeChar ++ ['"']

/-- Strip the varlena header of a numeric and render it. -/
def numericVarlenaToString (v : Bytes) : Except Fault (List Char) :=
  match v with
  | [] => bail "jsonb numeric empty"
  | b₀ :: _ =>
    if b₀.toNat &&& 0x01 = 1 then
      let total := (b₀.toNat >>> 1) &&& 0x7F
      if total < 1 ∨ v.length < total then bail "jsonb short numeric truncated"
      else String.toList <$> numericToString ((v.take total).drop 1)
    else if v.length < 4 then bail "jsonb numeric hdr"
    else
      let total := fromLe (v.take 4) >>> 2
      if total < 4 ∨ v.length < total then bail "jsonb long numeric truncated"
      else String.toList <$> numericToString ((v.take total).drop 4)

/-- The entry word at an index. -/
def jentry (c : Bytes) (i : Nat) : Except Fault Nat :=
  match slice c (4 + 4 * i) 4 with
  | some s => .ok (fromLe s)
  | none => bail s!"jsonb JEntry {i} truncated"

/-- The end offset an entry leads to from the end of the one before. -/
def jentryEnd (cum je : Nat) : Nat :=
  if je &&& jentryHasOff ≠ 0 then je &&& jentryOfflenmask else cum + (je &&& jentryOfflenmask)

/-- End offsets of the entries from index `i` on. -/
def jsonbEnds (c : Bytes) : Nat → Nat → Nat → Except Fault (List Nat)
  | 0, _, _ => .ok []
  | n + 1, i, cum => do
    let je ← jentry c i
    let ends ← jsonbEnds c n (i + 1) (jentryEnd cum je)
    return jentryEnd cum je :: ends

/-- `&c[s + pad..e]`, with `s` rounded up to a multiple of four. -/
def alignedSlot (c : Bytes) (s e : Nat) : Except Fault Bytes :=
  let pad := (4 - s % 4) % 4
  if e < s + pad then .error .panic else .ok ((c.take e).drop (s + pad))

section Write

variable (write : Bytes → Except Fault (List Char))

/-- One element; `write` renders a nested container. -/
def jsonbValue (c : Bytes) (ends : List Nat) (dataStart i : Nat) : Except Fault (List Char) := do
  let je ← jentry c i
  match ends[i]? with
  | none => .error .panic
  | some stop =>
    let s := dataStart + (if i = 0 then 0 else ends.getD (i - 1) 0)
    let e := dataStart + stop
    if e < s ∨ c.length < e then bail s!"jsonb value {i} out of range"
    else
      let type := je &&& jentryTypemask
      if type = jentryIsString then return writeJsonString ((c.take e).drop s)
      else if type = jentryIsBoolTrue then return "true".toList
      else if type = jentryIsBoolFalse then return "false".toList
      else if type = jentryIsNull then return "null".toList
      else if type = jentryIsNumeric then do
        let v ← alignedSlot c s e
        numericVarlenaToString v
      else if type = jentryIsContainer then do
        let v ← alignedSlot c s e
        write v
      else bail s!"jsonb: unknown JEntry type {hex type}"

def jsonbContainer (c : Bytes) : Except Fault (List Char) :=
  if c.length < 4 then bail "jsonb container too short"
  else do
    let header := fromLe (c.take 4)
    let count := header &&& jbCmask
    let isObject := header &&& jbFobject ≠ 0
    let nentries := if isObject then count * 2 else count
    let ends ← jsonbEnds c nentries 0 0
    let value := jsonbValue write c ends (4 + nentries * 4)
    if header &&& jbFscalar ≠ 0 then value 0
    else if isObject then do
      let members ← (List.range count).mapM fun p => do
        let key ← value p
        let val ← value (count + p)
        return key ++ ": ".toList ++ val
      return '\x7b' :: (", ".toList).intercalate members ++ ['\x7d']
    else do
      let items ← (List.range count).mapM value
      return '[' :: (", ".toList).intercalate items ++ [']']

end Write

/-- `jsonb_write` with the number of levels it may still descend. -/
def jsonbWrite : Nat → Bytes → Except Fault (List Char)
  | 0, _ => bail "jsonb nested too deep"
  | left + 1, c => jsonbContainer (jsonbWrite left) c

/-- Depths 0 to 200 are rendered. -/
def jsonbToString (container : Bytes) : Except Fault String :=
  String.ofList <$> jsonbWrite 201 container

/-! ## Documents -/

/-- A stored numeric and its text. -/
structure NumericDatum where
  payload : Bytes
  text : String
  text_ok : numericToString payload = .ok text

inductive Json where
  | null
  | bool (b : Bool)
  | numeric (n : NumericDatum)
  | string (s : String)
  | array (items : List Json)
  | object (members : List (String × Json))

/-- The characters of a string literal that have an escape of their own. -/
def shortEscapes : List (Char × Char) :=
  [('"', '"'), ('\\', '\\'), (Char.ofNat 8, 'b'), (Char.ofNat 12, 'f'), ('\n', 'n'), ('\r', 'r'), ('\t', 't')]

/-- A character inside a string literal. -/
def jsonChar (c : Char) : List Char :=
  match shortEscapes.lookup c with
  | some e => ['\\', e]
  | none => if c.toNat < 0x20 then "\\u".toList ++ hex4 c.toNat else [c]

/-- A JSON string literal. -/
def jsonString (s : String) : List Char := ['"'] ++ s.toList.flatMap jsonChar ++ ['"']

namespace Json

mutual

/-- The text a server prints for a document. -/
def text : Json → List Char
  | .null => "null".toList
  | .bool true => "true".toList
  | .bool false => "false".toList
  | .numeric n => n.text.toList
  | .string s => jsonString s
  | .array items => "[".toList ++ (", ".toList).intercalate (itemTexts items) ++ "]".toList
  | .object members => "\x7b".toList ++ (", ".toList).intercalate (memberTexts members) ++ "\x7d".toList

def itemTexts : List Json → List (List Char)
  | [] => []
  | v :: vs => v.text :: itemTexts vs

def memberTexts : List (String × Json) → List (List Char)
  | [] => []
  | (key, v) :: ms => (jsonString key ++ ": ".toList ++ v.text) :: memberTexts ms

end

mutual

/-- How deep containers are nested. -/
def depth : Json → Nat
  | .array items => 1 + itemsDepth items
  | .object members => 1 + membersDepth members
  | _ => 0

def itemsDepth : List Json → Nat
  | [] => 0
  | v :: vs => max v.depth (itemsDepth vs)

def membersDepth : List (String × Json) → Nat
  | [] => 0
  | (_, v) :: ms => max v.depth (membersDepth ms)

end

end Json

/-! ## Layouts -/

/-- A numeric with a one-byte or a four-byte varlena header. -/
inductive NumericVarlena (payload : Bytes) : Bytes → Prop where
  | short (h : payload.length + 1 ≤ 127) :
      NumericVarlena payload (UInt8.ofNat ((payload.length + 1) * 2 + 1) :: payload)
  | long (h : payload.length + 4 < 2 ^ 30) :
      NumericVarlena payload (toLe 4 ((payload.length + 4) * 4) ++ payload)

/-- Numerics and containers begin at a multiple of four. -/
def aligned (type : Nat) : Prop := type = jentryIsNumeric ∨ type = jentryIsContainer

instance (type : Nat) : Decidable (aligned type) := inferInstanceAs (Decidable (_ ∨ _))

def padTo4 (off : Nat) : Nat := (4 - off % 4) % 4

/-- The entry word of an element that ends at `stop` after `len` bytes. -/
def entryWord (type : Nat) (hasOff : Bool) (stop len : Nat) : Nat :=
  type + if hasOff then jentryHasOff + stop else len

/-- The data of elements from an offset on, with their entries. `Body` lays out the single
element. Each entry has an end offset or a length, whichever the writer chose. -/
inductive Slots (Body : Json → Nat → Bytes → Prop) : Nat → List Json → List Nat → Bytes → Prop where
  | nil (off : Nat) : Slots Body off [] [] []
  | cons {off type : Nat} {v : Json} {vs : List Json} {jes : List Nat} {pad body data : Bytes}
      (hasOff : Bool) (hbody : Body v type body)
      (hpad : pad.length = if aligned type then padTo4 off else 0)
      (hfits : off + pad.length + body.length < 2 ^ 28)
      (rest : Slots Body (off + pad.length + body.length) vs jes data) :
      Slots Body off (v :: vs)
        (entryWord type hasOff (off + pad.length + body.length) (pad.length + body.length) :: jes)
        (pad ++ body ++ data)

/-- The header word of a container, its entries, and its data. -/
def containerBytes (header : Nat) (jes : List Nat) (data : Bytes) : Bytes :=
  toLe 4 header ++ (jes.flatMap (toLe 4) ++ data)

def jbFarray : Nat := 0x40000000

/-- The elements of an object: its keys and then its values. -/
def objectElems (members : List (String × Json)) : List Json :=
  members.map (fun m => .string m.1) ++ members.map (·.2)

/-- `v` as an element: its entry type and its bytes without padding. -/
inductive JsonbBody : Json → Nat → Bytes → Prop where
  | null : JsonbBody .null jentryIsNull []
  | boolTrue : JsonbBody (.bool true) jentryIsBoolTrue []
  | boolFalse : JsonbBody (.bool false) jentryIsBoolFalse []
  | string (s : String) : JsonbBody (.string s) jentryIsString (Utf8.encode s)
  | numeric {n : NumericDatum} {bytes : Bytes} (h : NumericVarlena n.payload bytes) :
      JsonbBody (.numeric n) jentryIsNumeric bytes
  | array {items : List Json} {jes : List Nat} {data : Bytes} (hcount : items.length < 2 ^ 28)
      (hslots : Slots JsonbBody 0 items jes data) :
      JsonbBody (.array items) jentryIsContainer (containerBytes (jbFarray + items.length) jes data)
  | object {members : List (String × Json)} {jes : List Nat} {data : Bytes}
      (hcount : members.length < 2 ^ 28)
      (hslots : Slots JsonbBody 0 (objectElems members) jes data) :
      JsonbBody (.object members) jentryIsContainer
        (containerBytes (jbFobject + members.length) jes data)

/-- A stored document: a container, or a bare scalar wrapped in an array of its own. -/
inductive JsonbDoc : Json → Bytes → Prop where
  | container {v : Json} {c : Bytes} (h : JsonbBody v jentryIsContainer c) : JsonbDoc v c
  | scalar {v : Json} {jes : List Nat} {data : Bytes} (hslots : Slots JsonbBody 0 [v] jes data)
      (hscalar : v.depth = 0) : JsonbDoc v (containerBytes (jbFarray + jbFscalar + 1) jes data)

/-! ## Entry words -/

theorem JsonbBody.type_eq {v : Json} {type : Nat} {body : Bytes} (h : JsonbBody v type body) :
    ∃ t < 6, type = t * 2 ^ 28 := by
  cases h
  · exact ⟨4, by decide, rfl⟩
  · exact ⟨3, by decide, rfl⟩
  · exact ⟨2, by decide, rfl⟩
  · exact ⟨0, by decide, rfl⟩
  · exact ⟨1, by decide, rfl⟩
  · exact ⟨5, by decide, rfl⟩
  · exact ⟨5, by decide, rfl⟩

section EntryWord

variable {t stop len : Nat} (ht : t < 6) (hstop : stop < 2 ^ 28) (hlen : len < 2 ^ 28) (hasOff : Bool)
include ht hstop hlen

theorem entryWord_lt : entryWord (t * 2 ^ 28) hasOff stop len < 256 ^ 4 := by
  unfold entryWord jentryHasOff
  split <;> omega

theorem entryWord_type : entryWord (t * 2 ^ 28) hasOff stop len &&& jentryTypemask = t * 2 ^ 28 := by
  rw [show jentryTypemask = (2 ^ 3 - 1) * 2 ^ 28 by rfl, and_mask]
  unfold entryWord jentryHasOff
  split <;> omega

theorem entryWord_end {cum : Nat} (hcum : cum + len = stop) :
    jentryEnd cum (entryWord (t * 2 ^ 28) hasOff stop len) = stop := by
  have hflag : entryWord (t * 2 ^ 28) hasOff stop len &&& jentryHasOff = if hasOff then 2 ^ 31 else 0 := by
    rw [show jentryHasOff = (2 ^ 1 - 1) * 2 ^ 31 by rfl, and_mask]
    unfold entryWord jentryHasOff
    split <;> omega
  have hlow : entryWord (t * 2 ^ 28) hasOff stop len &&& jentryOfflenmask = if hasOff then stop else len := by
    rw [show jentryOfflenmask = (2 ^ 28 - 1) * 2 ^ 0 by rfl, and_mask]
    unfold entryWord jentryHasOff
    split <;> omega
  rw [jentryEnd, hflag, hlow]
  cases hasOff <;> simp [hcum]

end EntryWord

/-- End offsets of entries, from the end of the one before. -/
def endsOf : Nat → List Nat → List Nat
  | _, [] => []
  | cum, je :: jes => jentryEnd cum je :: endsOf (jentryEnd cum je) jes

/-! ## Elements -/

/-- Where an element is: its body behind the elements before it and its padding. -/
structure SlotAt (Body : Json → Nat → Bytes → Prop) (off : Nat) (jes : List Nat) (data : Bytes) (i : Nat)
    (v : Json) where
  type : Nat
  start : Nat
  before : Bytes
  pad : Bytes
  body : Bytes
  after : Bytes
  is_body : Body v type body
  data_eq : data = before ++ (pad ++ (body ++ after))
  start_eq : start = off + before.length
  pad_eq : pad.length = if aligned type then padTo4 start else 0
  je_type : ∃ je, jes[i]? = some je ∧ je &&& jentryTypemask = type
  end_eq : (endsOf off jes)[i]? = some (start + pad.length + body.length)
  prev_eq : (if i = 0 then off else (endsOf off jes).getD (i - 1) 0) = start

theorem Slots.at {Body : Json → Nat → Bytes → Prop} (htype : ∀ {v t b}, Body v t b → ∃ k < 6, t = k * 2 ^ 28)
    {off : Nat} {vs : List Json} {jes : List Nat} {data : Bytes} (h : Slots Body off vs jes data) :
    ∀ {i : Nat} {v : Json}, vs[i]? = some v → Nonempty (SlotAt Body off jes data i v) := by
  induction h with
  | nil off => intro i v hv; simp at hv
  | @cons off type w vs jes pad body data hasOff hbody hpad hfits rest ih =>
    obtain ⟨t, ht, rfl⟩ := htype hbody
    let stop := off + pad.length + body.length
    have hlen : pad.length + body.length < 2 ^ 28 := by omega
    have hend : jentryEnd off (entryWord (t * 2 ^ 28) hasOff stop (pad.length + body.length)) = stop :=
      entryWord_end ht hfits hlen hasOff (by omega)
    have hends : endsOf off (entryWord (t * 2 ^ 28) hasOff stop (pad.length + body.length) :: jes) =
        stop :: endsOf stop jes := by
      rw [endsOf, hend]
    intro i v hv
    cases i with
    | zero =>
      obtain rfl : w = v := by simpa using hv
      exact ⟨{
        type := t * 2 ^ 28, start := off, before := [], pad, body, after := data
        is_body := hbody
        data_eq := by simp
        start_eq := rfl
        pad_eq := hpad
        je_type := ⟨_, rfl, entryWord_type ht hfits hlen hasOff⟩
        end_eq := congrArg (·[0]?) hends
        prev_eq := rfl }⟩
    | succ i =>
      obtain ⟨a⟩ := ih (i := i) (by simpa using hv)
      exact ⟨{
        type := a.type, start := a.start, before := pad ++ (body ++ a.before), pad := a.pad
        body := a.body, after := a.after
        is_body := a.is_body
        data_eq := by simp [a.data_eq]
        start_eq := by simp [a.start_eq]; omega
        pad_eq := a.pad_eq
        je_type := a.je_type
        end_eq := (congrArg (·[i + 1]?) hends).trans a.end_eq
        prev_eq := by
          have hprev := a.prev_eq
          refine (congrArg (fun ends => if i + 1 = 0 then off else ends.getD (i + 1 - 1) 0) hends).trans ?_
          cases i with
          | zero => exact hprev
          | succ i => exact hprev }⟩

theorem Slots.jes_lt {Body : Json → Nat → Bytes → Prop}
    (htype : ∀ {v t b}, Body v t b → ∃ k < 6, t = k * 2 ^ 28) {off : Nat} {vs : List Json} {jes : List Nat}
    {data : Bytes} (h : Slots Body off vs jes data) : (∀ je ∈ jes, je < 256 ^ 4) ∧ jes.length = vs.length := by
  induction h with
  | nil off => simp
  | cons hasOff hbody hpad hfits rest ih =>
    obtain ⟨t, ht, rfl⟩ := htype hbody
    refine ⟨fun je hje => ?_, by simp [ih.2]⟩
    rcases List.mem_cons.mp hje with rfl | hje
    · exact entryWord_lt ht hfits (by omega) hasOff
    · exact ih.1 je hje

theorem jsonChar_eq_escapeChar (c : Char) : jsonChar c = escapeChar c := by
  unfold escapeChar
  by_cases h₁ : c = '"'
  · subst h₁; rfl
  by_cases h₂ : c = '\\'
  · subst h₂; rfl
  by_cases h₃ : c = Char.ofNat 0x08
  · subst h₃; rfl
  by_cases h₄ : c = Char.ofNat 0x0C
  · subst h₄; rfl
  by_cases h₅ : c = '\n'
  · subst h₅; rfl
  by_cases h₆ : c = '\r'
  · subst h₆; rfl
  by_cases h₇ : c = '\t'
  · subst h₇; rfl
  have hnone : shortEscapes.lookup c = none := by
    simp [shortEscapes, h₁, h₂, h₃, h₄, h₅, h₆, h₇]
  simp only [jsonChar, hnone, h₁, h₂, h₃, h₄, h₅, h₆, h₇, if_false]
  rfl

theorem writeJsonString_encode (s : String) : writeJsonString (Utf8.encode s) = jsonString s := by
  rw [writeJsonString, Utf8.lossy_encode, jsonString, funext jsonChar_eq_escapeChar]
  rfl

theorem numericVarlenaToString_eq {n : NumericDatum} {bytes : Bytes} (h : NumericVarlena n.payload bytes) :
    numericVarlenaToString bytes = .ok n.text.toList := by
  cases h with
  | short h =>
    have hb : (UInt8.ofNat ((n.payload.length + 1) * 2 + 1)).toNat = (n.payload.length + 1) * 2 + 1 := by
      rw [UInt8.toNat_ofNat']
      omega
    have hodd : (n.payload.length + 1) * 2 + 1 &&& 0x01 = 1 := by
      rw [show 0x01 = (2 ^ 1 - 1) * 2 ^ 0 by rfl, and_mask]
      omega
    have htotal : ((n.payload.length + 1) * 2 + 1) >>> 1 &&& 0x7F = n.payload.length + 1 := by
      rw [Nat.shiftRight_eq_div_pow, show 0x7F = (2 ^ 7 - 1) * 2 ^ 0 by rfl, and_mask]
      omega
    simp only [numericVarlenaToString, hb, hodd, if_true, htotal, List.length_cons,
      Nat.lt_irrefl, or_false, show ¬ n.payload.length + 1 < 1 by omega, if_false,
      List.take_succ_cons, List.take_length, List.drop_succ_cons, List.drop_zero, n.text_ok]
    rfl
  | long h =>
    have hlt : (n.payload.length + 4) * 4 < 256 ^ 4 := by omega
    obtain ⟨b, bs, hcons⟩ : ∃ b bs, toLe 4 ((n.payload.length + 4) * 4) ++ n.payload = b :: bs := ⟨_, _, rfl⟩
    have hlen : (toLe 4 ((n.payload.length + 4) * 4) ++ n.payload).length = n.payload.length + 4 := by
      rw [List.length_append, toLe_length, Nat.add_comm]
    have hhdr : fromLe ((toLe 4 ((n.payload.length + 4) * 4) ++ n.payload).take 4) =
        (n.payload.length + 4) * 4 := by
      rw [List.take_left' (toLe_length 4 _), fromLe_toLe hlt]
    have hb : b.toNat = (n.payload.length + 4) * 4 % 256 := by
      have hhead : b = UInt8.ofNat ((n.payload.length + 4) * 4 % 256) := (List.cons.inj hcons).1.symm
      rw [hhead, UInt8.toNat_ofNat']
      omega
    have heven : ¬ b.toNat &&& 0x01 = 1 := by
      rw [hb, show 0x01 = (2 ^ 1 - 1) * 2 ^ 0 by rfl, and_mask]
      omega
    have htotal : ((n.payload.length + 4) * 4) >>> 2 = n.payload.length + 4 := by
      rw [Nat.shiftRight_eq_div_pow]
      omega
    have hbody : ((toLe 4 ((n.payload.length + 4) * 4) ++ n.payload).take (n.payload.length + 4)).drop 4 =
        n.payload := by
      rw [List.take_of_length_le hlen.le, List.drop_left' (toLe_length 4 _)]
    rw [hcons] at hlen hhdr hbody ⊢
    simp only [numericVarlenaToString, heven, if_false, hhdr, htotal, hbody, hlen, n.text_ok,
      show ¬ n.payload.length + 4 < 4 by omega, Nat.lt_irrefl, or_self]
    rfl

/-! ## Containers -/

section Container

variable {header : Nat} {jes : List Nat} {data : Bytes}

theorem jentry_containerBytes (hjes : ∀ je ∈ jes, je < 256 ^ 4) {i je : Nat} (hi : jes[i]? = some je) :
    jentry (containerBytes header jes data) i = .ok je := by
  obtain ⟨hlt, rfl⟩ := List.getElem?_eq_some_iff.mp hi
  have hsplit : jes = jes.take i ++ jes[i] :: jes.drop (i + 1) := by
    rw [← List.drop_eq_getElem_cons hlt, List.take_append_drop]
  have hbytes : containerBytes header jes data =
      (toLe 4 header ++ (jes.take i).flatMap (toLe 4)) ++
        (toLe 4 jes[i] ++ ((jes.drop (i + 1)).flatMap (toLe 4) ++ data)) := by
    have hflat : jes.flatMap (toLe 4) = (jes.take i).flatMap (toLe 4) ++
        (toLe 4 jes[i] ++ (jes.drop (i + 1)).flatMap (toLe 4)) := by
      rw [← List.flatMap_cons, ← List.flatMap_append, ← hsplit]
    rw [containerBytes, hflat]
    simp only [List.append_assoc]
  have hbefore : (toLe 4 header ++ (jes.take i).flatMap (toLe 4)).length = 4 + 4 * i := by
    rw [List.length_append, toLe_length, flatMap_toLe_length, List.length_take]
    omega
  have hslice : slice (containerBytes header jes data) (4 + 4 * i) 4 = some (toLe 4 jes[i]) := by
    rw [slice, hbytes, List.drop_left' hbefore, List.take_left' (toLe_length 4 _), if_pos]
    simp only [List.length_append, hbefore, toLe_length]
    omega
  rw [jentry, hslice]
  exact congrArg _ (fromLe_toLe (hjes _ (List.getElem_mem hlt)))

theorem jsonbEnds_containerBytes (hjes : ∀ je ∈ jes, je < 256 ^ 4) :
    ∀ (n i cum : Nat), i + n = jes.length →
      jsonbEnds (containerBytes header jes data) n i cum = .ok (endsOf cum (jes.drop i)) := by
  intro n
  induction n with
  | zero =>
    intro i cum hi
    rw [List.drop_eq_nil_of_le (by omega)]
    rfl
  | succ n ih =>
    intro i cum hi
    have hlt : i < jes.length := by omega
    have hget : jes[i]? = some jes[i] := List.getElem?_eq_getElem hlt
    rw [jsonbEnds, jentry_containerBytes hjes hget, List.drop_eq_getElem_cons hlt, endsOf]
    simp only [bind, Except.bind, ih (i + 1) _ (by omega)]
    rfl

/-- What a slot of the data region holds. -/
theorem slot_of_split {c front before pad body after : Bytes}
    (hc : c = front ++ (before ++ (pad ++ (body ++ after)))) {s e : Nat}
    (hs : s = front.length + before.length) (he : e = s + pad.length + body.length) :
    (c.take e).drop s = pad ++ body ∧ (c.take e).drop (s + pad.length) = body ∧ ¬ (e < s ∨ c.length < e) := by
  have hlen : (front ++ before).length = s := by rw [List.length_append, hs]
  have htake : c.take e = front ++ before ++ (pad ++ body) := by
    have hsplit : c = (front ++ before ++ (pad ++ body)) ++ after := by
      rw [hc]
      simp only [List.append_assoc]
    rw [hsplit, List.take_left']
    simp only [List.length_append] at hlen ⊢
    omega
  have hdrop : (c.take e).drop s = pad ++ body := by rw [htake, List.drop_left' hlen]
  refine ⟨hdrop, ?_, ?_⟩
  · rw [← List.drop_drop, hdrop, List.drop_left]
  · rw [hc]
    simp only [List.length_append]
    omega

theorem jsonbValue_slot (write : Bytes → Except Fault (List Char)) (hjes : ∀ je ∈ jes, je < 256 ^ 4)
    {i : Nat} {v : Json} (a : SlotAt JsonbBody 0 jes data i v)
    (hwrite : a.type = jentryIsContainer → write a.body = .ok v.text) :
    jsonbValue write (containerBytes header jes data) (endsOf 0 jes) (4 + jes.length * 4) i =
      .ok v.text := by
  obtain ⟨je, hje, htype⟩ := a.je_type
  let front := toLe 4 header ++ jes.flatMap (toLe 4)
  have hfront : front.length = 4 + jes.length * 4 := by
    rw [List.length_append, toLe_length, flatMap_toLe_length]
    omega
  have hc : containerBytes header jes data = front ++ (a.before ++ (a.pad ++ (a.body ++ a.after))) := by
    rw [← a.data_eq, containerBytes, List.append_assoc]
  have hs : 4 + jes.length * 4 + a.start = front.length + a.before.length := by
    rw [hfront, a.start_eq, Nat.zero_add]
  obtain ⟨hslot, hbody, hrange⟩ := slot_of_split hc hs rfl
  have hprev : (if i = 0 then 0 else (endsOf 0 jes).getD (i - 1) 0) = a.start := a.prev_eq
  have hstop : 4 + jes.length * 4 + (a.start + a.pad.length + a.body.length) =
      4 + jes.length * 4 + a.start + a.pad.length + a.body.length := by omega
  have hpadded : aligned a.type →
      alignedSlot (containerBytes header jes data) (4 + jes.length * 4 + a.start)
        (4 + jes.length * 4 + a.start + a.pad.length + a.body.length) = .ok a.body := by
    intro hal
    have hpad : (4 - (4 + jes.length * 4 + a.start) % 4) % 4 = a.pad.length := by
      rw [a.pad_eq, if_pos hal, padTo4]
      omega
    rw [alignedSlot, hpad, if_neg (by omega), hbody]
  have hunpadded : ¬ aligned a.type → a.pad = [] := by
    intro hal
    exact List.length_eq_zero_iff.mp (a.pad_eq.trans (if_neg hal))
  simp only [jsonbValue, jentry_containerBytes hjes hje, bind, Except.bind, a.end_eq, hprev, hstop,
    if_neg hrange, htype, hslot]
  have hb := a.is_body
  generalize a.type = type, a.body = body, a.pad = pad at hb hwrite hpadded hunpadded ⊢
  cases hb with
  | null => rfl
  | boolTrue => rfl
  | boolFalse => rfl
  | string s =>
    rw [hunpadded (by decide), List.nil_append, if_pos rfl, writeJsonString_encode]
    rfl
  | numeric h =>
    rw [hpadded (.inl rfl)]
    exact numericVarlenaToString_eq h
  | array hcount hslots =>
    rw [hpadded (.inr rfl)]
    exact hwrite rfl
  | object hcount hslots =>
    rw [hpadded (.inr rfl)]
    exact hwrite rfl

/-- Elements laid out from the beginning are rendered one by one. -/
theorem jsonbValue_slots (header : Nat) (write : Bytes → Except Fault (List Char)) {vs : List Json}
    (hslots : Slots JsonbBody 0 vs jes data)
    (hwrite : ∀ {v body}, v ∈ vs → JsonbBody v jentryIsContainer body → write body = .ok v.text) :
    ∀ {i : Nat} {v : Json}, vs[i]? = some v →
      jsonbValue write (containerBytes header jes data) (endsOf 0 jes) (4 + vs.length * 4) i = .ok v.text := by
  intro i v hv
  obtain ⟨hjes, hlen⟩ := hslots.jes_lt JsonbBody.type_eq
  obtain ⟨a⟩ := hslots.at JsonbBody.type_eq hv
  rw [← hlen]
  refine jsonbValue_slot write hjes a fun htype => ?_
  exact hwrite (List.mem_of_getElem? hv) (htype ▸ a.is_body)

theorem jsonbEnds_slots (header : Nat) {vs : List Json} (hslots : Slots JsonbBody 0 vs jes data) :
    jsonbEnds (containerBytes header jes data) vs.length 0 0 = .ok (endsOf 0 jes) := by
  obtain ⟨hjes, hlen⟩ := hslots.jes_lt JsonbBody.type_eq
  rw [← hlen, jsonbEnds_containerBytes hjes jes.length 0 0 (Nat.zero_add _), List.drop_zero]

end Container

theorem mapM_range_ok {α β : Type} {l : List α} {f : Nat → Except Fault β} {g : α → β}
    (h : ∀ {i : Nat} {x : α}, l[i]? = some x → f i = .ok (g x)) :
    (List.range l.length).mapM f = .ok (l.map g) := by
  have hgen : ∀ (k : Nat) (xs : List α), (∀ j x, xs[j]? = some x → f (k + j) = .ok (g x)) →
      (List.range' k xs.length).mapM f = .ok (xs.map g) := by
    intro k xs
    induction xs generalizing k with
    | nil => intro _; rfl
    | cons x xs ih =>
      intro hf
      have hhead : f k = .ok (g x) := hf 0 x rfl
      have htail := ih (k + 1) fun j y hy => by
        have := hf (j + 1) y hy
        rwa [show k + (j + 1) = k + 1 + j by omega] at this
      rw [List.length_cons, List.range'_succ, List.mapM_cons, hhead, List.map_cons]
      simp only [bind, Except.bind, htail]
      rfl
  rw [List.range_eq_range']
  exact hgen 0 l fun j x hx => by rw [Nat.zero_add]; exact h hx

namespace Json

theorem itemTexts_eq_map (items : List Json) : itemTexts items = items.map text := by
  induction items with
  | nil => rfl
  | cons v vs ih => rw [itemTexts, ih, List.map_cons]

theorem memberTexts_eq_map (members : List (String × Json)) :
    memberTexts members = members.map fun m => jsonString m.1 ++ ": ".toList ++ m.2.text := by
  induction members with
  | nil => rfl
  | cons m ms ih => rw [memberTexts, ih, List.map_cons]

theorem depth_le_itemsDepth {v : Json} {items : List Json} (h : v ∈ items) : v.depth ≤ itemsDepth items := by
  induction items with
  | nil => cases h
  | cons w ws ih =>
    rw [itemsDepth]
    rcases List.mem_cons.mp h with rfl | h
    · exact le_max_left _ _
    · exact (ih h).trans (le_max_right _ _)

theorem depth_le_membersDepth {m : String × Json} {members : List (String × Json)} (h : m ∈ members) :
    m.2.depth ≤ membersDepth members := by
  induction members with
  | nil => cases h
  | cons w ws ih =>
    rw [membersDepth]
    rcases List.mem_cons.mp h with rfl | h
    · exact le_max_left _ _
    · exact (ih h).trans (le_max_right _ _)

end Json

section Render

variable {write : Bytes → Except Fault (List Char)} {jes : List Nat} {data : Bytes}

/-- The count and the flags of a header word. -/
theorem header_masks {k n : Nat} (hn : n < 2 ^ 28) :
    k * 2 ^ 28 + n &&& jbCmask = n ∧ k * 2 ^ 28 + n &&& jbFobject = k / 2 % 2 * 2 ^ 29 ∧
      k * 2 ^ 28 + n &&& jbFscalar = k % 2 * 2 ^ 28 := by
  refine ⟨?_, ?_, ?_⟩
  · rw [show jbCmask = (2 ^ 28 - 1) * 2 ^ 0 by rfl, and_mask]
    omega
  · rw [show jbFobject = (2 ^ 1 - 1) * 2 ^ 29 by rfl, and_mask]
    omega
  · rw [show jbFscalar = (2 ^ 1 - 1) * 2 ^ 28 by rfl, and_mask]
    omega

theorem containerBytes_header {header : Nat} (jes : List Nat) (data : Bytes) (h : header < 256 ^ 4) :
    ¬ (containerBytes header jes data).length < 4 ∧
      fromLe ((containerBytes header jes data).take 4) = header := by
  refine ⟨?_, ?_⟩
  · rw [containerBytes, List.length_append, toLe_length]
    omega
  · rw [containerBytes, List.take_left' (toLe_length 4 _), fromLe_toLe h]

theorem jsonbContainer_array {items : List Json} (hcount : items.length < 2 ^ 28)
    (hslots : Slots JsonbBody 0 items jes data)
    (hwrite : ∀ {v body}, v ∈ items → JsonbBody v jentryIsContainer body → write body = .ok v.text) :
    jsonbContainer write (containerBytes (jbFarray + items.length) jes data) =
      .ok (Json.array items).text := by
  obtain ⟨hmask, hobject, hscalar⟩ := header_masks (k := 4) hcount
  obtain ⟨hlen, hheader⟩ := containerBytes_header jes data
    (show jbFarray + items.length < 256 ^ 4 by unfold jbFarray; omega)
  rw [show (4 * 2 ^ 28 : Nat) = jbFarray by rfl] at hmask hobject hscalar
  have hmap := mapM_range_ok (jsonbValue_slots (jbFarray + items.length) write hslots hwrite)
  simp only [jsonbContainer, if_neg hlen, hheader, hmask, hobject, hscalar, ne_eq, Nat.reduceDiv,
    Nat.reduceMod, Nat.zero_mul, not_true_eq_false, if_false, jsonbEnds_slots _ hslots, bind, Except.bind, hmap, Json.text, Json.itemTexts_eq_map]
  rfl

theorem jsonbContainer_scalar {v : Json} (hslots : Slots JsonbBody 0 [v] jes data) (hscalar : v.depth = 0) :
    jsonbContainer write (containerBytes (jbFarray + jbFscalar + 1) jes data) = .ok v.text := by
  have hwrite : ∀ {w body}, w ∈ [v] → JsonbBody w jentryIsContainer body → write body = .ok w.text := by
    intro w body hw hbody
    rw [List.mem_singleton.mp hw] at hbody
    cases hbody <;> simp [Json.depth] at hscalar
  have hvalue := jsonbValue_slots (jbFarray + jbFscalar + 1) write hslots hwrite (i := 0) rfl
  obtain ⟨hlen, hheader⟩ := containerBytes_header jes data
    (show jbFarray + jbFscalar + 1 < 256 ^ 4 by decide)
  have hends := jsonbEnds_slots (jbFarray + jbFscalar + 1) hslots
  simp only [jsonbContainer, if_neg hlen, hheader]
  exact (congrArg (· >>= _) hends).trans hvalue

theorem objectElems_key {members : List (String × Json)} {i : Nat} {m : String × Json}
    (h : members[i]? = some m) : (objectElems members)[i]? = some (.string m.1) := by
  obtain ⟨hlt, -⟩ := List.getElem?_eq_some_iff.mp h
  rw [objectElems, List.getElem?_append_left (by simpa using hlt), List.getElem?_map, h]
  rfl

theorem objectElems_value {members : List (String × Json)} {i : Nat} {m : String × Json}
    (h : members[i]? = some m) : (objectElems members)[members.length + i]? = some m.2 := by
  rw [objectElems, List.getElem?_append_right (by simp), List.length_map, Nat.add_sub_cancel_left,
    List.getElem?_map, h]
  rfl

theorem jsonbContainer_object {members : List (String × Json)} (hcount : members.length < 2 ^ 28)
    (hslots : Slots JsonbBody 0 (objectElems members) jes data)
    (hwrite : ∀ {v body}, v ∈ objectElems members → JsonbBody v jentryIsContainer body →
      write body = .ok v.text) :
    jsonbContainer write (containerBytes (jbFobject + members.length) jes data) =
      .ok (Json.object members).text := by
  obtain ⟨hmask, hobject, hscalar⟩ := header_masks (k := 2) hcount
  obtain ⟨hlen, hheader⟩ := containerBytes_header jes data
    (show jbFobject + members.length < 256 ^ 4 by unfold jbFobject; omega)
  rw [show (2 * 2 ^ 28 : Nat) = jbFobject by rfl] at hmask hobject hscalar
  have helems : (objectElems members).length = members.length * 2 := by
    simp [objectElems]
    omega
  have hvalue := fun {i : Nat} {v : Json} =>
    jsonbValue_slots (jbFobject + members.length) write hslots hwrite (i := i) (v := v)
  have hends := jsonbEnds_slots (jbFobject + members.length) hslots
  rw [helems] at hvalue hends
  let value := jsonbValue write (containerBytes (jbFobject + members.length) jes data) (endsOf 0 jes)
    (4 + members.length * 2 * 4)
  let member : Nat → Except Fault (List Char) := fun p => do
    let key ← value p
    let val ← value (members.length + p)
    return key ++ ": ".toList ++ val
  have hmap : (List.range members.length).mapM member =
      .ok (members.map fun m => jsonString m.1 ++ ": ".toList ++ m.2.text) := by
    refine mapM_range_ok fun {i m} hm => ?_
    have hkey : value i = .ok (jsonString m.1) := hvalue (objectElems_key hm)
    have hval : value (members.length + i) = .ok m.2.text := hvalue (objectElems_value hm)
    simp only [member, hkey, hval]
    rfl
  simp only [jsonbContainer, if_neg hlen, hheader, hmask, hobject, hscalar]
  refine (congrArg (· >>= _) hends).trans ?_
  change ((List.range members.length).mapM member >>= fun ms =>
    pure ('\x7b' :: (", ".toList).intercalate ms ++ ['\x7d'])) = _
  rw [hmap, Json.text, Json.memberTexts_eq_map]
  rfl

end Render

/-! ## Text of a document -/

theorem jsonbWrite_body :
    ∀ {n : Nat} {v : Json} {c : Bytes}, JsonbBody v jentryIsContainer c → v.depth ≤ n →
      jsonbWrite n c = .ok v.text := by
  intro n
  induction n with
  | zero =>
    intro v c h hdepth
    cases h <;> simp [Json.depth] at hdepth
  | succ n ih =>
    intro v c h hdepth
    cases h with
    | array hcount hslots =>
      rw [Json.depth] at hdepth
      refine jsonbContainer_array hcount hslots fun {w body} hw hbody => ih hbody ?_
      have := Json.depth_le_itemsDepth hw
      omega
    | @object members jes data hcount hslots =>
      rw [Json.depth] at hdepth
      refine jsonbContainer_object hcount hslots fun {w body} hw hbody => ih hbody ?_
      rcases List.mem_append.mp hw with hkey | hval
      · obtain ⟨m, -, rfl⟩ := List.mem_map.mp hkey
        exact Nat.zero_le n
      · obtain ⟨m, hm, rfl⟩ := List.mem_map.mp hval
        have := Json.depth_le_membersDepth hm
        omega

theorem jsonbWrite_doc {v : Json} {c : Bytes} (h : JsonbDoc v c) (hdepth : v.depth ≤ 201) :
    jsonbWrite 201 c = .ok v.text := by
  cases h with
  | container hbody => exact jsonbWrite_body hbody hdepth
  | scalar hslots hscalar => exact jsonbContainer_scalar hslots hscalar

/-- The decoder prints the document a container lays out. -/
theorem jsonbToString_doc {v : Json} {c : Bytes} (h : JsonbDoc v c) (hdepth : v.depth ≤ 201) :
    jsonbToString c = .ok (String.ofList v.text) := by
  rw [jsonbToString, jsonbWrite_doc h hdepth]
  rfl

/-- The number 1. -/
def NumericDatum.one : NumericDatum := ⟨[0x00, 0x80, 0x01, 0x00], "1", by decide +kernel⟩

/-- An object with the member "a", an array of the number 1 and true. -/
def Json.sample : Json := .object [("a", .array [.numeric .one, .bool true])]

def sampleItems : Bytes :=
  containerBytes (jbFarray + 2) [entryWord jentryIsNumeric false 5 5, entryWord jentryIsBoolTrue true 5 0]
    (11 :: NumericDatum.one.payload)

def sampleDoc : Bytes :=
  containerBytes (jbFobject + 1) [entryWord jentryIsString false 1 1, entryWord jentryIsContainer false 21 20]
    (97 :: [0, 0, 0] ++ sampleItems)

theorem jsonbBody_sampleItems :
    JsonbBody (.array [.numeric .one, .bool true]) jentryIsContainer sampleItems := by
  have hlast : Slots JsonbBody 5 [.bool true] [entryWord jentryIsBoolTrue true 5 0] ([] ++ [] ++ []) :=
    @Slots.cons JsonbBody 5 _ _ _ _ [] [] [] true .boolTrue rfl (by decide) (.nil _)
  have hitems : Slots JsonbBody 0 [.numeric .one, .bool true]
      [entryWord jentryIsNumeric false 5 5, entryWord jentryIsBoolTrue true 5 0]
      ([] ++ (11 :: NumericDatum.one.payload) ++ ([] ++ [] ++ [])) :=
    @Slots.cons JsonbBody 0 _ _ _ _ [] (11 :: NumericDatum.one.payload) _ false
      (.numeric (.short (by decide))) rfl (by decide) hlast
  exact .array (by decide) hitems

theorem jsonbDoc_sample : JsonbDoc .sample sampleDoc := by
  have hvalue : Slots JsonbBody 1 [.array [.numeric .one, .bool true]]
      [entryWord jentryIsContainer false 21 20] ([0, 0, 0] ++ sampleItems ++ []) :=
    @Slots.cons JsonbBody 1 _ _ _ _ [0, 0, 0] _ [] false jsonbBody_sampleItems rfl (by decide) (.nil _)
  have helems : Slots JsonbBody 0 (objectElems [("a", .array [.numeric .one, .bool true])])
      [entryWord jentryIsString false 1 1, entryWord jentryIsContainer false 21 20]
      ([] ++ Utf8.encode "a" ++ ([0, 0, 0] ++ sampleItems ++ [])) :=
    @Slots.cons JsonbBody 0 _ _ _ _ [] (Utf8.encode "a") _ false (.string "a") rfl (by decide) hvalue
  exact .container (.object (by decide) helems)

theorem jsonbToString_sample :
    JsonbDoc .sample sampleDoc ∧ jsonbToString sampleDoc = .ok (String.ofList Json.sample.text) :=
  ⟨jsonbDoc_sample, jsonbToString_doc jsonbDoc_sample (by decide)⟩

example : String.ofList Json.sample.text = "\x7b\"a\": [1, true]\x7d" := by decide +kernel

end Ltap
