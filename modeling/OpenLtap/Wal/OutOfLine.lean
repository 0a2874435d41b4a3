-- SUMMARY: Out-of-line values: chunks in any order, put together again behind a pointer.
import OpenLtap.Wal.Datum

/-!
# Out-of-line values

A large value is stored in numbered chunks, as it is or compressed, and a pointer is left in
the tuple. The chunks are buffered as they come. The pointer reads as the value if they are all
there and no other is.
-/

namespace Ltap

/-! ## Pieces in order -/

section Pieces

variable {seq : Int} {data : Bytes} {cs : List (Int × Bytes)}

theorem mem_insertChunk {c : Int × Bytes} (h : c ∈ insertChunk seq data cs) : c = (seq, data) ∨ c ∈ cs := by
  induction cs with
  | nil => exact .inl (List.mem_singleton.mp h)
  | cons head rest ih =>
    obtain ⟨s, d⟩ := head
    rw [insertChunk] at h
    split at h
    · exact List.mem_cons.mp h
    · split at h
      · exact (List.mem_cons.mp h).imp_right (List.mem_cons_of_mem _)
      · rcases List.mem_cons.mp h with rfl | h
        · exact .inr List.mem_cons_self
        · exact (ih h).imp_right (List.mem_cons_of_mem _)

/-- The number inserted is there, and so are those that were. -/
theorem insertChunk_keys {s : Int} : s ∈ (insertChunk seq data cs).map (·.1) ↔ s = seq ∨ s ∈ cs.map (·.1) := by
  induction cs with
  | nil => simp [insertChunk]
  | cons head rest ih =>
    obtain ⟨t, d⟩ := head
    rw [insertChunk]
    split
    · simp
    · split
      · rename_i heq
        simp [heq]
      · rw [List.map_cons, List.mem_cons, ih, List.map_cons, List.mem_cons]
        exact or_left_comm

theorem insertChunk_sorted (h : cs.Pairwise (·.1 < ·.1)) : (insertChunk seq data cs).Pairwise (·.1 < ·.1) := by
  induction cs with
  | nil => exact List.pairwise_singleton _ _
  | cons head rest ih =>
    obtain ⟨s, d⟩ := head
    obtain ⟨hhead, hrest⟩ := List.pairwise_cons.mp h
    rw [insertChunk]
    split
    · rename_i hlt
      refine List.pairwise_cons.mpr ⟨?_, h⟩
      intro c hc
      rcases List.mem_cons.mp hc with rfl | hc
      · exact hlt
      · exact hlt.trans (hhead c hc)
    · split
      · rename_i heq
        exact List.pairwise_cons.mpr ⟨heq ▸ hhead, hrest⟩
      · refine List.pairwise_cons.mpr ⟨?_, ih hrest⟩
        intro c hc
        rcases mem_insertChunk hc with rfl | hc
        · simp only
          omega
        · exact hhead c hc

/-- All pieces, inserted one by one. -/
def inserted (pieces cs : List (Int × Bytes)) : List (Int × Bytes) :=
  pieces.foldl (fun cs p => insertChunk p.1 p.2 cs) cs

theorem inserted_spec (pieces : List (Int × Bytes)) {cs : List (Int × Bytes)} (h : cs.Pairwise (·.1 < ·.1)) :
    (inserted pieces cs).Pairwise (·.1 < ·.1) ∧ (∀ c ∈ inserted pieces cs, c ∈ pieces ∨ c ∈ cs) ∧
      ∀ s, s ∈ (inserted pieces cs).map (·.1) ↔ s ∈ pieces.map (·.1) ∨ s ∈ cs.map (·.1) := by
  induction pieces generalizing cs with
  | nil => simp [inserted, h]
  | cons p pieces ih =>
    have hinsert : (insertChunk p.1 p.2 cs).Pairwise (·.1 < ·.1) := insertChunk_sorted h
    obtain ⟨hsorted, hmem, hkeys⟩ := ih hinsert
    refine ⟨hsorted, ?_, ?_⟩
    · intro c hc
      rcases hmem c hc with hc | hc
      · exact .inl (List.mem_cons_of_mem _ hc)
      · rcases mem_insertChunk hc with rfl | hc
        · exact .inl List.mem_cons_self
        · exact .inr hc
    · intro s
      refine (hkeys s).trans ?_
      rw [insertChunk_keys, List.map_cons, List.mem_cons, or_assoc, or_left_comm]

/-- The numbers count up from `i`. -/
def Numbered : Nat → List (Int × Bytes) → Prop
  | _, [] => True
  | i, (s, _) :: rest => s = i ∧ Numbered (i + 1) rest

/-- The pieces are put together if their numbers count up, and otherwise one is reported missing. -/
theorem ToastCache.assemble_cases (valueid : Oid) (i : Nat) (cs : List (Int × Bytes)) :
    (Numbered i cs ∧ assemble valueid i cs = .ok (cs.flatMap (·.2))) ∨
      (¬ Numbered i cs ∧ ∃ what, assemble valueid i cs = bail what) := by
  induction cs generalizing i with
  | nil => exact .inl ⟨trivial, rfl⟩
  | cons head rest ih =>
    obtain ⟨s, d⟩ := head
    by_cases hs : s = i
    · simp only [Numbered, assemble, hs, true_and, ne_eq, not_true_eq_false, if_false]
      rcases ih (i + 1) with ⟨hnum, hok⟩ | ⟨hnum, what, hbail⟩
      · exact .inl ⟨hnum, by rw [hok]; rfl⟩
      · exact .inr ⟨hnum, what, by rw [hbail]; rfl⟩
    · refine .inr ⟨fun h => hs h.1, ?_⟩
      rw [assemble, if_pos hs]
      exact ⟨_, rfl⟩

/-! ## Pieces of a value -/

variable {chunks : List Bytes}

/-- A chunk under its number, or something more under another. -/
def Genuine (chunks : List Bytes) (c : Int × Bytes) : Prop := ∃ k : Nat, c.1 = k ∧ chunks[k]? = some c.2

def Extra (chunks : List Bytes) (c : Int × Bytes) : Prop := (∀ k : Nat, k < chunks.length → c.1 ≠ k) ∧ c.2 ≠ []

theorem genuine_drop {i : Nat} {d : Bytes} (h : Genuine chunks ((i : Int), d)) :
    chunks.drop i = d :: chunks.drop (i + 1) := by
  obtain ⟨k, hk, hd⟩ := h
  obtain rfl : i = k := Int.ofNat.inj hk
  obtain ⟨hlt, rfl⟩ := List.getElem?_eq_some_iff.mp hd
  exact List.drop_eq_getElem_cons hlt

/-- In order and complete, the pieces are the chunks. -/
theorem complete_pieces {i : Nat} {cs : List (Int × Bytes)} (hsorted : cs.Pairwise (·.1 < ·.1))
    (hge : ∀ c ∈ cs, (i : Int) ≤ c.1) (hgenuine : ∀ c ∈ cs, Genuine chunks c)
    (hall : ∀ k : Nat, i ≤ k → k < chunks.length → (k : Int) ∈ cs.map (·.1)) :
    Numbered i cs ∧ cs.flatMap (·.2) = (chunks.drop i).flatten := by
  induction cs generalizing i with
  | nil =>
    have hlen : chunks.length ≤ i := by
      by_contra hlt
      exact absurd (hall i le_rfl (not_le.mp hlt)) List.not_mem_nil
    rw [List.drop_of_length_le hlen]
    exact ⟨trivial, rfl⟩
  | cons head rest ih =>
    obtain ⟨s, d⟩ := head
    obtain ⟨hhead, hrest⟩ := List.pairwise_cons.mp hsorted
    obtain ⟨k, hk, hd⟩ := hgenuine (s, d) List.mem_cons_self
    have hlt := (List.getElem?_eq_some_iff.mp hd).1
    have hik : (i : Int) ≤ s := hge (s, d) List.mem_cons_self
    simp only at hk
    -- The first number is `i`: else the piece `i` would stand behind a greater one.
    have hs : s = i := by
      rcases List.mem_cons.mp (hall i le_rfl (by omega)) with heq | hmem
      · exact heq.symm
      · obtain ⟨c, hc, hci⟩ := List.mem_map.mp hmem
        have := hhead c hc
        simp only at this
        omega
    subst hs
    have hnext := ih (i := i + 1) hrest
      (fun c hc => by have := hhead c hc; push_cast; simp only at this; omega)
      (fun c hc => hgenuine c (List.mem_cons_of_mem _ hc))
      (fun j hj hlt => by
        rcases List.mem_cons.mp (hall j (by omega) hlt) with heq | hmem
        · simp only at heq
          omega
        · exact hmem)
    refine ⟨⟨rfl, hnext.1⟩, ?_⟩
    rw [genuine_drop (hgenuine _ List.mem_cons_self), List.flatMap_cons, List.flatten_cons, hnext.2]

/-- In order but not all there, they are too short. -/
theorem missing_pieces {i k : Nat} {cs : List (Int × Bytes)} (hne : ∀ c ∈ chunks, c ≠ [])
    (hnum : Numbered i cs) (hgenuine : ∀ c ∈ cs, Genuine chunks c) (hik : i ≤ k) (hk : k < chunks.length)
    (hmissing : (k : Int) ∉ cs.map (·.1)) :
    (cs.flatMap (·.2)).length < (chunks.drop i).flatten.length := by
  induction cs generalizing i with
  | nil =>
    have hi : i < chunks.length := by omega
    rw [List.drop_eq_getElem_cons hi, List.flatten_cons, List.length_append]
    have := List.length_pos_iff.mpr (hne chunks[i] (List.getElem_mem hi))
    simp only [List.flatMap_nil, List.length_nil]
    omega
  | cons head rest ih =>
    obtain ⟨s, d⟩ := head
    obtain ⟨rfl, hnum⟩ := hnum
    rw [List.map_cons, List.mem_cons, not_or] at hmissing
    have hki : i ≠ k := fun heq => hmissing.1 (by rw [heq])
    have hrest := ih hnum (fun c hc => hgenuine c (List.mem_cons_of_mem _ hc)) (by omega) hmissing.2
    rw [genuine_drop (hgenuine _ List.mem_cons_self), List.flatMap_cons, List.flatten_cons, List.length_append,
      List.length_append]
    exact Nat.add_lt_add_left hrest _

/-- In order and with one more, they are too long. -/
theorem extra_pieces {i : Nat} {cs : List (Int × Bytes)} (hnum : Numbered i cs)
    (hpieces : ∀ c ∈ cs, Genuine chunks c ∨ Extra chunks c) (hextra : ∃ c ∈ cs, Extra chunks c) :
    (chunks.drop i).flatten.length < (cs.flatMap (·.2)).length := by
  induction cs generalizing i with
  | nil =>
    obtain ⟨c, hc, -⟩ := hextra
    cases hc
  | cons head rest ih =>
    obtain ⟨s, d⟩ := head
    obtain ⟨rfl, hnum⟩ := hnum
    rw [List.flatMap_cons, List.length_append]
    by_cases hi : i < chunks.length
    · have hgenuine : Genuine chunks ((i : Int), d) := by
        rcases hpieces _ List.mem_cons_self with hgenuine | hextra
        · exact hgenuine
        · exact absurd rfl (hextra.1 i hi)
      have hrest := ih hnum (fun c hc => hpieces c (List.mem_cons_of_mem _ hc)) (by
        obtain ⟨c, hc, hc'⟩ := hextra
        rcases List.mem_cons.mp hc with rfl | hc
        · exact absurd rfl (hc'.1 i hi)
        · exact ⟨c, hc, hc'⟩)
      rw [genuine_drop hgenuine, List.flatten_cons, List.length_append]
      exact Nat.add_lt_add_left hrest _
    · have hd : d ≠ [] := by
        rcases hpieces _ List.mem_cons_self with ⟨k, hk, hd⟩ | hextra
        · have := (List.getElem?_eq_some_iff.mp hd).1
          simp only at hk
          omega
        · exact hextra.2
      rw [List.drop_of_length_le (not_lt.mp hi)]
      have := List.length_pos_iff.mpr hd
      simp only [List.flatten_nil, List.length_nil]
      omega

end Pieces

/-! ## The cache -/

/-- A row of a toast table as it arrives, with its chunk stored in line. -/
structure ToastRow (z : Codecs) where
  xid : Xid
  valueid : Oid
  seq : Int
  data : Bytes
  hoff : Nat
  bits : Bytes
  stored : Bytes
  valueid_lt : valueid < 2 ^ 32
  seq_ge : -2 ^ 31 ≤ seq
  seq_lt : seq < 2 ^ 31
  hoff_eq : hoff = sizeofHeapTupleHeader + bits.length
  inline : VarlenaAt z data 8 stored

namespace ToastRow

variable {z : Codecs} (t : ToastRow z)

def payload : Bytes := t.bits ++ (toLe 4 t.valueid ++ (toLe 4 (toTwos 32 t.seq) ++ t.stored))

def piece : Int × Bytes := (t.seq, t.data)

theorem decodeToastChunk_payload : decodeToastChunk z t.payload t.hoff = .ok (t.valueid, t.seq, t.data) := by
  have hhoff := t.hoff_eq
  have hbits : t.hoff - sizeofHeapTupleHeader = t.bits.length := by omega
  have hlong : ¬ t.payload.length < t.bits.length := by
    rw [payload, List.length_append]
    omega
  have hdrop : t.payload.drop t.bits.length = toLe 4 t.valueid ++ (toLe 4 (toTwos 32 t.seq) ++ t.stored) :=
    List.drop_left' rfl
  have hid : slice (toLe 4 t.valueid ++ (toLe 4 (toTwos 32 t.seq) ++ t.stored)) 0 4 = some (toLe 4 t.valueid) :=
    slice_append List.length_nil (toLe_length 4 _)
  have hseq : slice (toLe 4 t.valueid ++ (toLe 4 (toTwos 32 t.seq) ++ t.stored)) 4 4 =
      some (toLe 4 (toTwos 32 t.seq)) := slice_append (toLe_length 4 _) (toLe_length 4 _)
  have hinline : VarlenaAt z t.data (toLe 4 t.valueid ++ toLe 4 (toTwos 32 t.seq)).length t.stored := t.inline
  have hdata := hinline.decodeVarlena ToastCache.empty []
  rw [List.append_nil, List.append_assoc, List.length_append, toLe_length, toLe_length] at hdata
  have hvalueid : fromLe (toLe 4 t.valueid) = t.valueid := fromLe_toLe t.valueid_lt
  have hseqnum : fromTwos 32 (fromLe (toLe 4 (toTwos 32 t.seq))) = t.seq := by
    rw [fromLe_toLe (toTwos_lt 32 t.seq), fromTwos_toTwos (by decide) t.seq_ge t.seq_lt]
  rw [decodeToastChunk, if_neg (by omega), hbits, if_neg hlong]
  simp only [hdrop, hid, hseq, bind, Except.bind, hdata, hvalueid, hseqnum]
  rfl

end ToastRow

namespace ToastCache

/-- Decode an arriving row and keep its chunk. -/
def buffer (z : Codecs) (c : ToastCache) (row : Xid × Bytes × Nat) : Except Fault ToastCache := do
  let (valueid, seq, data) ← decodeToastChunk z row.2.1 row.2.2
  return c.addChunk row.1 valueid seq data

variable {z : Codecs} {valueid : Oid}

/-- The rows of one value among those that arrived. -/
def piecesOf (valueid : Oid) (rows : List (ToastRow z)) : List (Int × Bytes) :=
  (rows.filter (·.valueid = valueid)).map (·.piece)

theorem mem_piecesOf {rows : List (ToastRow z)} {p : Int × Bytes} :
    p ∈ piecesOf valueid rows ↔ ∃ t ∈ rows, t.valueid = valueid ∧ t.piece = p := by
  simp only [piecesOf, List.mem_map, List.mem_filter, decide_eq_true_eq, and_assoc]

/-- Rows of other values do not matter, and those of the value are inserted. -/
theorem buffer_lookup (valueid : Oid) (rows : List (ToastRow z)) (c : ToastCache) :
    ∃ c', (rows.map fun t => (t.xid, t.payload, t.hoff)).foldlM (buffer z) c = .ok c' ∧
      (∀ owner cs, c.vals.lookup valueid = some (owner, cs) →
        c'.vals.lookup valueid = some (owner, inserted (piecesOf valueid rows) cs)) ∧
      (c.vals.lookup valueid = none → piecesOf valueid rows ≠ [] →
        ∃ owner, c'.vals.lookup valueid = some (owner, inserted (piecesOf valueid rows) [])) := by
  induction rows generalizing c with
  | nil => exact ⟨c, rfl, fun _ _ h => h, fun _ h => absurd rfl h⟩
  | cons t rows ih =>
    obtain ⟨c', hrun, hsome, hnone⟩ := ih (c.addChunk t.xid t.valueid t.seq t.data)
    refine ⟨c', ?_, ?_⟩
    · simp only [List.map_cons, List.foldlM_cons, buffer, t.decodeToastChunk_payload, bind, Except.bind]
      exact hrun
    by_cases ht : t.valueid = valueid
    · subst ht
      have hpieces : piecesOf t.valueid (t :: rows) = t.piece :: piecesOf t.valueid rows := by
        rw [piecesOf, List.filter_cons_of_pos (by simp), List.map_cons, piecesOf]
      rw [hpieces]
      refine ⟨?_, ?_⟩
      · intro owner cs h
        refine hsome owner (insertChunk t.seq t.data cs) ?_
        simp only [addChunk, h, Option.getD_some, AList.lookup_insert]
      · intro h _
        refine ⟨t.xid, hsome t.xid (insertChunk t.seq t.data []) ?_⟩
        simp only [addChunk, h, Option.getD_none, AList.lookup_insert]
    · have hpieces : piecesOf valueid (t :: rows) = piecesOf valueid rows := by
        rw [piecesOf, List.filter_cons_of_neg (by simpa using ht), piecesOf]
      have hlook : (c.addChunk t.xid t.valueid t.seq t.data).vals.lookup valueid = c.vals.lookup valueid := by
        simp only [addChunk, AList.lookup_insert_ne (Ne.symm ht)]
      rw [hpieces, ← hlook]
      exact ⟨hsome, hnone⟩

end ToastCache

/-! ## Stored values -/

/-- What is stored of a value, by compression method. A compressed value has its raw size and the
method in front. -/
inductive StoredForm (z : Codecs) (value : Bytes) : Nat → Bytes → Prop where
  | raw : StoredForm z value 0 value
  | pglz {tokens : List PglzToken} : Spells value 0 tokens →
    4 + (pglzStream tokens).length < value.length →
    StoredForm z value 0 (toLe 4 value.length ++ pglzStream tokens)
  | lz4 {stream : Bytes} : z.lz4 stream value.length = .ok value →
    4 + stream.length < value.length → StoredForm z value 1 (toLe 4 (value.length + 2 ^ 30) ++ stream)

/-- A value out of line: what is stored of it, and how that is split. -/
structure OutOfLine (z : Codecs) where
  value : Bytes
  method : Nat
  stored : Bytes
  chunks : List Bytes
  valueid : Oid
  toastrelid : Oid
  form : StoredForm z value method stored
  value_ne : value ≠ []
  value_lt : value.length < 2 ^ 30
  split : chunks.flatten = stored
  chunks_ne : ∀ c ∈ chunks, c ≠ []
  valueid_lt : valueid < 2 ^ 32

namespace OutOfLine

variable {z : Codecs} (o : OutOfLine z)

/-- `varatt_external`, with the size and the method of what is stored in one word. -/
def pointer : Bytes :=
  [0x01, 18] ++ (toLe 4 (o.value.length + 4) ++ (toLe 4 (o.stored.length + o.method * 2 ^ 30) ++
    (toLe 4 o.valueid ++ toLe 4 o.toastrelid)))

theorem stored_lt : o.stored.length < 2 ^ 30 ∧ o.method < 2 := by
  have hlt := o.value_lt
  have hform := o.form
  generalize o.method = m, o.stored = stored at hform ⊢
  cases hform with
  | raw => exact ⟨hlt, by decide⟩
  | pglz _ h =>
    rw [List.length_append, toLe_length]
    exact ⟨h.trans hlt, by decide⟩
  | lz4 _ h =>
    rw [List.length_append, toLe_length]
    exact ⟨h.trans hlt, by decide⟩

theorem stored_ne : o.stored ≠ [] := by
  have hne := o.value_ne
  have hform := o.form
  generalize o.method = m, o.stored = stored at hform ⊢
  cases hform with
  | raw => exact hne
  | pglz _ _ => simp [toLe]
  | lz4 _ _ => simp [toLe]

theorem chunks_pos : 0 < o.chunks.length := by
  have hne := o.stored_ne
  rw [← o.split] at hne
  refine List.length_pos_iff.mpr ?_
  intro hnil
  exact hne (by rw [hnil, List.flatten_nil])

/-- The two parts of the word. -/
theorem extinfo_parts {size : Nat} (method : Nat) (hsize : size < 2 ^ 30) :
    (size + method * 2 ^ 30) &&& 0x3FFFFFFF = size ∧ (size + method * 2 ^ 30) >>> 30 = method := by
  constructor
  · rw [show 0x3FFFFFFF = 2 ^ 30 - 1 by rfl, Nat.and_two_pow_sub_one_eq_mod]
    omega
  · rw [Nat.shiftRight_eq_div_pow]
    omega

variable (c : ToastCache)

theorem decodeVarlena_pointer (before after : Bytes) :
    decodeVarlena z c (before ++ (o.pointer ++ after)) before.length =
      if c.contains o.valueid then do
        let bytes ← c.resolve z o.valueid (o.value.length + 4) (o.stored.length + o.method * 2 ^ 30)
        return (some bytes, before.length + 18)
      else .ok (none, before.length + 18) := by
  obtain ⟨hstored, hmethod⟩ := o.stored_lt
  have hvalue := o.value_lt
  let fields := toLe 4 (o.value.length + 4) ++ (toLe 4 (o.stored.length + o.method * 2 ^ 30) ++
    (toLe 4 o.valueid ++ toLe 4 o.toastrelid))
  have hdata : before ++ (o.pointer ++ after) = before ++ (0x01 :: 18 :: (fields ++ after)) := rfl
  have hfirst : (before ++ (0x01 :: 18 :: (fields ++ after)))[before.length]? = some 0x01 := by
    rw [List.getElem?_append_right le_rfl, Nat.sub_self]
    rfl
  have htag : (before ++ (0x01 :: 18 :: (fields ++ after)))[before.length + 1]? = some 18 := by
    rw [List.getElem?_append_right (Nat.le_add_right _ _), Nat.add_sub_cancel_left]
    rfl
  have hslice : slice (before ++ (0x01 :: 18 :: (fields ++ after))) (before.length + 2) 16 = some fields := by
    rw [show before ++ (0x01 :: 18 :: (fields ++ after)) = (before ++ [0x01, 18]) ++ (fields ++ after) by simp]
    exact slice_append (by rw [List.length_append]; rfl) (by simp only [fields, List.length_append, toLe_length])
  have h₁ : fields.take 4 = toLe 4 (o.value.length + 4) := List.take_left' (toLe_length 4 _)
  have h₂ : (fields.drop 4).take 4 = toLe 4 (o.stored.length + o.method * 2 ^ 30) := by
    rw [List.drop_left' (toLe_length 4 _)]
    exact List.take_left' (toLe_length 4 _)
  have h₃ : (fields.drop 8).take 4 = toLe 4 o.valueid := by
    rw [show fields.drop 8 = (fields.drop 4).drop 4 by rw [List.drop_drop], List.drop_left' (toLe_length 4 _),
      List.drop_left' (toLe_length 4 _)]
    exact List.take_left' (toLe_length 4 _)
  have hraw : fromTwos 32 (fromLe (toLe 4 (o.value.length + 4))) = o.value.length + 4 := by
    rw [fromLe_toLe (by omega), fromTwos, if_pos (by omega)]
    push_cast
    rfl
  have hinfo : fromLe (toLe 4 (o.stored.length + o.method * 2 ^ 30)) = o.stored.length + o.method * 2 ^ 30 :=
    fromLe_toLe (by omega)
  have hid : fromLe (toLe 4 o.valueid) = o.valueid := fromLe_toLe o.valueid_lt
  rw [hdata, decodeVarlena, hfirst]
  simp only [if_true, decodeExternal, htag, ne_eq, not_true_eq_false, if_false, hslice, h₁, h₂, h₃, hraw, hinfo, hid]
  rfl

/-- The stored bytes, put together, are the value. -/
theorem resolve_stored {owner : Xid} {cs : List (Int × Bytes)} (hlook : c.vals.lookup o.valueid = some (owner, cs))
    (hassemble : ToastCache.assemble o.valueid 0 cs = .ok o.stored) :
    c.resolve z o.valueid (o.value.length + 4) (o.stored.length + o.method * 2 ^ 30) = .ok o.value := by
  obtain ⟨hsize, hmethod⟩ := extinfo_parts o.method o.stored_lt.1
  have hvalue := o.value_lt
  have hcast : toTwos 64 ((o.value.length : Int) + 4) = o.value.length + 4 := by
    rw [toTwos]
    omega
  have hnat : ¬ o.value.length + 4 < 4 := by omega
  simp only [ToastCache.resolve, hlook, hassemble, bind, Except.bind, hsize, hmethod, ne_eq, not_true_eq_false,
    if_false, hcast, if_neg hnat, Nat.add_sub_cancel]
  have hmax : ¬ (2 ^ 63 ≤ o.value.length) := by omega
  generalize hm : o.method = m, hs : o.stored = stored
  have hform := o.form
  rw [hm, hs] at hform
  cases hform with
  | raw => rw [if_pos rfl]; rfl
  | @pglz tokens hspells hshort =>
    have hlen : (toLe 4 o.value.length ++ pglzStream tokens).length = 4 + (pglzStream tokens).length := by
      rw [List.length_append, toLe_length]
    rw [hlen, if_neg (by omega), if_neg (by omega), List.drop_left' (toLe_length 4 _), Codecs.decompressDatum,
      if_neg (fun h => hmax h.2), if_pos rfl]
    exact pglzDecompress_spelled hspells
  | @lz4 stream hinverse hshort =>
    have hlen : (toLe 4 (o.value.length + 2 ^ 30) ++ stream).length = 4 + stream.length := by
      rw [List.length_append, toLe_length]
    rw [hlen, if_neg (by omega), if_neg (by omega), List.drop_left' (toLe_length 4 _), Codecs.decompressDatum,
      if_neg (fun h => hmax h.2), if_neg (by decide), if_pos rfl, Codecs.lz4Decompress, hinverse]
    simp only [ne_eq, not_true_eq_false, if_false]

/-- Pieces of another total length are refused. -/
theorem resolve_other {owner : Xid} {cs : List (Int × Bytes)} (hlook : c.vals.lookup o.valueid = some (owner, cs))
    (hother : ¬ Numbered 0 cs ∨ (cs.flatMap (·.2)).length ≠ o.stored.length) :
    ∃ what, c.resolve z o.valueid (o.value.length + 4) (o.stored.length + o.method * 2 ^ 30) = bail what := by
  have hsize := (extinfo_parts o.method o.stored_lt.1).1
  rcases ToastCache.assemble_cases o.valueid 0 cs with ⟨hnum, hok⟩ | ⟨-, what, hbail⟩
  · have hlen := hother.resolve_left (not_not_intro hnum)
    simp only [ToastCache.resolve, hlook, hok, bind, Except.bind, hsize, if_pos hlen]
    exact ⟨_, rfl⟩
  · simp only [ToastCache.resolve, hlook, hbail, bind, Except.bind, bail]
    exact ⟨_, rfl⟩

variable {o} {c}

theorem contains_of_lookup {entry : Xid × List (Int × Bytes)} (h : c.vals.lookup o.valueid = some entry) :
    c.contains o.valueid = true := by
  rw [ToastCache.contains, h]
  rfl

/-- The pieces in the cache are the chunks if all have come and nothing else. -/
theorem inserted_complete {pieces : List (Int × Bytes)} (hgenuine : ∀ p ∈ pieces, Genuine o.chunks p)
    (hall : ∀ k : Nat, k < o.chunks.length → (k : Int) ∈ pieces.map (·.1)) :
    ToastCache.assemble o.valueid 0 (inserted pieces []) = .ok o.stored := by
  obtain ⟨hsorted, hmem, hkeys⟩ := inserted_spec pieces List.Pairwise.nil
  have hgenuine' : ∀ p ∈ inserted pieces [], Genuine o.chunks p := by
    intro p hp
    exact hgenuine p ((hmem p hp).resolve_right List.not_mem_nil)
  obtain ⟨hnum, hflat⟩ := complete_pieces (i := 0) hsorted
    (fun p hp => by
      obtain ⟨k, hk, -⟩ := hgenuine' p hp
      omega)
    hgenuine' (fun k _ hk => (hkeys k).mpr (.inl (hall k hk)))
  rw [List.drop_zero, o.split] at hflat
  rcases ToastCache.assemble_cases o.valueid 0 (inserted pieces []) with ⟨-, hok⟩ | ⟨hnot, -⟩
  · rw [hok, hflat]
  · exact absurd hnum hnot

/-- With a chunk missing or one too many, they are out of order or of another length. -/
theorem inserted_other {pieces : List (Int × Bytes)}
    (hpieces : ∀ p ∈ pieces, Genuine o.chunks p ∨ Extra o.chunks p)
    (hbad : (∃ k : Nat, k < o.chunks.length ∧ (k : Int) ∉ pieces.map (·.1)) ∨ ∃ p ∈ pieces, Extra o.chunks p) :
    ¬ Numbered 0 (inserted pieces []) ∨ ((inserted pieces []).flatMap (·.2)).length ≠ o.stored.length := by
  obtain ⟨-, hmem, hkeys⟩ := inserted_spec pieces List.Pairwise.nil
  have hpieces' : ∀ p ∈ inserted pieces [], Genuine o.chunks p ∨ Extra o.chunks p := by
    intro p hp
    exact hpieces p ((hmem p hp).resolve_right List.not_mem_nil)
  rw [or_iff_not_imp_left, not_not]
  intro hnum
  have hstored : o.stored = (o.chunks.drop 0).flatten := by rw [List.drop_zero, o.split]
  rw [hstored]
  by_cases hextra : ∃ p ∈ inserted pieces [], Extra o.chunks p
  · exact (extra_pieces hnum hpieces' hextra).ne'
  -- No piece in the cache is extra, so none that came was: its number is still there.
  have hgenuine : ∀ p ∈ inserted pieces [], Genuine o.chunks p := by
    intro p hp
    exact (hpieces' p hp).resolve_right fun hp' => hextra ⟨p, hp, hp'⟩
  rcases hbad with ⟨k, hk, hmissing⟩ | ⟨p, hp, hp'⟩
  · have hgone : (k : Int) ∉ (inserted pieces []).map (·.1) := by
      rw [hkeys]
      exact not_or.mpr ⟨hmissing, List.not_mem_nil⟩
    exact (missing_pieces o.chunks_ne hnum hgenuine (Nat.zero_le k) hk hgone).ne
  · obtain ⟨q, hq, hqp⟩ := List.mem_map.mp ((hkeys p.1).mpr (.inl (List.mem_map_of_mem hp)))
    obtain ⟨k, hk, hchunk⟩ := hgenuine q hq
    exact absurd (hqp ▸ hk) (hp'.1 k (List.getElem?_eq_some_iff.mp hchunk).1)

end OutOfLine

/-! ## Three bytes in two chunks -/

namespace Sample

/-- A row with a short chunk. -/
def toastRow (valueid : Oid) (seq : Nat) (data : Bytes) (hid : valueid < 2 ^ 32) (hseq : seq < 2 ^ 31)
    (hdata : data.length ≤ 126) : ToastRow .pglzOnly where
  xid := 7
  valueid
  seq
  data
  hoff := 24
  bits := [0]
  stored := UInt8.ofNat ((data.length + 1) * 2 + 1) :: data
  valueid_lt := hid
  seq_ge := by omega
  seq_lt := by exact_mod_cast hseq
  hoff_eq := (rfl : 24 = 24)
  inline := .short hdata

/-- The chunks of value 99, the second first and the first twice, and one of another value. -/
def toastRows : List (ToastRow .pglzOnly) :=
  [toastRow 99 1 [30] (by decide) (by decide) (by decide), toastRow 55 0 [1, 2] (by decide) (by decide) (by decide),
    toastRow 99 0 [10, 20] (by decide) (by decide) (by decide),
    toastRow 99 0 [10, 20] (by decide) (by decide) (by decide)]

def outOfLine : OutOfLine .pglzOnly where
  value := [10, 20, 30]
  method := 0
  stored := [10, 20, 30]
  chunks := [[10, 20], [30]]
  valueid := 99
  toastrelid := 16390
  form := .raw
  value_ne := by simp
  value_lt := (by decide : 3 < 2 ^ 30)
  split := rfl
  chunks_ne := by simp
  valueid_lt := (by decide : 99 < 2 ^ 32)

end Sample

/-! ## Reading through the pointer -/

/-- An out-of-line value reads as its bytes once all its chunks have come, in any order and among any others. With
a chunk missing or one too many it does not read. -/
theorem decodeVarlena_outOfLine (z : Codecs) (o : OutOfLine z) (c : ToastCache) (rows : List (ToastRow z))
    (before after : Bytes) (hfresh : c.vals.lookup o.valueid = none)
    (hpieces : ∀ t ∈ rows, t.valueid = o.valueid → Genuine o.chunks t.piece ∨ Extra o.chunks t.piece) :
    ∃ cache, (rows.map fun t => (t.xid, t.payload, t.hoff)).foldlM (ToastCache.buffer z) c = .ok cache ∧
      ((∀ t ∈ rows, t.valueid = o.valueid → ¬ Extra o.chunks t.piece) →
        (∀ k : Nat, k < o.chunks.length → ∃ t ∈ rows, t.valueid = o.valueid ∧ t.seq = k) →
        decodeVarlena z cache (before ++ (o.pointer ++ after)) before.length =
          .ok (some o.value, before.length + 18)) ∧
      ((∃ t ∈ rows, t.valueid = o.valueid) →
        (∃ k : Nat, k < o.chunks.length ∧ ∀ t ∈ rows, t.valueid = o.valueid → t.seq ≠ k) ∨
          (∃ t ∈ rows, t.valueid = o.valueid ∧ Extra o.chunks t.piece) →
        ∃ what, decodeVarlena z cache (before ++ (o.pointer ++ after)) before.length = bail what) := by
  obtain ⟨cache, hrun, -, hlook⟩ := ToastCache.buffer_lookup o.valueid rows c
  refine ⟨cache, hrun, ?_, ?_⟩
  · intro hnone hall
    have hgenuine : ∀ p ∈ ToastCache.piecesOf o.valueid rows, Genuine o.chunks p := by
      intro p hp
      obtain ⟨t, ht, hid, rfl⟩ := ToastCache.mem_piecesOf.mp hp
      exact (hpieces t ht hid).resolve_right (hnone t ht hid)
    have hkeys : ∀ k : Nat, k < o.chunks.length → (k : Int) ∈ (ToastCache.piecesOf o.valueid rows).map (·.1) := by
      intro k hk
      obtain ⟨t, ht, hid, hseq⟩ := hall k hk
      exact List.mem_map.mpr ⟨t.piece, ToastCache.mem_piecesOf.mpr ⟨t, ht, hid, rfl⟩, hseq⟩
    have hne : ToastCache.piecesOf o.valueid rows ≠ [] := by
      intro hnil
      have := hkeys 0 o.chunks_pos
      simp [hnil] at this
    obtain ⟨owner, hcache⟩ := hlook hfresh hne
    rw [o.decodeVarlena_pointer, if_pos (OutOfLine.contains_of_lookup hcache),
      o.resolve_stored cache hcache (OutOfLine.inserted_complete hgenuine hkeys)]
    rfl
  · rintro ⟨t, ht, hid⟩ hbad
    have hmem : t.piece ∈ ToastCache.piecesOf o.valueid rows := ToastCache.mem_piecesOf.mpr ⟨t, ht, hid, rfl⟩
    obtain ⟨owner, hcache⟩ := hlook hfresh (List.ne_nil_of_mem hmem)
    have hother := OutOfLine.inserted_other
      (fun p hp => by
        obtain ⟨t, ht, hid, rfl⟩ := ToastCache.mem_piecesOf.mp hp
        exact hpieces t ht hid)
      (by
        rcases hbad with ⟨k, hk, hgone⟩ | ⟨t, ht, hid, hextra⟩
        · refine .inl ⟨k, hk, ?_⟩
          intro hk'
          obtain ⟨p, hp, hpk⟩ := List.mem_map.mp hk'
          obtain ⟨t, ht, hid, rfl⟩ := ToastCache.mem_piecesOf.mp hp
          exact hgone t ht hid hpk
        · exact .inr ⟨t.piece, ToastCache.mem_piecesOf.mpr ⟨t, ht, hid, rfl⟩, hextra⟩)
    obtain ⟨what, hbail⟩ := o.resolve_other cache hcache hother
    rw [o.decodeVarlena_pointer, if_pos (OutOfLine.contains_of_lookup hcache), hbail]
    exact ⟨what, rfl⟩

theorem decodeVarlena_outOfLine_two :
    ∃ cache, (Sample.toastRows.map fun t => (t.xid, t.payload, t.hoff)).foldlM (ToastCache.buffer .pglzOnly) .empty =
        .ok cache ∧
      decodeVarlena .pglzOnly cache Sample.outOfLine.pointer 0 = .ok (some [10, 20, 30], 18) := by
  have hfirst : Genuine Sample.outOfLine.chunks (((0 : Nat) : Int), [10, 20]) := ⟨0, rfl, rfl⟩
  have hsecond : Genuine Sample.outOfLine.chunks (((1 : Nat) : Int), [30]) := ⟨1, rfl, rfl⟩
  have hnot : ∀ {p}, Genuine Sample.outOfLine.chunks p → ¬ Extra Sample.outOfLine.chunks p := by
    rintro p ⟨k, hk, hchunk⟩ hextra
    exact hextra.1 k (List.getElem?_eq_some_iff.mp hchunk).1 hk
  have hrows : ∀ t ∈ Sample.toastRows, t.valueid = Sample.outOfLine.valueid →
      Genuine Sample.outOfLine.chunks t.piece := by
    intro t ht hid
    simp only [Sample.toastRows, List.mem_cons, List.not_mem_nil, or_false] at ht
    rcases ht with rfl | rfl | rfl | rfl
    · exact hsecond
    · exact absurd hid (by decide)
    · exact hfirst
    · exact hfirst
  obtain ⟨cache, hrun, hgood, -⟩ := decodeVarlena_outOfLine .pglzOnly Sample.outOfLine .empty _ [] []
    rfl (fun t ht hid => .inl (hrows t ht hid))
  refine ⟨cache, hrun, ?_⟩
  have hread := hgood (fun t ht hid => hnot (hrows t ht hid)) (by
    intro k hk
    have hk : k < 2 := hk
    rcases k with _ | _ | k
    · exact ⟨_, List.mem_cons_of_mem _ (List.mem_cons_of_mem _ List.mem_cons_self), rfl, rfl⟩
    · exact ⟨_, List.mem_cons_self, rfl, rfl⟩
    · omega)
  rw [List.append_nil] at hread
  exact hread

end Ltap
