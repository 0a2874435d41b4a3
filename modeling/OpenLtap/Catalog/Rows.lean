-- SUMMARY: The catalog rows as the server has them, their bytes, and what the page-derived catalog keeps of them.
import OpenLtap.Catalog.Pages
import OpenLtap.Wal.Faithful
import OpenLtap.Wal.InsertPaths

/-!
# Catalog rows

The fixed part of a catalog tuple is a struct of fields one behind the other. Parsing it gives
the row back; of an index it gives the key columns.
-/

namespace Ltap

theorem mapM_eq_pure {α β : Type} {m : Type → Type} [Monad m] [LawfulMonad m] {f : α → m β} {g : α → β}
    {l : List α} (h : ∀ a ∈ l, f a = pure (g a)) : l.mapM f = pure (l.map g) := by
  induction l with
  | nil => rfl
  | cons a l ih =>
    rw [List.forall_mem_cons] at h
    rw [List.mapM_cons, h.1, ih h.2]
    simp

/-! ## Structs -/

section Struct

variable {fields : List Bytes} {i : Nat}

/-- The offset of a field. -/
def fieldOff (fields : List Bytes) (i : Nat) : Nat := ((fields.take i).map List.length).sum

theorem slice_field {bytes : Bytes} {off n : Nat} (h : fields[i]? = some bytes) (hoff : fieldOff fields i = off)
    (hn : bytes.length = n) : slice fields.flatten off n = some bytes := by
  obtain ⟨hi, rfl⟩ := List.getElem?_eq_some_iff.mp h
  have hsplit : fields.flatten = (fields.take i).flatten ++ (fields[i] ++ (fields.drop (i + 1)).flatten) := by
    rw [← List.flatten_cons, ← List.drop_eq_getElem_cons hi, ← List.flatten_append, List.take_append_drop]
  rw [hsplit]
  exact slice_append (by rw [List.length_flatten]; exact hoff) hn

theorem leAt_field {n v off : Nat} (h : fields[i]? = some (toLe n v)) (hoff : fieldOff fields i = off)
    (hv : v < 256 ^ n) : leAt fields.flatten off n = some v := by
  rw [leAt, slice_field h hoff (toLe_length n v), Option.map_some, fromLe_toLe hv]

theorem byte_field {b : UInt8} {off : Nat} (h : fields[i]? = some [b]) (hoff : fieldOff fields i = off) :
    fields.flatten[off]? = some b := by
  have hslice := slice_field h hoff rfl
  unfold slice at hslice
  split at hslice
  · have hhead := congrArg (·[0]?) (Option.some.inj hslice)
    simpa [List.getElem?_take, List.getElem?_drop] using hhead
  · cases hslice

end Struct

/-! ## Names -/

/-- A name that fits its 64 bytes with a zero behind it. -/
def IsName (s : String) : Prop := (Utf8.encode s).length < 64 ∧ 0 ∉ Utf8.encode s

def nameData (s : String) : Bytes := Utf8.encode s ++ List.replicate (64 - (Utf8.encode s).length) 0

theorem nameData_length {s : String} (h : IsName s) : (nameData s).length = 64 := by
  have := h.1
  simp only [nameData, List.length_append, List.length_replicate]
  omega

theorem name64_nameData {s : String} (h : IsName s) : name64 (nameData s) = s := by
  obtain ⟨hlen, hzero⟩ := h
  have hfind : (nameData s).findIdx? (· = 0) = some (Utf8.encode s).length := by
    obtain ⟨k, hk⟩ : ∃ k, 64 - (Utf8.encode s).length = k + 1 := ⟨63 - (Utf8.encode s).length, by omega⟩
    have hnone : (Utf8.encode s).findIdx? (· = 0) = none := by
      rw [List.findIdx?_eq_none_iff]
      exact fun b hb => decide_eq_false fun hb0 => hzero (hb0 ▸ hb)
    rw [nameData, hk, List.replicate_succ, List.findIdx?_append, hnone]
    simp [List.findIdx?_cons]
  rw [name64, hfind, Option.getD_some, nameData, List.take_left, Utf8.lossy_encode]

/-! ## Rows -/

def boolByte (b : Bool) : UInt8 := if b then 1 else 0

@[simp] theorem boolByte_ne_zero (b : Bool) : (boolByte b != 0) = b := by
  cases b <;> rfl

structure ClassRow.Fits (c : ClassRow) : Prop where
  oid : c.oid < 2 ^ 32
  name : IsName c.name
  nspOid : c.nspOid < 2 ^ 32
  filenode : c.filenode < 2 ^ 32
  toastrelid : c.toastrelid < 2 ^ 32
  natts : InRange 16 c.natts

/-- `FormData_pg_class`. -/
def ClassRow.form (c : ClassRow) (types stats flags rest : Bytes) : List Bytes :=
  [toLe 4 c.oid, nameData c.name, toLe 4 c.nspOid, types, toLe 4 c.filenode, stats, toLe 4 c.toastrelid,
    flags, [c.relkind], toLe 2 (toTwos 16 c.natts), rest]

/-- The bytes are those of the row, with whatever the other fields hold. -/
def ClassRow.On (a : Bytes) (c : ClassRow) : Prop :=
  ∃ types stats flags rest, types.length = 16 ∧ stats.length = 16 ∧ flags.length = 3 ∧
    a = (c.form types stats flags rest).flatten

theorem parsePgClass_on {c : ClassRow} (hc : c.Fits) {a : Bytes} (h : ClassRow.On a c) :
    parsePgClass a = some c := by
  obtain ⟨types, stats, flags, rest, htypes, hstats, hflags, rfl⟩ := h
  have hname := nameData_length hc.name
  have hoff : ∀ i, fieldOff (c.form types stats flags rest) i =
      (([4, 64, 4, 16, 4, 16, 4, 3, 1, 2, rest.length] : List Nat).take i).sum := by
    intro i
    simp [fieldOff, ClassRow.form, List.map_take, toLe_length, hname, htypes, hstats, hflags]
  have hoid : leAt (c.form types stats flags rest).flatten 0 4 = some c.oid :=
    leAt_field (i := 0) rfl (hoff 0) hc.oid
  have hrelname : slice (c.form types stats flags rest).flatten 4 64 = some (nameData c.name) :=
    slice_field (i := 1) rfl (hoff 1) hname
  have hnsp : leAt (c.form types stats flags rest).flatten 68 4 = some c.nspOid :=
    leAt_field (i := 2) rfl (hoff 2) hc.nspOid
  have hnode : leAt (c.form types stats flags rest).flatten 88 4 = some c.filenode :=
    leAt_field (i := 4) rfl (hoff 4) hc.filenode
  have htoast : leAt (c.form types stats flags rest).flatten 108 4 = some c.toastrelid :=
    leAt_field (i := 6) rfl (hoff 6) hc.toastrelid
  have hkind : (c.form types stats flags rest).flatten[115]? = some c.relkind :=
    byte_field (i := 8) rfl (hoff 8)
  have hnatts : leAt (c.form types stats flags rest).flatten 116 2 = some (toTwos 16 c.natts) :=
    leAt_field (i := 9) rfl (hoff 9) (toTwos_lt 16 c.natts)
  simp only [parsePgClass, hoid, hrelname, hnsp, hnode, htoast, hkind, hnatts, Option.bind_eq_bind,
    Option.bind_some, name64_nameData hc.name, fromTwos_toTwos (by decide : 0 < 16) hc.natts.1 hc.natts.2]
  rfl

structure AttRow.Fits (a : AttRow) : Prop where
  attrelid : a.attrelid < 2 ^ 32
  name : IsName a.name
  typid : a.typid < 2 ^ 32
  attlen : InRange 16 a.attlen
  attnum : InRange 16 a.attnum

/-- `FormData_pg_attribute`. -/
def AttRow.form (a : AttRow) (cache storage identity rest : Bytes) : List Bytes :=
  [toLe 4 a.attrelid, nameData a.name, toLe 4 a.typid, toLe 2 (toTwos 16 a.attlen),
    toLe 2 (toTwos 16 a.attnum), cache, [a.attalign], storage, [boolByte a.hasmissing], identity,
    [boolByte a.isdropped], rest]

def AttRow.On (b : Bytes) (a : AttRow) : Prop :=
  ∃ cache storage identity rest, cache.length = 11 ∧ storage.length = 4 ∧ identity.length = 2 ∧
    b = (a.form cache storage identity rest).flatten

theorem parsePgAttribute_on {a : AttRow} (ha : a.Fits) {b : Bytes} (h : AttRow.On b a) :
    parsePgAttribute b = some a := by
  obtain ⟨cache, storage, identity, rest, hcache, hstorage, hidentity, rfl⟩ := h
  have hname := nameData_length ha.name
  have hoff : ∀ i, fieldOff (a.form cache storage identity rest) i =
      (([4, 64, 4, 2, 2, 11, 1, 4, 1, 2, 1, rest.length] : List Nat).take i).sum := by
    intro i
    simp [fieldOff, AttRow.form, List.map_take, toLe_length, hname, hcache, hstorage, hidentity]
  have hrelid : leAt (a.form cache storage identity rest).flatten 0 4 = some a.attrelid :=
    leAt_field (i := 0) rfl (hoff 0) ha.attrelid
  have hattname : slice (a.form cache storage identity rest).flatten 4 64 = some (nameData a.name) :=
    slice_field (i := 1) rfl (hoff 1) hname
  have htypid : leAt (a.form cache storage identity rest).flatten 68 4 = some a.typid :=
    leAt_field (i := 2) rfl (hoff 2) ha.typid
  have hattlen : leAt (a.form cache storage identity rest).flatten 72 2 = some (toTwos 16 a.attlen) :=
    leAt_field (i := 3) rfl (hoff 3) (toTwos_lt 16 a.attlen)
  have hattnum : leAt (a.form cache storage identity rest).flatten 74 2 = some (toTwos 16 a.attnum) :=
    leAt_field (i := 4) rfl (hoff 4) (toTwos_lt 16 a.attnum)
  have halign : (a.form cache storage identity rest).flatten[87]? = some a.attalign :=
    byte_field (i := 6) rfl (hoff 6)
  have hmissing : (a.form cache storage identity rest).flatten[92]? = some (boolByte a.hasmissing) :=
    byte_field (i := 8) rfl (hoff 8)
  have hdropped : (a.form cache storage identity rest).flatten[95]? = some (boolByte a.isdropped) :=
    byte_field (i := 10) rfl (hoff 10)
  simp only [parsePgAttribute, hrelid, hattname, htypid, hattlen, hattnum, halign, hmissing, hdropped,
    Option.bind_eq_bind, Option.bind_some, name64_nameData ha.name, boolByte_ne_zero,
    fromTwos_toTwos (by decide : 0 < 16) ha.attlen.1 ha.attlen.2,
    fromTwos_toTwos (by decide : 0 < 16) ha.attnum.1 ha.attnum.2]
  rfl

/-- A row of `pg_index` as the server has it. `indkey` holds the columns of the key, and
behind them those that the index only includes. -/
structure PgIndexRow where
  indrelid : Oid
  indisprimary : Bool
  indnkeyatts : Int
  indkey : List Int
  deriving DecidableEq, Repr

namespace PgIndexRow

def keyColumns (i : PgIndexRow) : List Int := i.indkey.take i.indnkeyatts.toNat

def onPage (i : PgIndexRow) : IndexRow := ⟨i.indrelid, i.indisprimary, i.keyColumns⟩

structure Fits (i : PgIndexRow) : Prop where
  indrelid : i.indrelid < 2 ^ 32
  indnkeyatts : InRange 16 i.indnkeyatts
  length : i.indkey.length < 2 ^ 31
  indkey : ∀ k ∈ i.indkey, InRange 16 k

/-- `FormData_pg_index`: the fields up to `lbound1`, and the values of `indkey`. -/
def form (i : PgIndexRow) (oid natts unique valid vector lbound rest : Bytes) : List Bytes :=
  [oid, toLe 4 i.indrelid, natts, toLe 2 (toTwos 16 i.indnkeyatts), unique, [boolByte i.indisprimary], valid,
    vector, toLe 4 i.indkey.length, lbound] ++ (i.indkey.map fun k => toLe 2 (toTwos 16 k)) ++ [rest]

def On (a : Bytes) (i : PgIndexRow) : Prop :=
  ∃ oid natts unique valid vector lbound rest, oid.length = 4 ∧ natts.length = 2 ∧ unique.length = 2 ∧
    valid.length = 9 ∧ vector.length = 16 ∧ lbound.length = 4 ∧
    a = (i.form oid natts unique valid vector lbound rest).flatten

theorem take_eq_map_range {α : Type} [Inhabited α] (l : List α) (n : Nat) :
    l.take n = (List.range (min n l.length)).map (l[·]!) := by
  refine List.ext_getElem (by simp) fun j hj _ => ?_
  have hlt : j < l.length := by
    rw [List.length_take] at hj
    omega
  simp [hlt]

end PgIndexRow

theorem parsePgIndex_on {i : PgIndexRow} (hi : i.Fits) {a : Bytes} (h : PgIndexRow.On a i) :
    parsePgIndex a = some i.onPage := by
  obtain ⟨oid, natts, unique, valid, vector, lbound, rest, hoid, hnatts, hunique, hvalid, hvector, hlbound, rfl⟩ := h
  generalize hfields : i.form oid natts unique valid vector lbound rest = fields
  have hlengths : fields.map List.length =
      [4, 4, 2, 2, 2, 1, 9, 16, 4, 4] ++ List.replicate i.indkey.length 2 ++ [rest.length] := by
    rw [← hfields]
    simp [PgIndexRow.form, toLe_length, hoid, hnatts, hunique, hvalid, hvector, hlbound, Function.comp_def]
  have hoff : ∀ j, fieldOff fields j =
      (([4, 4, 2, 2, 2, 1, 9, 16, 4, 4] ++ List.replicate i.indkey.length 2 ++ [rest.length]).take j).sum := by
    intro j
    rw [fieldOff, List.map_take, hlengths]
  have hrelid : leAt fields.flatten 4 4 = some i.indrelid :=
    leAt_field (i := 1) (by rw [← hfields]; rfl) (hoff 1) hi.indrelid
  have hnkeys : leAt fields.flatten 10 2 = some (toTwos 16 i.indnkeyatts) :=
    leAt_field (i := 3) (by rw [← hfields]; rfl) (hoff 3) (toTwos_lt 16 i.indnkeyatts)
  have hprimary : fields.flatten[14]? = some (boolByte i.indisprimary) :=
    byte_field (i := 5) (by rw [← hfields]; rfl) (hoff 5)
  have hdim : leAt fields.flatten 40 4 = some i.indkey.length :=
    leAt_field (i := 8) (by rw [← hfields]; rfl) (hoff 8) (by have := hi.length; omega)
  have hdim1 : fromTwos 32 i.indkey.length = i.indkey.length := by
    rw [fromTwos, if_pos hi.length]
  have hcount : (min (max i.indnkeyatts 0) (max (i.indkey.length : Int) 0)).toNat =
      min i.indnkeyatts.toNat i.indkey.length := by
    omega
  have hkey : ∀ j ∈ List.range (min i.indnkeyatts.toNat i.indkey.length),
      (leAt fields.flatten (48 + j * 2) 2).map (fromTwos 16) = pure (i.indkey[j]!) := by
    intro j hj
    have hlt : j < i.indkey.length := by
      rw [List.mem_range] at hj
      omega
    have hfield : fields[10 + j]? = some (toLe 2 (toTwos 16 i.indkey[j])) := by
      rw [← hfields, PgIndexRow.form, List.append_assoc,
        List.getElem?_append_right (by simp), List.getElem?_append_left (by simp; omega)]
      simp [hlt]
    have hjoff : fieldOff fields (10 + j) = 48 + j * 2 := by
      rw [hoff, List.append_assoc, List.take_append, List.take_of_length_le (by simp),
        List.take_append_of_le_length (by simp; omega), List.take_replicate]
      simp [hlt.le]
      omega
    rw [leAt_field hfield hjoff (toTwos_lt 16 _), Option.map_some,
      fromTwos_toTwos (by decide) (hi.indkey _ (List.getElem_mem hlt)).1 (hi.indkey _ (List.getElem_mem hlt)).2]
    simp [hlt]
  simp only [parsePgIndex, hrelid, hnkeys, hprimary, hdim, Option.bind_eq_bind, Option.bind_some, boolByte_ne_zero,
    fromTwos_toTwos (by decide : 0 < 16) hi.indnkeyatts.1 hi.indnkeyatts.2, hdim1, hcount]
  rw [mapM_eq_pure hkey]
  simp only [PgIndexRow.onPage, PgIndexRow.keyColumns, PgIndexRow.take_eq_map_range]
  rfl

/-! ## Loading -/

/-- The rows of the three catalogs, in some order. -/
structure PgRows where
  classes : List ClassRow
  atts : List AttRow
  indexes : List PgIndexRow

namespace PgRows

/-- What the pages with these rows give. -/
def catalog (rows : PgRows) (db : Oid) : PageCatalog :=
  { db, classRows := rows.classes, attRows := rows.atts, indexRows := rows.indexes.map PgIndexRow.onPage }

/-- The visible tuples on the pages are these rows, in this order. -/
structure Scanned (rows : PgRows) (src : PageSource) (clog : ClogSource) (mapped : MappedRels) (indexNode : Oid) :
    Prop where
  classes : ∃ as, scan src clog mapped.pgClass = .ok as ∧ List.Forall₂ ClassRow.On as rows.classes
  atts : ∃ as, scan src clog mapped.pgAttribute = .ok as ∧ List.Forall₂ AttRow.On as rows.atts
  indexes : ∃ as, scan src clog indexNode = .ok as ∧ List.Forall₂ PgIndexRow.On as rows.indexes
  indexNode : mapped.pgIndex.or
    (((rows.classes.find? (·.oid = pgIndexOid)).map (·.filenode)).filter (· ≠ 0)) = some indexNode
  classFits : ∀ c ∈ rows.classes, c.Fits
  attFits : ∀ a ∈ rows.atts, a.Fits
  indexFits : ∀ i ∈ rows.indexes, i.Fits

theorem filterMap_of_forall₂ {α β γ : Type} {R : α → β → Prop} {f : α → Option γ} {g : β → γ} {as : List α}
    {bs : List β} (h : List.Forall₂ R as bs) (hf : ∀ a, ∀ b ∈ bs, R a b → f a = some (g b)) :
    as.filterMap f = bs.map g := by
  induction h with
  | nil => rfl
  | cons hab _ ih =>
    rw [List.filterMap_cons_some (hf _ _ List.mem_cons_self hab), List.map_cons,
      ih fun a b hb => hf a b (List.mem_cons_of_mem _ hb)]

theorem load_eq {rows : PgRows} {src : PageSource} {clog : ClogSource} {mapped : MappedRels} {indexNode : Oid}
    (h : rows.Scanned src clog mapped indexNode) :
    PageCatalog.load src clog mapped = .ok (rows.catalog src.db) := by
  obtain ⟨cs, hcs, hclasses⟩ := h.classes
  obtain ⟨bs, hbs, hatts⟩ := h.atts
  obtain ⟨is, his, hindexes⟩ := h.indexes
  have hcs' : cs.filterMap parsePgClass = rows.classes := by
    rw [filterMap_of_forall₂ (g := id) hclasses fun _ c hc => parsePgClass_on (h.classFits c hc), List.map_id]
  have hbs' : bs.filterMap parsePgAttribute = rows.atts := by
    rw [filterMap_of_forall₂ (g := id) hatts fun _ a ha => parsePgAttribute_on (h.attFits a ha), List.map_id]
  have his' : is.filterMap parsePgIndex = rows.indexes.map PgIndexRow.onPage :=
    filterMap_of_forall₂ hindexes fun _ i hi => parsePgIndex_on (h.indexFits i hi)
  simp only [PageCatalog.load, hcs, hbs, bind, Except.bind, hcs', hbs', h.indexNode, his, his']
  rfl

end PgRows

end Ltap
