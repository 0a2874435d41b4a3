-- SUMMARY: What is written of rows that were buffered before a change of their table's columns.
import OpenLtap.Engine.Reached
import OpenLtap.Recovery.Emission
import OpenLtap.Recovery.RestartFloor
import OpenLtap.Resnapshot.RemapTable
import OpenLtap.Routing

/-!
# Rows in flight

A catalog check that finds other columns points the Delta columns at the new live
positions and reshapes the mirror. The ops of open transactions keep the rows that were
decoded under the old columns, and a later commit emits them as they are. A dropped column
receives NULLs. A column that keeps its position, or joins past the old ones, is written
as it was decoded.
-/

namespace Ltap

/-- The row that an op carries: what it writes, or the pre-image of what it deletes. -/
def Op.row : Op → Option Row
  | .insert _ ver | .update _ _ ver => some ver.row
  | .delete _ oldRow => oldRow

theorem Emits.row_eq {lsn : Lsn} {op : Op} {r : EmitRow} (h : Emits (lsn, op) r) {row : Row}
    (hrow : op.row = some row) : r.row = row := by
  cases op with
  | insert ctid ver => exact h.2.2.2.trans (Option.some.inj hrow)
  | update oldCtid ctid ver => exact h.2.2.2.trans (Option.some.inj hrow)
  | delete ctid oldRow => exact h.2.2.2 row hrow

theorem exists_of_forall₂ {α β : Type*} {R : α → β → Prop} {as : List α} {bs : List β}
    (h : List.Forall₂ R as bs) {a : α} (ha : a ∈ as) : ∃ b ∈ bs, R a b := by
  induction h with
  | nil => cases ha
  | cons hR _ ih =>
    rcases List.mem_cons.mp ha with rfl | ha
    · exact ⟨_, List.mem_cons_self, hR⟩
    · obtain ⟨b, hb, hab⟩ := ih ha
      exact ⟨b, List.mem_cons_of_mem _ hb, hab⟩

/-! ## Buffered ops -/

namespace TxBuffer

variable {b : TxBuffer} {xid : Xid} {p : PendingOp}

theorem mem_opsOf_addOp (hp : p ∈ b.opsOf xid) (xid' : Xid) (lsn : Lsn) (table : Nat) (op : Op) :
    p ∈ (b.addOp xid' lsn table op).opsOf xid := by
  by_cases hx : xid = xid'
  · subst hx
    rw [opsOf] at hp ⊢
    cases htx : b.openTxs.lookup xid with
    | none => simp [htx] at hp
    | some tx =>
      rw [htx] at hp
      simp only [Option.map_some, Option.getD_some] at hp
      simp [addOp, htx, hp]
  · rw [opsOf] at hp ⊢
    simpa [addOp, AList.lookup_insert_ne hx] using hp

theorem mem_opsOf_addOps (hp : p ∈ b.opsOf xid) (xid' : Xid) (lsn : Lsn) (table : Nat)
    (ops : List Op) : p ∈ (Engine.addOps b xid' lsn table ops).opsOf xid := by
  induction ops generalizing b with
  | nil => exact hp
  | cons op ops ih => exact ih (mem_opsOf_addOp hp xid' lsn table op)

theorem mem_opsOf_addOps_self {ops : List Op} {op : Op} (hop : op ∈ ops) (b : TxBuffer) (xid : Xid)
    (lsn : Lsn) (table : Nat) :
    { lsn, table, op } ∈ (Engine.addOps b xid lsn table ops).opsOf xid := by
  induction ops generalizing b with
  | nil => cases hop
  | cons op' ops ih =>
    rcases List.mem_cons.mp hop with rfl | hop
    · refine mem_opsOf_addOps ?_ xid lsn table ops
      simp [opsOf, addOp]
    · exact ih hop (b.addOp xid lsn table op')

theorem opsOf_remove_ne {x : Xid} (hx : xid ≠ x) : (b.remove x).opsOf xid = b.opsOf xid := by
  rw [opsOf, opsOf, remove, AList.lookup_erase_ne hx]

theorem opsOf_drain {xs : List Xid} (hxs : xid ∉ xs) : (b.drain xs).2.opsOf xid = b.opsOf xid := by
  rw [opsOf, opsOf, drain_lookup, if_neg hxs]

theorem mem_drain {xs : List Xid} (hxs : xid ∈ xs) (hp : p ∈ b.opsOf xid) : p ∈ (b.drain xs).1 := by
  induction xs generalizing b with
  | nil => cases hxs
  | cons x xs ih =>
    by_cases hx : xid = x
    · subst hx
      exact List.mem_append_left _ hp
    · have hxs := (List.mem_cons.mp hxs).resolve_left hx
      refine List.mem_append_right _ (ih hxs ?_)
      rw [opsOf_remove_ne hx]
      exact hp

theorem mem_commit {xid' : Xid} {subxids : List Xid} (hxid : xid ∈ xid' :: subxids)
    (hp : p ∈ b.opsOf xid) : p ∈ (b.commit xid' subxids).1 :=
  (List.mem_insertionSort _).mpr (mem_drain hxid hp)

end TxBuffer

namespace Engine

/-- The move neither ends transaction `xid` nor drops everything in flight. -/
def Move.Spares (xid : Xid) : Move → Prop
  | .record _ _ (.commit xid' subxids) | .record _ _ (.abort xid' subxids) => xid ∉ xid' :: subxids
  | .forget => False
  | _ => True

theorem move_opsOf {dec : TupleDecoder} {e : Engine} {xid : Xid} {p : PendingOp}
    (hp : p ∈ e.txbuf.opsOf xid) {m : Move} (hm : m.Spares xid) :
    p ∈ (e.move dec m).1.txbuf.opsOf xid := by
  cases m with
  | record now lsn eff =>
    cases eff with
    | ops xid' table ops => exact TxBuffer.mem_opsOf_addOps hp xid' lsn table ops
    | commit xid' subxids =>
      exact (TxBuffer.opsOf_drain hm).symm ▸ hp
    | abort xid' subxids => exact (TxBuffer.opsOf_drain hm).symm ▸ hp
    | skip | suspect | toastChunk | drift => exact hp
  | flush env now persisted =>
    exact (e.flushAll_sameVolatile env.appendOk now persisted).txbuf.symm ▸ hp
  | compact => exact e.maybeCompact_sameVolatile.txbuf.symm ▸ hp
  | remap env cfg now ddlLsn persisted =>
    exact (remapCheck_sameVolatile dec { e with remapAt := none } env cfg now ddlLsn
      persisted).txbuf.symm ▸ hp
  | forget => cases hm
  | applied | resnapshot | stop => exact hp

end Engine

/-! ## Delta columns -/

namespace DeltaSink

/-- No column has a name that Delta knows with another type. -/
def Follows (s : DeltaSink) (cols : List Col) : Prop :=
  ∀ dc ∈ s.deltaCols, ∀ c ∈ cols, c.name = dc.col.name → deltaType c.ty = deltaType dc.col.ty

/-- Every column has its Delta column. -/
def Knows (s : DeltaSink) (cols : List Col) : Prop :=
  ∀ c ∈ cols, ∃ dc ∈ s.deltaCols, dc.col.name = c.name

theorem repoint_col (cols : List Col) (dcs : List DeltaCol) :
    (repoint cols dcs).1.map (·.col) = dcs.map (·.col) := by
  induction dcs with
  | nil => rfl
  | cons dc dcs ih =>
    simp only [repoint]
    split
    · split
      · rfl
      · simp [ih]
    · simp [ih]

theorem repoint_follows {cols : List Col} {dcs : List DeltaCol}
    (h : ∀ dc ∈ dcs, ∀ c ∈ cols, c.name = dc.col.name → deltaType c.ty = deltaType dc.col.ty) :
    (repoint cols dcs).2 = true := by
  induction dcs with
  | nil => rfl
  | cons dc dcs ih =>
    have ih := ih fun dc' hdc' => h dc' (List.mem_cons_of_mem _ hdc')
    cases hlive : (cols.findIdx? (·.name = dc.col.name)).bind (cols[·]?) with
    | none => simpa [repoint, hlive] using ih
    | some c =>
      obtain ⟨k, hk, hc⟩ := Option.bind_eq_some_iff.mp hlive
      have hname : c.name = dc.col.name := by
        obtain ⟨hlt, hname, -⟩ := List.findIdx?_eq_some_iff_getElem.mp hk
        obtain ⟨-, rfl⟩ := List.getElem?_eq_some_iff.mp hc
        simpa using hname
      have htype := h dc List.mem_cons_self c (List.mem_of_getElem? hc) hname
      simpa [repoint, hlive, htype] using ih

theorem Follows.evolve {s : DeltaSink} {cols : List Col} (h : s.Follows cols) :
    (s.evolve cols).2 = true := by
  simp only [DeltaSink.evolve]
  rw [if_pos (repoint_follows h)]

/-- Columns are only added under names that Delta does not have. -/
theorem mem_addColumns {li : Nat} {cols : List Col} {dcs : List DeltaCol} {dc : DeltaCol}
    (h : dc ∈ addColumns li cols dcs) :
    dc ∈ dcs ∨ ∀ dc' ∈ dcs, dc'.col.name ≠ dc.col.name := by
  induction cols generalizing li dcs with
  | nil => exact .inl h
  | cons c cols ih =>
    simp only [addColumns] at h
    split at h
    · exact ih h
    · rename_i hnew
      rcases ih h with hmem | hnames
      · rcases List.mem_append.mp hmem with hmem | hmem
        · exact .inl hmem
        · obtain rfl := List.mem_singleton.mp hmem
          refine .inr fun dc' hdc' hname => hnew ?_
          exact List.any_eq_true.mpr ⟨dc', hdc', by simpa using hname⟩
      · exact .inr fun dc' hdc' => hnames dc' (List.mem_append_left _ hdc')

theorem openOrCreate_columns {uri : String} {existing : Option DeltaTable} {desc : TableDesc}
    {s : DeltaSink} (hdesc : desc.WellFormed) (h : openOrCreate uri existing desc = .ok s) :
    (∀ dc ∈ s.deltaCols, dc.Points desc.cols) ∧ s.Knows desc.cols := by
  simp only [openOrCreate, bind, Except.bind] at h
  split at h
  · cases h
  · rename_i known hknown
    cases h
    obtain ⟨hpoints, -, hnames⟩ := addColumns_points hdesc List.drop_zero (matchColumns_points hknown)
    exact ⟨hpoints, hnames⟩

/-- What a successful change of the live columns leaves of the Delta columns. -/
theorem evolve_columns {s s' : DeltaSink} {cols : List Col} (hnodup : (cols.map (·.name)).Nodup)
    (h : s.evolve cols = (s', true)) :
    (∀ dc ∈ s'.deltaCols, dc.Points cols) ∧ s'.Knows cols ∧
      (∀ dc ∈ s.deltaCols, ∃ dc' ∈ s'.deltaCols, dc'.col = dc.col) ∧
      ∀ dc' ∈ s'.deltaCols, (∃ dc ∈ s.deltaCols, dc'.col = dc.col) ∨
        ∀ dc ∈ s.deltaCols, dc.col.name ≠ dc'.col.name := by
  simp only [evolve] at h
  split at h
  · rename_i hok
    obtain rfl := (Prod.ext_iff.mp h).1
    obtain ⟨hall, hkeep, hnames⟩ := addColumns_points hnodup List.drop_zero
      (repoint_points (Prod.ext rfl hok))
    have hcols := repoint_col cols s.deltaCols
    refine ⟨hall, hnames, fun dc hdc => ?_, fun dc' hdc' => ?_⟩
    · have hmem : dc.col ∈ (repoint cols s.deltaCols).1.map (·.col) := hcols ▸ List.mem_map_of_mem hdc
      obtain ⟨dc', hdc', heq⟩ := List.mem_map.mp hmem
      exact ⟨dc', hkeep dc' hdc', heq⟩
    · rcases mem_addColumns hdc' with hmem | hnew
      · have hmem : dc'.col ∈ s.deltaCols.map (·.col) := hcols ▸ List.mem_map_of_mem hmem
        obtain ⟨dc, hdc, heq⟩ := List.mem_map.mp hmem
        exact .inl ⟨dc, hdc, heq.symm⟩
      · refine .inr fun dc hdc => ?_
        have hmem : dc.col ∈ (repoint cols s.deltaCols).1.map (·.col) := hcols ▸ List.mem_map_of_mem hdc
        obtain ⟨dc'', hdc'', heq⟩ := List.mem_map.mp hmem
        exact heq ▸ hnew dc'' hdc''
  · cases h

end DeltaSink

/-- What decides where the values of a row are written. -/
def Table.shape (t : Table) : List Col × List DeltaCol := (t.desc.cols, t.sink.deltaCols)

/-- The Delta columns of a table point at its live columns. -/
structure Table.Aligned (t : Table) : Prop where
  wellFormed : t.desc.WellFormed
  points : ∀ dc ∈ t.sink.deltaCols, dc.Points t.desc.cols
  knows : t.sink.Knows t.desc.cols

/-- Delta has the columns that the table once had, with their types. -/
structure Table.Remembers (t : Table) (old : List Col) : Prop where
  follows : t.sink.Follows old
  knows : t.sink.Knows old

namespace Table

variable {t t' : Table} {old : List Col}

theorem Aligned.remembers (h : t.Aligned) : t.Remembers t.desc.cols := by
  refine ⟨fun dc hdc c hc hname => ?_, h.knows⟩
  obtain ⟨k, hk⟩ := List.mem_iff_getElem?.mp hc
  have hlive : dc.live = some k := by
    rw [(h.points dc hdc).live, ← hname]
    exact findIdx?_name h.wellFormed hk
  exact (h.points dc hdc).type c (by simpa [hlive] using hk)

theorem Aligned.congr (h : t.Aligned) (heq : t'.shape = t.shape) : t'.Aligned := by
  obtain ⟨hcols, hdelta⟩ := Prod.ext_iff.mp heq
  simp only [shape] at hcols hdelta
  refine ⟨?_, ?_, ?_⟩
  · rw [TableDesc.WellFormed, hcols]
    exact h.wellFormed
  · rw [hcols, hdelta]
    exact h.points
  · rw [DeltaSink.Knows, hcols, hdelta]
    exact h.knows

theorem Remembers.congr (h : t.Remembers old) (heq : t'.shape = t.shape) : t'.Remembers old := by
  obtain ⟨-, hdelta⟩ := Prod.ext_iff.mp heq
  simp only [shape] at hdelta
  refine ⟨?_, ?_⟩
  · rw [DeltaSink.Follows, hdelta]
    exact h.follows
  · rw [DeltaSink.Knows, hdelta]
    exact h.knows

theorem Aligned.adopt (h : t.Aligned) {fresh : TableDesc} (hfresh : fresh.WellFormed)
    (hadopt : t.adopt fresh = (t', true)) : t'.Aligned := by
  simp only [Table.adopt] at hadopt
  split at hadopt
  · split at hadopt
    · rename_i hok
      obtain rfl := (Prod.ext_iff.mp hadopt).1
      obtain ⟨hpoints, hknows, -⟩ := DeltaSink.evolve_columns hfresh (Prod.ext rfl hok)
      exact ⟨hfresh, hpoints, hknows⟩
    · cases hadopt
  · rename_i hcols
    obtain rfl := (Prod.ext_iff.mp hadopt).1
    have hcols : fresh.cols = t.desc.cols := by simpa [colsChanged] using hcols
    refine ⟨hfresh, ?_, ?_⟩
    · simp only [hcols]
      exact h.points
    · simp only [DeltaSink.Knows, hcols]
      exact h.knows

theorem Remembers.adopt (h : t.Remembers old) {fresh : TableDesc} (hfresh : fresh.WellFormed)
    (hadopt : t.adopt fresh = (t', true)) : t'.Remembers old := by
  simp only [Table.adopt] at hadopt
  split at hadopt
  · split at hadopt
    · rename_i hok
      obtain rfl := (Prod.ext_iff.mp hadopt).1
      obtain ⟨-, -, hkept, hback⟩ := DeltaSink.evolve_columns hfresh (Prod.ext rfl hok)
      have hknows : (t.sink.evolve fresh.cols).1.Knows old := by
        intro c hc
        obtain ⟨dc, hdc, hname⟩ := h.knows c hc
        obtain ⟨dc', hdc', heq⟩ := hkept dc hdc
        exact ⟨dc', hdc', heq ▸ hname⟩
      refine ⟨fun dc' hdc' c hc hname => ?_, hknows⟩
      rcases hback dc' hdc' with ⟨dc, hdc, heq⟩ | hnew
      · rw [heq] at hname ⊢
        exact h.follows dc hdc c hc hname
      · obtain ⟨dc, hdc, hknown⟩ := h.knows c hc
        exact absurd (hknown.trans hname) (hnew dc hdc)
    · cases hadopt
  · obtain rfl := (Prod.ext_iff.mp hadopt).1
    exact ⟨h.follows, h.knows⟩

theorem shape_of_columns (h : t'.columns = t.columns) : t'.shape = t.shape :=
  congrArg (fun a : TableDesc × List DeltaCol => (a.1.cols, a.2)) h

/-- A catalog check that Delta can follow keeps the columns of a table or adopts the fresh ones. -/
theorem remapStep_shape (dec : TupleDecoder) (t : Table) {env : PgEnv} (now : Instant) (ti : Nat)
    (ddlLsn restart : Lsn)
    (hfollow : ∀ fresh, env.discoverByOid t.desc.oid = some fresh → t.sink.Follows fresh.cols) :
    (t.remapStep dec env now ti ddlLsn restart).table.shape = t.shape ∨
      ∃ fresh t₁, env.discoverByOid t.desc.oid = some fresh ∧ t.adopt fresh = (t₁, true) ∧
        (t.remapStep dec env now ti ddlLsn restart).table.shape = t₁.shape := by
  have hstepped := t.remapStep_stepped dec env now ti ddlLsn restart
  generalize t.remapStep dec env now ti ddlLsn restart = r at hstepped
  cases hstepped with
  | detached _ => exact .inl rfl
  | vanished _ _ => exact .inl rfl
  | quiet fresh _ _ _ _ hcols =>
    have hcols : fresh.cols = t.desc.cols := by simpa [colsChanged] using hcols
    exact .inl (Prod.ext hcols rfl)
  | refused fresh t₁ _ hfresh hadopt =>
    -- Delta could follow after all.
    have hok : (t.adopt fresh).2 = true := by
      simp only [adopt]
      split
      · rw [if_pos (hfollow fresh hfresh).evolve]
      · rfl
    rw [hadopt] at hok
    cases hok
  | evolved fresh t₁ _ hfresh _ _ _ hadopt => exact .inr ⟨fresh, t₁, hfresh, hadopt, rfl⟩
  | remapped fresh t₁ t₂ _ hfresh _ hadopt hcall =>
    refine .inr ⟨fresh, t₁, hfresh, hadopt, ?_⟩
    have hcolumns := remapTable_columns dec t₁ now (t.remapCheckArgs fresh ddlLsn restart)
      (env.snapshot fresh) (env.appendOk ti)
    rw [hcall] at hcolumns
    exact shape_of_columns hcolumns
  | failed fresh t₁ t₂ _ hfresh _ hadopt hcall =>
    refine .inr ⟨fresh, t₁, hfresh, hadopt, ?_⟩
    have hcolumns := remapTable_columns dec t₁ now (t.remapCheckArgs fresh ddlLsn restart)
      (env.snapshot fresh) (env.appendOk ti)
    rw [hcall] at hcolumns
    exact shape_of_columns hcolumns

end Table

/-! ## Cells -/

/-- How a row that was decoded under the columns `old` is written while the live columns are
`new`. A column that is no longer live receives NULL. One that keeps its position receives the
value decoded under its name, and one that joined past the old columns NULL. -/
structure DeltaCol.Carries (dc : DeltaCol) (old new : List Col) (row : Row) : Prop where
  dropped : new.findIdx? (·.name = dc.col.name) = none → dc.cell row = none
  kept : ∀ j, new.findIdx? (·.name = dc.col.name) = some j →
    old.findIdx? (·.name = dc.col.name) = some j → dc.cell row = Row.get old row dc.col.name
  added : ∀ j, new.findIdx? (·.name = dc.col.name) = some j →
    old.findIdx? (·.name = dc.col.name) = none → old.length ≤ j → dc.cell row = none

theorem DeltaCol.Points.carries {dc : DeltaCol} {old new : List Col} {row : Row} (h : dc.Points new)
    (hold : ∀ c ∈ old, c.name = dc.col.name → deltaType c.ty = deltaType dc.col.ty)
    (htyped : row.Typed old) : dc.Carries old new row := by
  refine ⟨fun hnone => ?_, fun j hj hpos => ?_, fun j hj _ hlen => ?_⟩
  · rw [DeltaCol.cell, h.live, hnone]
    rfl
  · rw [DeltaCol.cell, h.live, hj, Row.get, hpos, Option.bind_some, Option.bind_some]
    obtain ⟨hlt, hname, -⟩ := List.findIdx?_eq_some_iff_getElem.mp hpos
    have htype := hold old[j] (List.getElem_mem hlt) (by simpa using hname)
    cases hv : (row[j]?).join with
    | none => rfl
    | some v =>
      have hcell : row[j]? = some (some v) := Option.join_eq_some_iff.mp hv
      have haccepts := htyped.2 j old[j] v (List.getElem?_eq_getElem hlt) hcell
      rw [Option.filter_some, ← PgType.accepts_congr htype, if_pos haccepts]
  · have hshort : row[j]? = none := List.getElem?_eq_none (htyped.1 ▸ hlen)
    rw [DeltaCol.cell, h.live, hj, Option.bind_some, hshort]
    rfl

/-! ## Moves -/

namespace Engine

/-- The check of the catalog, if there is one, finds columns of table `i` that Delta can follow. -/
def Move.Followed (i : Nat) (e : Engine) : Move → Prop
  | .remap env .. => ∀ t fresh, e.tables[i]? = some t → env.discoverByOid t.desc.oid = some fresh →
    fresh.WellFormed ∧ t.sink.Follows fresh.cols
  | _ => True

/-- A property of tables that a change of their columns keeps. -/
structure KeptByAdopt (P : Table → Prop) : Prop where
  congr : ∀ t t' : Table, P t → t'.shape = t.shape → P t'
  adopt : ∀ (t t' : Table) (fresh : TableDesc), P t → fresh.WellFormed →
    t.adopt fresh = (t', true) → P t'

theorem flushAll_shape {e : Engine} {ok : AppendOk} {now : Instant} {persisted : Lsn} {i : Nat}
    {t' : Table} (ht' : (e.flushAll ok now persisted).1.tables[i]? = some t') :
    ∃ t, e.tables[i]? = some t ∧ t'.desc = t.desc ∧ t'.sink.deltaCols = t.sink.deltaCols := by
  unfold flushAll at ht'
  split at ht'
  · exact ⟨t', ht', rfl, rfl⟩
  · obtain ⟨t, ht, rfl | ⟨-, rfl⟩⟩ := flushTables_cases ht'
    · exact ⟨t', ht, rfl, rfl⟩
    · exact ⟨t, ht, rfl, rfl⟩

theorem flushAll_length (e : Engine) (ok : AppendOk) (now : Instant) (persisted : Lsn) :
    (e.flushAll ok now persisted).1.tables.length = e.tables.length := by
  unfold flushAll
  split
  · rfl
  · exact flushTables_length ..

theorem KeptByAdopt.remapCheck {P : Table → Prop} (hP : KeptByAdopt P) (dec : TupleDecoder)
    {e : Engine} {i : Nat} (hi : i < e.tables.length) (h : ∀ t, e.tables[i]? = some t → P t)
    {env : PgEnv} {cfg : Config} {now : Instant} {ddlLsn persisted : Lsn}
    (hfollow : Move.Followed i e (.remap env cfg now ddlLsn persisted)) {t' : Table}
    (ht' : (e.remapCheck dec env cfg now ddlLsn persisted).1.tables[i]? = some t') : P t' := by
  generalize hremap : e.remapCheck dec env cfg now ddlLsn persisted = res at ht'
  obtain ⟨e', persisted', ok⟩ := res
  obtain ⟨e₁, flushed, hflush, hcase⟩ := remapCheck_cases hremap
  have he₁ : e₁ = (e.flushAll env.appendOk now persisted).1 := by rw [hflush]
  -- A table after the flush, and then after its step of the catalog loop.
  have hflushed : ∀ u, e₁.tables[i]? = some u → P u := by
    intro u hu
    obtain ⟨t, ht, hdesc, hcols⟩ := flushAll_shape (he₁ ▸ hu)
    exact hP.congr t u (h t ht) (Prod.ext (congrArg (·.cols) hdesc) hcols)
  have hstepped : ∀ u, (remapTables dec env now ddlLsn e₁.restartLsn 0 e₁.tables).1[i]? = some u →
      P u := by
    intro u hu
    obtain ⟨v, hv, rfl | rfl⟩ := remapTables_cases hu
    · exact hflushed u hv
    · obtain ⟨t, ht, hdesc, hcols⟩ := flushAll_shape (he₁ ▸ hv)
      have hfollows : ∀ fresh, env.discoverByOid v.desc.oid = some fresh →
          fresh.WellFormed ∧ v.sink.Follows fresh.cols := by
        intro fresh hfresh
        rw [hdesc] at hfresh
        rw [DeltaSink.Follows, hcols]
        exact hfollow t fresh ht hfresh
      rcases v.remapStep_shape dec now (0 + i) ddlLsn e₁.restartLsn
        (fun fresh hfresh => (hfollows fresh hfresh).2) with hsame | ⟨fresh, t₁, hfresh, hadopt, hsame⟩
      · exact hP.congr v _ (hflushed v hv) hsame
      · exact hP.congr t₁ _ (hP.adopt v t₁ fresh (hflushed v hv) (hfollows fresh hfresh).1 hadopt) hsame
  rcases hcase with ⟨-, -, rfl⟩ | ⟨-, nodes, tables, changed, done, htables, hcase⟩
  · exact hflushed t' ht'
  · rw [htables] at hstepped
    rcases hcase with ⟨-, -, rfl⟩ | ⟨-, -, e₂, rfl, hcase⟩
    · exact hstepped t' ht'
    · have hlen : tables.length = e.tables.length := by
        have hlen := remapTables_length dec env now ddlLsn e₁.restartLsn 0 e₁.tables
        rw [htables, he₁, flushAll_length] at hlen
        exact hlen
      have htables' : ∀ u, (attachNew dec env cfg { e₁ with catalogRels := nodes, tables }).tables[i]? =
          some u → P u := by
        intro u hu
        obtain ⟨new, hnew, -⟩ := attachNew_tables dec env cfg { e₁ with catalogRels := nodes, tables }
        rw [hnew, List.getElem?_append_left (hlen ▸ hi)] at hu
        exact hstepped u hu
      rcases hcase with rfl | rfl
      · exact htables' t' ht'
      · exact htables' t' ht'

/-- Tables keep their index. -/
theorem move_length (dec : TupleDecoder) (e : Engine) (m : Move) :
    e.tables.length ≤ (e.move dec m).1.tables.length := by
  cases m with
  | record now lsn eff =>
    have haddresses := congrArg List.length (e.applyEffect_addresses now lsn eff)
    rw [List.length_map, List.length_map] at haddresses
    exact haddresses.ge
  | flush env now persisted => exact (e.flushAll_length env.appendOk now persisted).ge
  | compact =>
    simp only [move, maybeCompact]
    split
    · exact le_rfl
    · exact (compactTables_length _ _).ge
  | remap env cfg now ddlLsn persisted =>
    simp only [move]
    generalize hremap : Engine.remapCheck dec { e with remapAt := none } env cfg now ddlLsn persisted = res
    obtain ⟨e', persisted', ok⟩ := res
    obtain ⟨e₁, flushed, hflush, hcase⟩ := remapCheck_cases hremap
    have hflushed := flushAll_length { e with remapAt := none } env.appendOk now persisted
    rw [hflush] at hflushed
    rcases hcase with ⟨-, -, rfl⟩ | ⟨-, nodes, tables, changed, done, htables, hcase⟩
    · exact hflushed.ge
    · have hlen := remapTables_length dec env now ddlLsn e₁.restartLsn 0 e₁.tables
      rw [htables, hflushed] at hlen
      rcases hcase with ⟨-, -, rfl⟩ | ⟨-, -, e₂, rfl, hcase⟩
      · exact hlen.ge
      · obtain ⟨new, hnew, -⟩ := attachNew_tables dec env cfg { e₁ with catalogRels := nodes, tables }
        have hmore : e.tables.length ≤
            (attachNew dec env cfg { e₁ with catalogRels := nodes, tables }).tables.length := by
          rw [hnew, List.length_append]
          exact hlen.ge.trans (Nat.le_add_right _ _)
        rcases hcase with rfl | rfl
        · exact hmore
        · exact hmore
  | resnapshot env now args => exact (resnapshotTables_length dec env now args 0 e.tables).ge
  | applied | forget | stop => exact le_rfl

/-- There is a table `i`, and it has the property. -/
def TableIs (i : Nat) (P : Table → Prop) (e : Engine) : Prop :=
  i < e.tables.length ∧ ∀ t, e.tables[i]? = some t → P t

/-- The move is a catalog check. -/
def Move.IsRemap : Move → Prop
  | .remap .. => True
  | _ => False

/-- Columns only change in a catalog check. -/
theorem move_columns {dec : TupleDecoder} {e : Engine} {i : Nat} {m : Move} (hm : ¬ m.IsRemap) {t' : Table}
    (ht' : (e.move dec m).1.tables[i]? = some t') : ∃ t, e.tables[i]? = some t ∧ t'.columns = t.columns := by
  cases m with
  | record now lsn eff =>
    obtain ⟨t, ht, haddress⟩ := exists_getElem?_of_map_eq (e.applyEffect_addresses now lsn eff) ht'
    exact ⟨t, ht, congrArg (fun a : TableDesc × DeltaSink => (a.1, a.2.deltaCols)) haddress⟩
  | flush env now persisted =>
    obtain ⟨t, ht, hdesc, hcols⟩ := flushAll_shape ht'
    exact ⟨t, ht, Prod.ext hdesc hcols⟩
  | compact =>
    obtain ⟨t, ht, rfl | rfl | ⟨-, sink, before, after, hdone, rfl⟩⟩ := maybeCompact_stepped ht'
    · exact ⟨t', ht, rfl⟩
    · exact ⟨t, ht, rfl⟩
    · exact ⟨t, ht, Prod.ext rfl (DeltaSink.compact_done hdone).2.2⟩
  | remap => exact absurd trivial hm
  | resnapshot env now args =>
    obtain ⟨t, ht, rfl | ⟨a, -, rfl⟩⟩ := resnapshotTables_cases ht'
    · exact ⟨t', ht, rfl⟩
    · exact ⟨t, ht, t.remapTable_columns dec ..⟩
  | applied | forget | stop => exact ⟨t', ht', rfl⟩

theorem KeptByAdopt.move {P : Table → Prop} (hP : KeptByAdopt P) {dec : TupleDecoder} {e : Engine}
    {i : Nat} (he : e.TableIs i P) {m : Move} (hm : m.Followed i e) :
    (e.move dec m).1.TableIs i P := by
  obtain ⟨hi, h⟩ := he
  refine ⟨hi.trans_le (e.move_length dec m), fun t' ht' => ?_⟩
  by_cases hremap : m.IsRemap
  · cases m with
    | remap env cfg now ddlLsn persisted =>
      have hi' : i < { e with remapAt := none }.tables.length := hi
      exact hP.remapCheck dec hi' h hm ht'
    | record | applied | flush | compact | forget | resnapshot | stop => cases hremap
  · obtain ⟨t, ht, hcols⟩ := move_columns hremap ht'
    exact hP.congr t t' (h t ht) (Table.shape_of_columns hcols)

theorem KeptByAdopt.moves {P : Table → Prop} (hP : KeptByAdopt P) {dec : TupleDecoder}
    {e e' : Engine} {i : Nat} {t : Table} (ht : e.tables[i]? = some t) (h : P t) {ms : List Move}
    (hms : Along dec (fun e m => m.Followed i e) e ms) (hrun : e.moves dec ms = (e', true)) :
    ∃ t', e'.tables[i]? = some t' ∧ P t' := by
  have hstart : e.TableIs i P :=
    ⟨(List.getElem?_eq_some_iff.mp ht).1, fun u hu => Option.some.inj (ht.symm.trans hu) ▸ h⟩
  have hinv : (e.moves dec ms).1.TableIs i P :=
    moves_keep (fun (e : Engine) (m : Move) (h : e.TableIs i P) hm => hP.move h hm) hms hstart
  rw [hrun] at hinv
  obtain ⟨hlt, hall⟩ := hinv
  exact ⟨_, List.getElem?_eq_getElem hlt, hall _ (List.getElem?_eq_getElem hlt)⟩

theorem Along.imp {dec : TupleDecoder} {P Q : Engine → Move → Prop} (hPQ : ∀ e m, P e m → Q e m)
    {e : Engine} {ms : List Move} (h : Along dec P e ms) : Along dec Q e ms := by
  induction ms generalizing e with
  | nil => trivial
  | cons m ms ih => exact ⟨hPQ e m h.1, fun e' he' => ih (h.2 e' he')⟩

theorem moves_opsOf {dec : TupleDecoder} {e e' : Engine} {xid : Xid} {p : PendingOp}
    (hp : p ∈ e.txbuf.opsOf xid) {ms : List Move} (hms : Along dec (fun _ m => m.Spares xid) e ms)
    (hrun : e.moves dec ms = (e', true)) : p ∈ e'.txbuf.opsOf xid := by
  have hinv : p ∈ (e.moves dec ms).1.txbuf.opsOf xid :=
    moves_keep (fun (e : Engine) (m : Move) (hp : p ∈ e.txbuf.opsOf xid) hm => move_opsOf hp hm) hms hp
  rwa [hrun] at hinv

theorem keptByAdopt_aligned : KeptByAdopt Table.Aligned :=
  ⟨fun _ _ h heq => h.congr heq, fun _ _ _ h hfresh hadopt => h.adopt hfresh hadopt⟩

theorem keptByAdopt_remembers (old : List Col) : KeptByAdopt fun t => t.Aligned ∧ t.Remembers old :=
  ⟨fun _ _ h heq => ⟨h.1.congr heq, h.2.congr heq⟩,
    fun _ _ _ h hfresh hadopt => ⟨h.1.adopt hfresh hadopt, h.2.adopt hfresh hadopt⟩⟩

/-- A table is streamed from where its Delta table was opened. A row is decoded under the
columns that the table has then, and put into an op of an open transaction, right away or, as a
pre-image, later. Whatever happens before the transaction commits, with column changes that
Delta can follow, the commit emits that row, and every Delta column carries it. -/
theorem inFlight_carried {dec : TupleDecoder} {e e₀ e₁ e₂ : Engine} {i : Nat} {t t₀ t₂ : Table}
    {uri : String} {existing : Option DeltaTable} {sink : DeltaSink} (hdesc : t.desc.WellFormed)
    (hopen : DeltaSink.openOrCreate uri existing t.desc = .ok sink)
    (hsink : t.sink.deltaCols = sink.deltaCols) (ht : e.tables[i]? = some t) {before : List Move}
    (hbefore : Along dec (fun e m => m.Followed i e) e before)
    (hrun : e.moves dec before = (e₀, true)) (ht₀ : e₀.tables[i]? = some t₀) {row : Row}
    (htyped : row.Typed t₀.desc.cols) {meanwhile : List Move}
    (hmeanwhile : Along dec (fun e m => m.Followed i e) e₀ meanwhile)
    (hrun₀ : e₀.moves dec meanwhile = (e₁, true)) {now : Instant} {lsn : Lsn} {xid : Xid}
    {ops : List Op} {op : Op} (hop : op ∈ ops) (hrow : op.row = some row) {after : List Move}
    (hafter : Along dec (fun e m => m.Followed i e ∧ m.Spares xid)
      (e₁.applyEffect now lsn (.ops xid i ops)) after)
    (hrun₁ : (e₁.applyEffect now lsn (.ops xid i ops)).moves dec after = (e₂, true))
    (ht₂ : e₂.tables[i]? = some t₂) {now' : Instant} {lsn' : Lsn} {xid' : Xid} {subxids : List Xid}
    (hxid : xid ∈ xid' :: subxids) (hnew : t₂.dedupeBelow < lsn') :
    ∃ t₃ r, (e₂.applyEffect now' lsn' (.commit xid' subxids)).tables[i]? = some t₃ ∧
      r ∈ (t₃.sink.makeBatch t₃.pending.rows).rows ∧ Emits (lsn', op) r ∧ r.row = row ∧
      ∀ dc ∈ (t₃.sink.makeBatch t₃.pending.rows).cols,
        dc.Carries t₀.desc.cols t₃.desc.cols r.row := by
  -- The table's columns, from the opening on to the commit.
  have haligned : t.Aligned := by
    obtain ⟨hpoints, hknows⟩ := DeltaSink.openOrCreate_columns hdesc hopen
    refine ⟨hdesc, hsink ▸ hpoints, ?_⟩
    rw [DeltaSink.Knows, hsink]
    exact hknows
  obtain ⟨u, hu, halign₀⟩ := keptByAdopt_aligned.moves ht haligned hbefore hrun
  obtain rfl := Option.some.inj (hu.symm.trans ht₀)
  obtain ⟨t₁, ht₁, h₁⟩ := (keptByAdopt_remembers u.desc.cols).moves hu ⟨halign₀, halign₀.remembers⟩
    hmeanwhile hrun₀
  obtain ⟨v, hv, halign₂, hremembers⟩ := (keptByAdopt_remembers u.desc.cols).moves
    (e := e₁.applyEffect now lsn (.ops xid i ops)) ht₁ h₁ (hafter.imp fun _ _ h => h.1) hrun₁
  obtain rfl := Option.some.inj (hv.symm.trans ht₂)
  -- The op, from its record on to the commit.
  have hheld : ⟨lsn, i, op⟩ ∈ e₂.txbuf.opsOf xid :=
    moves_opsOf (e := e₁.applyEffect now lsn (.ops xid i ops))
      (TxBuffer.mem_opsOf_addOps_self hop e₁.txbuf xid lsn i) (hafter.imp fun _ _ h => h.2) hrun₁
  have hcommitted : op ∈ e₂.committed i (.commit xid' subxids) := by
    refine List.mem_map.mpr ⟨⟨lsn, i, op⟩, ?_, rfl⟩
    exact List.mem_filter.mpr ⟨TxBuffer.mem_commit hxid hheld, by simp⟩
  have hlookup : (e₂.applyEffect now' lsn' (.commit xid' subxids)).tables[i]? =
      some (v.commitOps now' lsn' (e₂.committed i (.commit xid' subxids))) := by
    simp only [applyEffect, handleCommit, getElem?_commitOps, hv, Option.map_some]
    rfl
  obtain ⟨hsame, hcols, -, -, rows, hrows, hemits⟩ := v.commitOps_of_lt hnew now'
    (e₂.committed i (.commit xid' subxids))
  obtain ⟨r, hr, hemit⟩ := exists_of_forall₂ hemits
    (List.mem_map_of_mem (f := fun op => (lsn', op)) hcommitted)
  refine ⟨_, r, hlookup, ?_, hemit, hemit.row_eq hrow, fun dc hdc => ?_⟩
  · change _ ∈ (v.commitOps now' lsn' _).pending.rows
    rw [hrows]
    exact List.mem_append_right _ hr
  · have hdc : dc ∈ v.sink.deltaCols := hsame ▸ hdc
    rw [hcols, hemit.row_eq hrow]
    exact (halign₂.points dc hdc).carries (hremembers.follows dc hdc) htyped

end Engine

/-! ## A column is dropped -/

namespace Sample

/-- `t (id int primary key, n int)`. -/
def wideDesc : TableDesc :=
  { desc "t" 16384 with
    cols := [⟨"id", .int4⟩, ⟨"n", .int4⟩]
    phys := [.live ⟨"id", .int4⟩, .live ⟨"n", .int4⟩] }

/-- `insert into t values (1, 7)` in transaction 7. -/
def wideInserted : Engine :=
  (engine [wideDesc]).applyEffect 0 10
    (.ops 7 0 [.insert (0, 1) ⟨[some (.i32 1), some (.i32 7)], none⟩])

/-- A check of the catalog after `alter table t drop column n`. -/
def narrowing : Engine.Move := .remap (env [desc "t" 16384] 200) cfg 0 20 0

/-- Transaction 7 commits after the check. -/
def narrowed : Engine := (wideInserted.move .reject narrowing).1.applyEffect 0 30 (.commit 7 [])

end Sample

theorem inFlight_carried_dropped :
    ∃ t₃ r, Sample.narrowed.tables[0]? = some t₃ ∧
      r ∈ (t₃.sink.makeBatch t₃.pending.rows).rows ∧
      Emits (30, .insert (0, 1) ⟨[some (.i32 1), some (.i32 7)], none⟩) r ∧
      r.row = [some (.i32 1), some (.i32 7)] ∧
      ∀ dc ∈ (t₃.sink.makeBatch t₃.pending.rows).cols,
        dc.Carries Sample.wideDesc.cols t₃.desc.cols r.row := by
  have htyped : Row.Typed Sample.wideDesc.cols [some (.i32 1), some (.i32 7)] := by
    refine ⟨rfl, fun k c v hc hv => ?_⟩
    rcases k with _ | _ | k
    · obtain rfl := Option.some.inj hc
      obtain rfl := Option.some.inj (Option.some.inj hv)
      rfl
    · obtain rfl := Option.some.inj hc
      obtain rfl := Option.some.inj (Option.some.inj hv)
      rfl
    · cases hc
  have hfollowed : Engine.Along .reject (fun e m => m.Followed 0 e ∧ m.Spares 7) Sample.wideInserted
      [Sample.narrowing] := by
    refine .cons ⟨fun t fresh ht hfresh => ?_, trivial⟩ trivial
    obtain rfl := Option.some.inj ht
    obtain rfl := Option.some.inj hfresh
    refine ⟨by simp [TableDesc.WellFormed, Sample.desc], ?_⟩
    unfold DeltaSink.Follows
    decide
  have hwf : Sample.wideDesc.WellFormed := by simp [TableDesc.WellFormed, Sample.wideDesc]
  have hopen : DeltaSink.openOrCreate "lake/t" none Sample.wideDesc =
      .ok (Sample.sink Sample.wideDesc) := rfl
  have ht : (Sample.engine [Sample.wideDesc]).tables[0]? =
      some (Table.opened Sample.wideDesc (Sample.sink Sample.wideDesc)) := rfl
  have hrun : (Sample.engine [Sample.wideDesc]).moves .reject [] = (_, true) := rfl
  have hnone : Engine.Along .reject (fun e m => m.Followed 0 e) (Sample.engine [Sample.wideDesc]) [] :=
    trivial
  have hrun₁ : Sample.wideInserted.moves .reject [Sample.narrowing] =
      ((Sample.wideInserted.move .reject Sample.narrowing).1, true) := rfl
  have ht₂ : (Sample.wideInserted.move .reject Sample.narrowing).1.tables[0]? =
      some { Table.opened (Sample.desc "t" 16384)
        ((Sample.sink Sample.wideDesc).evolve (Sample.desc "t" 16384).cols).1 with mirror := ∅ } := rfl
  exact Engine.inFlight_carried hwf hopen rfl ht hnone hrun ht htyped hnone hrun
    (List.mem_singleton.mpr rfl) rfl hfollowed hrun₁ ht₂ (List.mem_singleton.mpr rfl) (by decide)

/-- The value under the dropped column does not reach Delta. -/
theorem inFlight_dropped_null :
    ∃ t₃ r, Sample.narrowed.tables[0]? = some t₃ ∧
      r ∈ (t₃.sink.makeBatch t₃.pending.rows).rows ∧
      Emits (30, .insert (0, 1) ⟨[some (.i32 1), some (.i32 7)], none⟩) r ∧
      ∃ dc ∈ (t₃.sink.makeBatch t₃.pending.rows).cols, dc.col.name = "n" ∧
        Row.get Sample.wideDesc.cols r.row dc.col.name = some (.i32 7) ∧ dc.cell r.row = none := by
  refine ⟨_, _, rfl, List.mem_singleton.mpr rfl, ⟨rfl, rfl, rfl, rfl⟩, ?_⟩
  refine ⟨⟨⟨"n", .int4⟩, none⟩, ?_, rfl, ?_, rfl⟩
  · decide
  · decide

end Ltap
