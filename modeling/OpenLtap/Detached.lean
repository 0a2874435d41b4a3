-- SUMMARY: When the Delta copy of a detached table stays as it is.
import OpenLtap.Compaction
import OpenLtap.Engine.Moves
import OpenLtap.Isolation
import OpenLtap.Paths
import OpenLtap.Recovery.RestartFloor
import OpenLtap.Routing

/-!
# Detached tables

A table that left the catalog stays in the engine with filenode 0, and its Delta table
is kept. Records, commits, flush rounds and catalog checks pass it by. Compaction still
rewrites its log, and the recovery from lost records re-snapshots every table, this one
too: its rows are tombstoned before the snapshot fails.
-/

namespace Ltap

/-! ## Ops of other tables -/

/-- No open transaction has an op of table `i`. -/
def TxBuffer.Without (b : TxBuffer) (i : Nat) : Prop :=
  ∀ x tx, b.openTxs.lookup x = some tx → ∀ p ∈ tx.ops, p.table ≠ i

namespace TxBuffer.Without

variable {b : TxBuffer} {i : Nat}

theorem empty (i : Nat) : TxBuffer.Without .empty i := by
  intro x tx hx
  cases hx

theorem opsOf (h : b.Without i) (x : Xid) : ∀ p ∈ b.opsOf x, p.table ≠ i := by
  intro p hp
  rw [TxBuffer.opsOf] at hp
  cases hx : b.openTxs.lookup x with
  | none => simp [hx] at hp
  | some tx =>
    rw [hx] at hp
    exact h x tx hx p hp

theorem remove (h : b.Without i) (x : Xid) : (b.remove x).Without i := by
  intro y tx hy
  rw [TxBuffer.remove] at hy
  by_cases hxy : y = x
  · rw [hxy, AList.lookup_erase] at hy
    cases hy
  · rw [AList.lookup_erase_ne hxy] at hy
    exact h y tx hy

theorem drain (h : b.Without i) (xs : List Xid) :
    (b.drain xs).2.Without i ∧ ∀ p ∈ (b.drain xs).1, p.table ≠ i := by
  induction xs generalizing b with
  | nil => exact ⟨h, by simp [TxBuffer.drain]⟩
  | cons x xs ih =>
    obtain ⟨hrest, hops⟩ := ih (h.remove x)
    refine ⟨hrest, fun p hp => ?_⟩
    rcases List.mem_append.mp hp with hp | hp
    · exact h.opsOf x p hp
    · exact hops p hp

theorem commit (h : b.Without i) (xid : Xid) (subxids : List Xid) :
    (b.commit xid subxids).2.Without i ∧ ∀ p ∈ (b.commit xid subxids).1, p.table ≠ i := by
  obtain ⟨hrest, hops⟩ := h.drain (xid :: subxids)
  exact ⟨hrest, fun p hp => hops p ((List.mem_insertionSort _).mp hp)⟩

theorem addOp (h : b.Without i) (xid : Xid) (lsn : Lsn) {table : Nat} (ht : table ≠ i) (op : Op) :
    (b.addOp xid lsn table op).Without i := by
  intro y tx hy p hp
  simp only [TxBuffer.addOp] at hy
  by_cases hxy : y = xid
  · rw [hxy, AList.lookup_insert] at hy
    obtain rfl := Option.some.inj hy
    rcases List.mem_append.mp hp with hp | hp
    · cases hx : b.openTxs.lookup xid with
      | none => simp [hx] at hp
      | some tx =>
        rw [hx] at hp
        exact h xid tx hx p hp
    · obtain rfl := List.mem_singleton.mp hp
      exact ht
  · rw [AList.lookup_insert_ne hxy] at hy
    exact h y tx hy p hp

theorem addOps (h : b.Without i) (xid : Xid) (lsn : Lsn) {table : Nat} (ht : table ≠ i)
    (ops : List Op) : (Engine.addOps b xid lsn table ops).Without i := by
  induction ops generalizing b with
  | nil => exact h
  | cons op ops ih => exact ih (h.addOp xid lsn ht op)

end TxBuffer.Without

/-- The table that a record's changes are for. -/
def Effect.table? : Effect → Option Nat
  | .ops _ table _ | .drift table => some table
  | _ => none

namespace Engine

theorem tableEffect_table? {xid : Xid} {ti j : Nat} {change : Except DecodeError (List Op)}
    (h : (tableEffect xid ti change).table? = some j) : j = ti := by
  cases change with
  | ok ops => exact (Option.some.inj h).symm
  | error err =>
    cases err with
    | schemaDrift => exact (Option.some.inj h).symm
    | other msg => cases h

theorem catalogEffect_table? (rec : Record) : (catalogEffect rec).table? = none := by
  unfold catalogEffect
  split
  · rfl
  · rfl

theorem routed_table? {e : Engine} {xid : Xid} {rel : Oid} {j : Nat}
    {change : Nat → Table → Except DecodeError (List Op)}
    (h : Effect.table? (match e.tableOf rel with
      | none => .skip
      | some (ti, t) => tableEffect xid ti (change ti t)) = some j) :
    e.relToTable.lookup rel = some j := by
  split at h
  · cases h
  · rename_i ti t hof
    obtain rfl := tableEffect_table? h
    rw [tableOf, Option.bind_eq_some_iff] at hof
    obtain ⟨k, hk, hmap⟩ := hof
    obtain ⟨u, -, heq⟩ := Option.map_eq_some_iff.mp hmap
    obtain rfl := (Prod.mk.inj heq).1
    exact hk

/-- Changes go to the table that the record's relfilenode is routed to. -/
theorem effectOf_routed {dec : TupleDecoder} {e : Engine} {lsn : Lsn} {rec : Record} {j : Nat}
    (h : (e.effectOf dec lsn rec).table? = some j) :
    ∃ b ∈ rec.blocks, e.relToTable.lookup b.rel.rel = some j := by
  unfold effectOf at h
  split at h
  · cases h
  · split at h
    · unfold smgrEffect at h
      split at h
      · split at h
        · split at h
          · cases h
          · cases h
        · cases h
      · cases h
    · split at h
      · unfold heapEffect at h
        split at h
        · cases h
        · rename_i block0 hblock
          split at h
          · rw [catalogEffect_table?] at h
            cases h
          · split at h
            · unfold toastInsertEffect at h
              split at h
              · cases h
              · cases h
            · exact ⟨block0, List.mem_of_find?_eq_some hblock, routed_table? h⟩
      · split at h
        · unfold heap2Effect at h
          split at h
          · cases h
          · split at h
            · cases h
            · rename_i block0 hblock
              split at h
              · rw [catalogEffect_table?] at h
                cases h
              · exact ⟨block0, List.mem_of_find?_eq_some hblock, routed_table? h⟩
        · split at h
          · unfold xactEffect at h
            simp only at h
            split at h
            · cases h
            · split at h
              · cases h
              · cases h
          · cases h

end Engine

/-! ## Resting tables -/

/-- Rows as readers see them. -/
abbrev View := Set (Lsn × Nat × Bool × Ctid × List (Option Value))

/-- A table with nothing to write, whose change log conforms and shows `v`. -/
structure Table.Rests (t : Table) (d : TableDesc) (u : String) (v : View) : Prop where
  desc : t.desc = d
  uri : t.sink.uri = u
  pending : t.pending.rows = []
  conforms : d.pk ≠ [] → t.sink.Conforms d
  view : t.sink.view d = v

namespace Engine

/-- Table `i` is detached and rests. No op waits for it, no relation is routed to it, and no
other table writes to its path. -/
structure Frozen (i : Nat) (d : TableDesc) (u : String) (v : View) (e : Engine) : Prop where
  detached : d.relNode = 0
  table : ∃ t, e.tables[i]? = some t ∧ t.Rests d u v
  unbuffered : e.txbuf.Without i
  unrouted : ∀ rel, e.relToTable.lookup rel = some i → rel = 0
  alone : ∀ (j : Nat) (t : Table), e.tables[j]? = some t → t.sink.uri = u → j = i

/-- The change log of table `i` shows `v`, and no other table writes to its path. -/
def Shows (i : Nat) (d : TableDesc) (u : String) (v : View) (e : Engine) : Prop :=
  (∃ t, e.tables[i]? = some t ∧ t.sink.uri = u ∧ t.sink.view d = v) ∧
    ∀ (j : Nat) (t : Table), e.tables[j]? = some t → t.sink.uri = u → j = i

variable {dec : TupleDecoder} {i : Nat} {d : TableDesc} {u : String} {v : View} {e : Engine}

theorem Frozen.shows (h : Frozen i d u v e) : Shows i d u v e := by
  obtain ⟨t, ht, hrest⟩ := h.table
  exact ⟨⟨t, ht, hrest.uri, hrest.view⟩, h.alone⟩

theorem alone_of_uris {ts ts' : List Table} (huris : ts'.map (·.sink.uri) = ts.map (·.sink.uri))
    (h : ∀ (j : Nat) (t : Table), ts[j]? = some t → t.sink.uri = u → j = i) :
    ∀ (j : Nat) (t : Table), ts'[j]? = some t → t.sink.uri = u → j = i := by
  intro j t' ht' huri
  obtain ⟨t, ht, heq⟩ := exists_getElem?_of_map_eq huris ht'
  exact h j t ht (heq.symm.trans huri)

theorem uris_of_places {ts ts' : List Table} (h : ts'.map Table.place = ts.map Table.place) :
    ts'.map (·.sink.uri) = ts.map (·.sink.uri) := by
  have hsnd := congrArg (List.map Prod.snd) h
  simpa [List.map_map, Function.comp_def, Table.place] using hsnd

/-- What leaves table `i` and the routing alone keeps it frozen. -/
theorem Frozen.congr {e' : Engine} (h : Frozen i d u v e) (htable : e'.tables[i]? = e.tables[i]?)
    (huris : e'.tables.map (·.sink.uri) = e.tables.map (·.sink.uri)) (hbuf : e'.txbuf.Without i)
    (hrel : e'.relToTable = e.relToTable) : Frozen i d u v e' := by
  obtain ⟨t, ht, hrest⟩ := h.table
  exact ⟨h.detached, ⟨t, htable.trans ht, hrest⟩, hbuf, by rw [hrel]; exact h.unrouted,
    alone_of_uris huris h.alone⟩

/-! ## Records -/

/-- A record of a relation, or an outcome that the host reports. No relation has filenode 0. -/
def OfRelation (dec : TupleDecoder) (e : Engine) (lsn : Lsn) (eff : Effect) : Prop :=
  eff.table? = none ∨ ∃ rec : Record, eff = e.effectOf dec lsn rec ∧ ∀ b ∈ rec.blocks, b.rel.rel ≠ 0

theorem Frozen.applyEffect (h : Frozen i d u v e) (now : Instant) {lsn : Lsn} {eff : Effect}
    (heff : OfRelation dec e lsn eff) : Frozen i d u v (e.applyEffect now lsn eff) := by
  have hne : ∀ j, eff.table? = some j → j ≠ i := by
    rintro j hj rfl
    rcases heff with hnone | ⟨rec, rfl, hrel⟩
    · rw [hnone] at hj
      cases hj
    · obtain ⟨b, hb, hlookup⟩ := effectOf_routed hj
      exact hrel b hb (h.unrouted _ hlookup)
  have huris := uris_of_places (places_of_addresses (e.applyEffect_addresses now lsn eff))
  cases eff with
  | commit xid subxids =>
    obtain ⟨hbuf, hops⟩ := h.unbuffered.commit xid subxids
    refine h.congr ?_ huris hbuf rfl
    have hnone : (e.txbuf.commit xid subxids).1.filter (·.table = i) = [] :=
      List.filter_eq_nil_iff.mpr fun p hp => by simpa using hops p hp
    have hcommit := getElem?_commitOps now lsn e.tables (e.txbuf.commit xid subxids).1 i
    rw [hnone] at hcommit
    refine hcommit.trans ?_
    simp [Table.commitOps]
  | abort xid subxids => exact h.congr rfl huris (h.unbuffered.drain (xid :: subxids)).1 rfl
  | ops xid table ops =>
    exact h.congr rfl huris (h.unbuffered.addOps xid lsn (hne table rfl) ops) rfl
  | drift table =>
    refine h.congr ?_ huris h.unbuffered rfl
    simp [Engine.applyEffect, noteDrift, hne table rfl]
  | skip | suspect | toastChunk => exact h.congr rfl huris h.unbuffered rfl

/-! ## Flush rounds, compactions, and re-snapshots -/

theorem flushAll_resting {ok : AppendOk} {now : Instant} {persisted : Lsn} {t : Table}
    (ht : e.tables[i]? = some t) (hpending : t.pending.rows = []) :
    (e.flushAll ok now persisted).1.tables[i]? = some t := by
  simp only [flushAll]
  split
  · exact ht
  · have hlt : i < (flushTables ok e.restartLsn 0 e.tables).1.length := by
      rw [flushTables_length]
      exact (List.getElem?_eq_some_iff.mp ht).1
    obtain ⟨t₀, ht₀, hcase⟩ := flushTables_cases (List.getElem?_eq_getElem hlt)
    obtain rfl := Option.some.inj (ht.symm.trans ht₀)
    rcases hcase with hsame | ⟨hrows, -⟩
    · rw [← hsame]
      exact List.getElem?_eq_getElem hlt
    · exact absurd hpending hrows

theorem Frozen.flushAll (h : Frozen i d u v e) (ok : AppendOk) (now : Instant) (persisted : Lsn) :
    Frozen i d u v (e.flushAll ok now persisted).1 := by
  obtain ⟨t, ht, hrest⟩ := h.table
  obtain ⟨hrel, -, -, -⟩ := e.flushAll_frame ok now persisted
  have hbuf := (e.flushAll_sameVolatile ok now persisted).txbuf
  refine h.congr ?_ (uris_of_places (e.flushAll_places ok now persisted)) (hbuf ▸ h.unbuffered) hrel
  rw [ht]
  exact flushAll_resting ht hrest.pending

/-- A compaction of table `i` is not due, or no newest live row of it shares its key string
with a newer row of another key, and the kept indices fit. -/
def CompactsClean (i : Nat) (e : Engine) : Prop :=
  e.compactRows = 0 ∨ ∀ t, e.tables[i]? = some t → e.compactRows ≤ t.rowsSinceCompaction →
    t.sink.KeysApart t.desc ∧ (t.sink.Settled t.desc ∨ t.sink.IndicesFit t.desc)

theorem Frozen.maybeCompact (h : Frozen i d u v e) (hclean : e.CompactsClean i) :
    Frozen i d u v e.maybeCompact.1 := by
  have huris := uris_of_places e.maybeCompact_places
  simp only [Engine.maybeCompact] at huris ⊢
  split at huris
  · rename_i hoff
    rw [if_pos hoff]
    exact h
  · rename_i hon
    rw [if_neg hon]
    obtain ⟨t, ht, hrest⟩ := h.table
    have hlt : i < (compactTables e.compactRows e.tables).1.length := by
      have hlen := congrArg List.length huris
      simp only [List.length_map] at hlen
      rw [hlen]
      exact (List.getElem?_eq_some_iff.mp ht).1
    obtain ⟨t₀, ht₀, hcase⟩ := compactTables_stepped (List.getElem?_eq_getElem hlt)
    obtain rfl := Option.some.inj (ht.symm.trans ht₀)
    refine ⟨h.detached, ⟨_, List.getElem?_eq_getElem hlt, ?_⟩, h.unbuffered, h.unrouted,
      alone_of_uris huris h.alone⟩
    rcases hcase with hsame | ⟨hdue, hpk, hskip | ⟨sink, before, after, hdone, heq⟩⟩
    · rw [hsame]
      exact hrest
    · rw [hskip]
      exact ⟨hrest.desc, hrest.uri, hrest.pending, hrest.conforms, hrest.view⟩
    · rw [heq]
      obtain ⟨hapart, hfit⟩ := hclean.resolve_left hon t ht hdue
      obtain ⟨huri, -, hcols⟩ := DeltaSink.compact_done hdone
      rw [hrest.desc] at hpk hapart hfit hdone
      have hconforms := hrest.conforms hpk
      have hcompacted := hconforms.compacted hpk hapart hfit hdone
      exact ⟨hrest.desc, huri.trans hrest.uri, hrest.pending,
        fun _ => hconforms.of_compacted hpk hapart hfit hdone,
        (hcompacted.view_eq hconforms hcols).trans hrest.view⟩

/-- A re-snapshot spares table `i`: it is not asked for, or it fails before anything of the
table is written. -/
def Spares (i : Nat) (e : Engine) (env : PgEnv) (args : Table → Option RemapArgs) : Prop :=
  ∀ t, e.tables[i]? = some t → args t = none ∨
    (t.mirror.entries = [] ∨ env.appendOk i .tombstone = false) ∧ env.snapshot t.desc = none

theorem remapTable_spared {t : Table} {now : Instant} {args : RemapArgs} {ok : AppendSite → Bool}
    (hpending : t.pending.rows = []) (h : t.mirror.entries = [] ∨ ok .tombstone = false) :
    (t.remapTable dec now args none ok).1.sink = t.sink ∧
      (t.remapTable dec now args none ok).2 = false := by
  have hrows := t.drainMirror_rows now args.tombstoneLsn
  rw [hpending, List.nil_append] at hrows
  simp only [Table.remapTable]
  split
  · exact ⟨rfl, rfl⟩
  · rename_i hgo
    have hnil : (t.drainMirror now args.tombstoneLsn).pending.rows = [] := by
      rcases h with hempty | hfails
      · rw [hrows, Table.tombstones, hempty]
        rfl
      · simpa [hfails] using hgo
    rw [if_pos hnil]
    exact ⟨rfl, rfl⟩

theorem resnapshotTables_uris (dec : TupleDecoder) (env : PgEnv) (now : Instant) (args : Table → Option RemapArgs)
    (k : Nat) (ts : List Table) :
    (resnapshotTables dec env now args k ts).1.map (·.sink.uri) = ts.map (·.sink.uri) := by
  induction ts generalizing k with
  | nil => rfl
  | cons t ts ih =>
    simp only [resnapshotTables]
    split
    · simp [ih]
    · rename_i a _
      have huri := (t.remapTable_spec dec now a (env.snapshot t.desc) (env.appendOk k)).2.1
      split
      · simp [ih, huri]
      · simp [huri]

theorem Frozen.resnapshot (h : Frozen i d u v e) {env : PgEnv} {args : Table → Option RemapArgs}
    (hspares : e.Spares i env args) (now : Instant) :
    Shows i d u v { e with tables := (resnapshotTables dec env now args 0 e.tables).1 } ∧
      ((resnapshotTables dec env now args 0 e.tables).2 = true →
        Frozen i d u v { e with tables := (resnapshotTables dec env now args 0 e.tables).1 }) := by
  obtain ⟨t, ht, hrest⟩ := h.table
  have huris := resnapshotTables_uris dec env now args 0 e.tables
  have hlt : i < (resnapshotTables dec env now args 0 e.tables).1.length := by
    rw [resnapshotTables_length]
    exact (List.getElem?_eq_some_iff.mp ht).1
  have hget := List.getElem?_eq_getElem hlt
  refine ⟨⟨⟨_, hget, ?_⟩, alone_of_uris huris h.alone⟩, fun hok => ?_⟩
  · obtain ⟨t₀, ht₀, hcase⟩ := resnapshotTables_cases hget
    obtain rfl := Option.some.inj (ht.symm.trans ht₀)
    have hsink : (resnapshotTables dec env now args 0 e.tables).1[i].sink = t.sink := by
      rcases hcase with hsame | ⟨a, ha, hcall⟩
      · rw [hsame]
      · rcases hspares t ht with hnone | ⟨hcut, hgone⟩
        · rw [hnone] at ha
          cases ha
        · rw [hcall, hgone]
          exact (remapTable_spared hrest.pending (by simpa using hcut)).1
    rw [hsink]
    exact ⟨hrest.uri, hrest.view⟩
  · refine h.congr ?_ huris h.unbuffered rfl
    obtain ⟨t', ht', hcase⟩ := resnapshotTables_ok (Prod.ext rfl hok) ht
    rcases hcase with ⟨-, rfl⟩ | ⟨a, s, ha, hs, -⟩
    · exact ht'.trans ht.symm
    · rcases hspares t ht with hnone | ⟨-, hgone⟩
      · rw [hnone] at ha
        cases ha
      · rw [hgone] at hs
        cases hs

/-! ## Catalog checks -/

theorem remapTables_uris (dec : TupleDecoder) (env : PgEnv) (now : Instant) (ddlLsn restart : Lsn)
    (k : Nat) (ts : List Table) :
    (remapTables dec env now ddlLsn restart k ts).1.map (·.sink.uri) = ts.map (·.sink.uri) := by
  induction ts generalizing k with
  | nil => rfl
  | cons t ts ih =>
    have huri := (t.remapStep_spec dec env now k ddlLsn restart).1
    simp only [remapTables]
    split
    · simp [ih, huri]
    · simp [huri]

theorem remapTables_oids (dec : TupleDecoder) {env : PgEnv}
    (hoid : ∀ o d, env.discoverByOid o = some d → d.oid = o) (now : Instant) (ddlLsn restart : Lsn) (k : Nat) (ts : List Table) :
    (remapTables dec env now ddlLsn restart k ts).1.map (·.desc.oid) = ts.map (·.desc.oid) := by
  induction ts generalizing k with
  | nil => rfl
  | cons t ts ih =>
    have hkeep := t.remapStep_oid dec env now k ddlLsn restart fun fresh hfresh => hoid _ _ hfresh
    simp only [remapTables]
    split
    · simp [ih, hkeep]
    · simp [hkeep]

theorem remapTables_detached (dec : TupleDecoder) (env : PgEnv) (now : Instant)
    (ddlLsn restart : Lsn) {ts : List Table} {t : Table} (ht : ts[i]? = some t)
    (hnode : t.desc.relNode = 0) :
    (remapTables dec env now ddlLsn restart 0 ts).1[i]? = some t := by
  have hlt : i < (remapTables dec env now ddlLsn restart 0 ts).1.length := by
    rw [remapTables_length]
    exact (List.getElem?_eq_some_iff.mp ht).1
  obtain ⟨t₀, ht₀, hcase⟩ := remapTables_cases (List.getElem?_eq_getElem hlt)
  obtain rfl := Option.some.inj (ht.symm.trans ht₀)
  have hstep : ∀ k, (t.remapStep dec env now k ddlLsn restart).table = t := by
    intro k
    rw [Table.remapStep, if_pos hnode]
  rw [List.getElem?_eq_getElem hlt]
  rcases hcase with hsame | hstepped
  · rw [hsame]
  · rw [hstepped, hstep]

theorem attachNew_relToTable (dec : TupleDecoder) (env : PgEnv) (cfg : Config) (e : Engine) :
    (e.attachNew dec env cfg).relToTable = e.relToTable := by
  simp only [attachNew]
  split
  · generalize tablesToAttach _ _ _ = entries
    induction entries generalizing e with
    | nil => rfl
    | cons p entries ih =>
      exact (ih (e.attachOne dec env cfg p.2)).trans (attachOne_frame dec env cfg e p.2).1
  · rfl

/-- The catalog answers by oid, and a table that would be attached at the path of table `i`
is already tracked. -/
def PathFree (i : Nat) (e : Engine) (env : PgEnv) (cfg : Config) : Prop :=
  (∀ o d, env.discoverByOid o = some d → d.oid = o) ∧
    ∀ t, e.tables[i]? = some t → ∀ p ∈ env.listTables.getD [], ∀ d, env.discover p.2 = some d →
      deltaUri cfg.lake d.name = t.sink.uri → p.1 ∈ e.tables.map (·.desc.oid)

theorem Frozen.remapCheck (h : Frozen i d u v e) {env : PgEnv} {cfg : Config}
    (hfree : e.PathFree i env cfg) (now : Instant) (ddlLsn persisted : Lsn) :
    Frozen i d u v (e.remapCheck dec env cfg now ddlLsn persisted).1 := by
  generalize hres : e.remapCheck dec env cfg now ddlLsn persisted = res
  obtain ⟨e', persisted', ok⟩ := res
  obtain ⟨e₁, flushed, hflush, hcase⟩ := remapCheck_cases hres
  have h₁ : Frozen i d u v e₁ := by
    have hfrozen := h.flushAll env.appendOk now persisted
    rwa [hflush] at hfrozen
  rcases hcase with ⟨-, -, rfl⟩ | ⟨-, nodes, tables, changed, done, htables, hcase⟩
  · exact h₁
  have huris := remapTables_uris dec env now ddlLsn e₁.restartLsn 0 e₁.tables
  rw [htables] at huris
  obtain ⟨t, ht, hrest⟩ := h₁.table
  have hsame := remapTables_detached dec env now ddlLsn e₁.restartLsn ht
    (by rw [hrest.desc]; exact h.detached)
  rw [htables] at hsame
  have h₂ : Frozen i d u v { e₁ with catalogRels := nodes, tables } :=
    h₁.congr (hsame.trans ht.symm) huris h₁.unbuffered rfl
  rcases hcase with ⟨-, -, rfl⟩ | ⟨-, -, e₂, he₂, hcase⟩
  · exact h₂
  -- The tables that are attached lie elsewhere.
  obtain ⟨new, hnew, hattached⟩ := attachNew_tables dec env cfg { e₁ with catalogRels := nodes, tables }
  have hrel := attachNew_relToTable dec env cfg { e₁ with catalogRels := nodes, tables }
  have hbuf := (attachNew_sameVolatile dec env cfg { e₁ with catalogRels := nodes, tables }).txbuf
  rw [← he₂] at hnew hrel hbuf
  have hoids : tables.map (·.desc.oid) = e.tables.map (·.desc.oid) := by
    have hloop := remapTables_oids dec hfree.1 now ddlLsn e₁.restartLsn 0 e₁.tables
    rw [htables] at hloop
    have hflushed := e.flushAll_places env.appendOk now persisted
    rw [hflush] at hflushed
    exact hloop.trans (oids_of_identities (identities_of_places hflushed))
  have hlen : i < tables.length := (List.getElem?_eq_some_iff.mp hsame).1
  have hfrozen : Frozen i d u v e₂ := by
    refine ⟨h.detached, ⟨t, ?_, hrest⟩, hbuf ▸ h₂.unbuffered, hrel ▸ h₂.unrouted, ?_⟩
    · rw [hnew, List.getElem?_append_left hlen]
      exact hsame
    · intro j t' ht' huri
      rw [hnew] at ht'
      rcases Nat.lt_or_ge j tables.length with hj | hj
      · rw [List.getElem?_append_left hj] at ht'
        exact h₂.alone j t' ht' huri
      · rw [List.getElem?_append_right hj] at ht'
        obtain ⟨ti, entry, hentry, hattach⟩ := hattached t' (List.mem_of_getElem? ht')
        obtain ⟨s, hdiscover, -, hpath, -⟩ := Table.attach_some hattach
        obtain ⟨t₀, ht₀, hrest₀⟩ := h.table
        obtain ⟨hlisted, hnot⟩ := List.mem_filter.mp hentry
        simp only [decide_eq_true_eq, List.mem_toFinset] at hnot
        refine absurd ?_ hnot.1
        have htracked := hfree.2 t₀ ht₀ entry hlisted t'.desc hdiscover
          (by rw [← hpath, huri, hrest₀.uri])
        rw [← hoids] at htracked
        exact htracked
  rcases hcase with rfl | rfl
  · exact hfrozen
  · refine ⟨h.detached, hfrozen.table, hfrozen.unbuffered, fun rel hlookup => ?_, hfrozen.alone⟩
    obtain ⟨t', ht', hnode⟩ := routes_lookup hlookup
    obtain ⟨t₂, ht₂, hrest₂⟩ := hfrozen.table
    obtain rfl := Option.some.inj (ht'.symm.trans ht₂)
    rw [← hnode, hrest₂.desc]
    exact h.detached

/-! ## Runs -/

/-- What a run asks of its moves. -/
def Move.Leaves (dec : TupleDecoder) (i : Nat) (e : Engine) : Move → Prop
  | .record _ lsn eff => OfRelation dec e lsn eff
  | .compact => e.CompactsClean i
  | .remap env cfg _ _ _ => e.PathFree i env cfg
  | .resnapshot env _ args => e.Spares i env args
  | _ => True

theorem Frozen.move (h : Frozen i d u v e) {m : Move} (hm : m.Leaves dec i e) :
    Shows i d u v (e.move dec m).1 ∧ ((e.move dec m).2 = true → Frozen i d u v (e.move dec m).1) := by
  have hboth : ∀ {r : Engine × Bool}, Frozen i d u v r.1 →
      Shows i d u v r.1 ∧ (r.2 = true → Frozen i d u v r.1) :=
    fun hr => ⟨hr.shows, fun _ => hr⟩
  cases m with
  | record now lsn eff => exact hboth (h.applyEffect now hm)
  | applied lsn => exact hboth (h.congr rfl rfl h.unbuffered rfl)
  | flush env now persisted => exact hboth (h.flushAll env.appendOk now persisted)
  | compact => exact hboth (h.maybeCompact hm)
  | remap env cfg now ddlLsn persisted =>
    have h₀ : Frozen i d u v { e with remapAt := none } := h.congr rfl rfl h.unbuffered rfl
    exact hboth (h₀.remapCheck hm now ddlLsn persisted)
  | forget => exact hboth (h.congr rfl rfl (.empty i) rfl)
  | resnapshot env now args => exact h.resnapshot hm now
  | stop => exact hboth h

/-- The check that detached table `i`. -/
theorem frozen_of_detached {e₀ : Engine} {env : PgEnv} {cfg : Config} {now : Instant}
    {ddlLsn persisted persisted' : Lsn} {t : Table}
    (hcheck : e₀.remapCheck dec env cfg now ddlLsn persisted = (e, persisted', true))
    (ht : e₀.tables[i]? = some t) (hnode : t.desc.relNode ≠ 0)
    (hgone : env.discoverByOid t.desc.oid = none) (hbuf : e₀.txbuf.Without i) {t' : Table}
    (ht' : e.tables[i]? = some t') (hconforms : t'.desc.pk ≠ [] → t'.sink.Conforms t'.desc)
    (halone : ∀ (j : Nat) (u : Table), e.tables[j]? = some u → u.sink.uri = t'.sink.uri → j = i) :
    Frozen i t'.desc t'.sink.uri (t'.sink.view t'.desc) e := by
  have hpending := remapCheck_pending hcheck t' (List.mem_of_getElem? ht')
  obtain ⟨e₁, nodes, tables, changed, hflush, htables, he⟩ := remapCheck_ok hcheck
  have hdescs := (e₀.flushAll_frame env.appendOk now persisted).2.2.2
  rw [hflush] at hdescs
  -- Table `i` before the loop.
  obtain ⟨t₁, ht₁, hdesc₁⟩ : ∃ t₁, e₁.tables[i]? = some t₁ ∧ t₁.desc = t.desc := by
    obtain ⟨t₁, ht₁, heq⟩ := exists_getElem?_of_map_eq hdescs.symm ht
    exact ⟨t₁, ht₁, (congrArg Prod.fst heq).symm⟩
  have hlt : i < tables.length := by
    have hlen := remapTables_length dec env now ddlLsn e₁.restartLsn 0 e₁.tables
    rw [htables] at hlen
    exact lt_of_lt_of_eq (List.getElem?_eq_some_iff.mp ht₁).1 hlen.symm
  obtain ⟨t₀, ht₀, hstep, -, hunchanged⟩ := remapTables_ok htables (List.getElem?_eq_getElem hlt)
  obtain rfl := Option.some.inj (ht₁.symm.trans ht₀)
  have hdetached : t₁.remapStep dec env now (0 + i) ddlLsn e₁.restartLsn = ⟨t₁.detach, true, true⟩ := by
    rw [Table.remapStep, if_neg (by rw [hdesc₁]; exact hnode), hdesc₁, hgone]
  rw [hdetached] at hstep hunchanged
  obtain rfl : changed = true := by
    by_contra hfalse
    cases hunchanged (by simpa using hfalse)
  obtain ⟨new, hnew, -⟩ := attachNew_tables dec env cfg { e₁ with catalogRels := nodes, tables }
  have htx : e.txbuf = e₀.txbuf := by
    have hsame := (e₀.remapCheck_sameVolatile dec env cfg now ddlLsn persisted).txbuf
    rwa [hcheck] at hsame
  rw [if_pos (by simp)] at he
  have htable : e.tables = tables ++ new := by
    rw [he]
    exact hnew
  obtain rfl : t' = t₁.detach := by
    rw [htable, List.getElem?_append_left hlt, List.getElem?_eq_getElem hlt, hstep] at ht'
    exact (Option.some.inj ht').symm
  refine ⟨rfl, ⟨_, ht', rfl, rfl, hpending, hconforms, rfl⟩, ?_, fun rel hlookup => ?_, halone⟩
  · rw [htx]
    exact hbuf
  · rw [he] at hlookup
    obtain ⟨t₂, ht₂, hnode₂⟩ := routes_lookup hlookup
    rw [hnew, ← htable] at ht₂
    obtain rfl := Option.some.inj (ht₂.symm.trans ht')
    exact hnode₂.symm

/-- From the check that detached a table on, its change log shows what it showed, also where
a step fails, in every run that re-snapshots other tables only. -/
theorem view_kept_of_detached {e₀ : Engine} {env : PgEnv} {cfg : Config} {now : Instant}
    {ddlLsn persisted persisted' : Lsn} {t : Table}
    (hcheck : e₀.remapCheck dec env cfg now ddlLsn persisted = (e, persisted', true))
    (ht : e₀.tables[i]? = some t) (hnode : t.desc.relNode ≠ 0)
    (hgone : env.discoverByOid t.desc.oid = none) (hbuf : e₀.txbuf.Without i) {t' : Table}
    (ht' : e.tables[i]? = some t') (hconforms : t'.desc.pk ≠ [] → t'.sink.Conforms t'.desc)
    (halone : ∀ (j : Nat) (u : Table), e.tables[j]? = some u → u.sink.uri = t'.sink.uri → j = i)
    {ms : List Move} (hms : Along dec (fun e m => m.Leaves dec i e) e ms) :
    Shows i t'.desc t'.sink.uri (t'.sink.view t'.desc) (e.moves dec ms).1 := by
  have hfrozen := frozen_of_detached hcheck ht hnode hgone hbuf ht' hconforms halone
  exact (moves_invariant (fun e h => h.shows) (fun e m h hm => h.move hm) hms hfrozen).1

end Engine

namespace Sample

/-- A running engine with one table, whose one row is in Delta. -/
def oneRowEngine : Engine := Engine.rebuildRouting { engine [] with tables := [oneRow] }

/-- `drop table t`. -/
def droppedEnv : PgEnv := { env [] 200 with snapshot := fun _ => none }

/-- The engine after the check that follows the drop. -/
def dropped : Engine := (oneRowEngine.remapCheck .reject droppedEnv cfg 0 150 100).1

/-- The table that is left. -/
def droppedTable : Table := oneRow.detach

theorem droppedTable_matches : droppedTable.sink.Matches droppedTable.desc.cols := by
  have hnone : ∀ dc ∈ ([] : List DeltaCol), dc.Points droppedTable.desc.cols := by simp
  exact DeltaSink.matches_of_addColumns (by decide) hnone rfl

theorem droppedTable_conforms : droppedTable.sink.Conforms droppedTable.desc where
  names := by decide
  pk := by decide
  columns := droppedTable_matches
  types := by decide
  stamped := by decide
  versions := by decide

end Sample

namespace Engine

/-- A commit, a flush tick and a catalog check after the drop. -/
theorem view_kept_of_detached_commit :
    Shows 0 Sample.droppedTable.desc "lake/t"
      (Sample.droppedTable.sink.view Sample.droppedTable.desc)
      (Sample.dropped.moves .reject [.record 0 200 (.commit 8 []), .flush Sample.droppedEnv 0 100,
        .compact, .remap Sample.droppedEnv Sample.cfg 0 200 100]).1 := by
  have hcheck : Sample.oneRowEngine.remapCheck .reject Sample.droppedEnv Sample.cfg 0 150 100 =
      (Sample.dropped, 100, true) := rfl
  have halone : ∀ (j : Nat) (u : Table), Sample.dropped.tables[j]? = some u →
      u.sink.uri = Sample.droppedTable.sink.uri → j = 0 := by
    intro j u hu _
    cases j with
    | zero => rfl
    | succ j => cases hu
  have hfree : ∀ e : Engine, e.PathFree 0 Sample.droppedEnv Sample.cfg := by
    refine fun e => ⟨fun o d hd => ?_, fun t _ p hp => ?_⟩
    · cases hd
    · cases hp
  exact view_kept_of_detached hcheck rfl (by decide) rfl (.empty 0) rfl
    (fun _ => Sample.droppedTable_conforms) halone
    (.cons (.inl rfl) (.cons trivial (.cons (.inl rfl) (.cons (hfree _) trivial))))

/-- Lost records after the drop: the row is gone from the view, and the driver stops. -/
theorem lost_tombstones_detached :
    let s : EmbedState := ⟨Sample.dropped, 100, some 150⟩
    let r := s.step .reject Sample.droppedEnv Sample.cfg 0 (.event (.lost 1))
    let row := (100, 0, false, (0, 1), [some (.i32 1)])
    r.2 = false ∧ ∃ t t', s.engine.tables[0]? = some t ∧ r.1.engine.tables[0]? = some t' ∧
      row ∈ t.sink.view t.desc ∧ row ∉ t'.sink.view t.desc := by
  refine ⟨rfl, _, _, rfl, rfl, ⟨_, List.mem_singleton.mpr rfl, rfl⟩, ?_⟩
  rintro ⟨x, hx, -⟩
  cases hx

end Engine

end Ltap
