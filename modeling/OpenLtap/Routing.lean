-- SUMMARY: When the routing of relfilenodes matches the descriptors of the tracked tables.
import OpenLtap.Engine.Moves
import OpenLtap.Paths
import OpenLtap.Tail

/-!
# Routing

Records are routed by relfilenode: `relToTable` leads to a table, `toastRels` are the toast
relations. Both are rebuilt by a catalog check that changed something. A table whose
filenode and columns are what they were gets its fresh descriptor without a rebuild.
-/

namespace Ltap

namespace Engine

/-- The routing is that of the descriptors. A detached table has filenode 0, which no
relation has. -/
structure Routed (e : Engine) : Prop where
  main : ∀ (rel : Oid) (i : Nat), rel ≠ 0 →
    (e.relToTable.lookup rel = some i ↔ ∃ t, e.tables[i]? = some t ∧ t.desc.relNode = rel)
  zero : ∀ i, e.relToTable.lookup 0 = some i → ∃ t, e.tables[i]? = some t ∧ t.desc.relNode = 0
  toast : ∀ rel, rel ∈ e.toastRels ↔
    ∃ t ∈ e.tables, t.desc.relNode ≠ 0 ∧ t.desc.toastRelNode = some rel

/-- The records of an attached table are routed to it. -/
theorem Routed.tableOf {e : Engine} (h : e.Routed) {i : Nat} {t : Table}
    (ht : e.tables[i]? = some t) (hnode : t.desc.relNode ≠ 0) :
    e.tableOf t.desc.relNode = some (i, t) := by
  have hlookup := (h.main t.desc.relNode i hnode).mpr ⟨t, ht, rfl⟩
  simp [Engine.tableOf, hlookup, ht]

end Engine

/-! ## Rebuilding -/

/-- The filenode of every table, in order. -/
def routes (ts : List Table) : Map Oid Nat :=
  ts.zipIdx.foldl (fun m (t, i) => m.insert t.desc.relNode i) ∅

theorem routes_concat (ts : List Table) (t : Table) :
    routes (ts ++ [t]) = (routes ts).insert t.desc.relNode ts.length := by
  simp [routes, List.zipIdx_append]

theorem routes_lookup {ts : List Table} {rel : Oid} {i : Nat} (h : (routes ts).lookup rel = some i) :
    ∃ t, ts[i]? = some t ∧ t.desc.relNode = rel := by
  induction ts using List.reverseRecOn with
  | nil => cases h
  | append_singleton ts t ih =>
    rw [routes_concat] at h
    by_cases hrel : rel = t.desc.relNode
    · subst hrel
      rw [AList.lookup_insert] at h
      obtain rfl := Option.some.inj h
      exact ⟨t, by simp, rfl⟩
    · rw [AList.lookup_insert_ne hrel] at h
      obtain ⟨u, hu, hnode⟩ := ih h
      refine ⟨u, ?_, hnode⟩
      rw [List.getElem?_append_left (List.getElem?_eq_some_iff.mp hu).1]
      exact hu

theorem routes_isSome {ts : List Table} {t : Table} (ht : t ∈ ts) :
    ((routes ts).lookup t.desc.relNode).isSome := by
  induction ts using List.reverseRecOn with
  | nil => cases ht
  | append_singleton ts u ih =>
    rw [routes_concat]
    by_cases hrel : t.desc.relNode = u.desc.relNode
    · rw [hrel, AList.lookup_insert]
      rfl
    · rw [AList.lookup_insert_ne hrel]
      rcases List.mem_append.mp ht with ht | ht
      · exact ih ht
      · obtain rfl := List.mem_singleton.mp ht
        exact absurd rfl hrel

/-! ## The catalog -/

/-- The ordinary tables of the database at one time. Each has a filenode of its own. -/
structure Relations where
  desc : Oid → Option TableDesc
  oid : ∀ o d, desc o = some d → d.oid = o
  relNode_ne : ∀ o d, desc o = some d → d.relNode ≠ 0
  relNode_inj : ∀ o o' d d', desc o = some d → desc o' = some d' → d.relNode = d'.relNode → o = o'

/-- The answers are those of one catalog; any of them may be an error instead. -/
structure PgEnv.AnswersFrom (env : PgEnv) (c : Relations) : Prop where
  discoverByOid : ∀ o d, env.discoverByOid o = some d → c.desc o = some d
  discover : ∀ name d, env.discover name = some d → c.desc d.oid = some d
  listed : ∀ l, env.listTables = some l → (l.map (·.1)).Nodup ∧
    ∀ p ∈ l, ∀ d, env.discover p.2 = some d → d.oid = p.1

/-- What routing rests on: tables are told apart by oid, attached ones by filenode, and
detached ones have no toast relation. -/
structure Engine.RoutingInv (e : Engine) : Prop where
  routed : e.Routed
  oids : (e.tables.map (·.desc.oid)).Nodup
  nodes : ∀ (i j : Nat) (t u : Table), e.tables[i]? = some t → e.tables[j]? = some u →
    t.desc.relNode = u.desc.relNode → t.desc.relNode ≠ 0 → i = j
  silent : ∀ t ∈ e.tables, t.desc.relNode = 0 → t.desc.toastRelNode = none

theorem Engine.rebuildRouting_routed {e : Engine}
    (hnodes : ∀ (i j : Nat) (t u : Table), e.tables[i]? = some t → e.tables[j]? = some u →
      t.desc.relNode = u.desc.relNode → t.desc.relNode ≠ 0 → i = j)
    (hsilent : ∀ t ∈ e.tables, t.desc.relNode = 0 → t.desc.toastRelNode = none) :
    e.rebuildRouting.Routed := by
  have hroutes : e.rebuildRouting.relToTable = routes e.tables := rfl
  refine ⟨fun rel i hrel => ?_, fun i hi => ?_, fun rel => ?_⟩
  · rw [hroutes]
    refine ⟨routes_lookup, ?_⟩
    rintro ⟨t, ht, rfl⟩
    have ht : e.tables[i]? = some t := ht
    obtain ⟨j, hj⟩ := Option.isSome_iff_exists.mp (routes_isSome (List.mem_of_getElem? ht))
    obtain ⟨u, hu, hnode⟩ := routes_lookup hj
    rw [hj, hnodes i j t u ht hu hnode.symm hrel]
  · rw [hroutes] at hi
    exact routes_lookup hi
  · simp only [rebuildRouting, List.mem_toFinset, List.mem_filterMap]
    refine ⟨?_, ?_⟩
    · rintro ⟨t, ht, htoast⟩
      refine ⟨t, ht, fun hzero => ?_, htoast⟩
      rw [hsilent t ht hzero] at htoast
      cases htoast
    · rintro ⟨t, ht, -, htoast⟩
      exact ⟨t, ht, htoast⟩

/-- What routing needs of a table. -/
def Table.route (t : Table) : Oid × Oid × Option Oid :=
  (t.desc.oid, t.desc.relNode, t.desc.toastRelNode)

/-- Only routes and routing count. -/
theorem Engine.RoutingInv.congr {e e' : Engine} (h : e.RoutingInv)
    (hroutes : e'.tables.map Table.route = e.tables.map Table.route)
    (hrel : e'.relToTable = e.relToTable) (htoast : e'.toastRels = e.toastRels) : e'.RoutingInv := by
  have hsame : ∀ {t t' : Table}, t'.route = t.route →
      t'.desc.relNode = t.desc.relNode ∧ t'.desc.toastRelNode = t.desc.toastRelNode := by
    intro t t' hroute
    simp only [Table.route, Prod.mk.injEq] at hroute
    exact hroute.2
  have hget : ∀ {i : Nat} {t' : Table}, e'.tables[i]? = some t' →
      ∃ t, e.tables[i]? = some t ∧ t'.route = t.route := by
    intro i t' ht'
    exact exists_getElem?_of_map_eq hroutes ht'
  have hback : ∀ {i : Nat} {t : Table}, e.tables[i]? = some t →
      ∃ t', e'.tables[i]? = some t' ∧ t'.route = t.route := by
    intro i t ht
    obtain ⟨t', ht', hroute⟩ := exists_getElem?_of_map_eq hroutes.symm ht
    exact ⟨t', ht', hroute.symm⟩
  refine ⟨⟨fun rel i hne => ?_, fun i hi => ?_, fun rel => ?_⟩, ?_, ?_, ?_⟩
  · rw [hrel, h.routed.main rel i hne]
    constructor
    · rintro ⟨t, ht, hnode⟩
      obtain ⟨t', ht', hroute⟩ := hback ht
      exact ⟨t', ht', (hsame hroute).1.trans hnode⟩
    · rintro ⟨t', ht', hnode⟩
      obtain ⟨t, ht, hroute⟩ := hget ht'
      exact ⟨t, ht, (hsame hroute).1.symm.trans hnode⟩
  · rw [hrel] at hi
    obtain ⟨t, ht, hnode⟩ := h.routed.zero i hi
    obtain ⟨t', ht', hroute⟩ := hback ht
    exact ⟨t', ht', (hsame hroute).1.trans hnode⟩
  · rw [htoast, h.routed.toast rel]
    constructor
    · rintro ⟨t, ht, hnode, htoast⟩
      obtain ⟨i, ht⟩ := List.mem_iff_getElem?.mp ht
      obtain ⟨t', ht', hroute⟩ := hback ht
      obtain ⟨hrel, hsametoast⟩ := hsame hroute
      exact ⟨t', List.mem_of_getElem? ht', by rw [hrel]; exact hnode, hsametoast.trans htoast⟩
    · rintro ⟨t', ht', hnode, htoast⟩
      obtain ⟨i, ht'⟩ := List.mem_iff_getElem?.mp ht'
      obtain ⟨t, ht, hroute⟩ := hget ht'
      obtain ⟨hrel, hsametoast⟩ := hsame hroute
      exact ⟨t, List.mem_of_getElem? ht, by rw [← hrel]; exact hnode, hsametoast.symm.trans htoast⟩
  · have hoids : e'.tables.map (·.desc.oid) = e.tables.map (·.desc.oid) := by
      have hfst := congrArg (List.map Prod.fst) hroutes
      simpa [List.map_map, Function.comp_def, Table.route] using hfst
    rw [hoids]
    exact h.oids
  · intro i j t' u' ht' hu' hnode hne
    obtain ⟨t, ht, hroute⟩ := hget ht'
    obtain ⟨u, hu, hroute'⟩ := hget hu'
    rw [(hsame hroute).1] at hnode hne
    rw [(hsame hroute').1] at hnode
    exact h.nodes i j t u ht hu hnode hne
  · intro t' ht' hzero
    obtain ⟨i, ht'⟩ := List.mem_iff_getElem?.mp ht'
    obtain ⟨t, ht, hroute⟩ := hget ht'
    obtain ⟨hrel, hsametoast⟩ := hsame hroute
    rw [hsametoast]
    exact h.silent t (List.mem_of_getElem? ht) (hrel ▸ hzero)

/-! ## The catalog loop -/

/-- The catalog has the table as it was, perhaps under another name. -/
def Table.Quiet (t : Table) (env : PgEnv) : Prop :=
  ∃ fresh, env.discoverByOid t.desc.oid = some fresh ∧ fresh.relNode = t.desc.relNode ∧
    t.wantsResnapshot fresh = false ∧ t.colsChanged fresh = false

/-- A step leaves the table detached, or with the descriptor the catalog has. -/
theorem Table.remapStep_desc {dec : TupleDecoder} {t : Table} {env : PgEnv} {now : Instant} {ti : Nat}
    {ddlLsn restart : Lsn} (hok : (t.remapStep dec env now ti ddlLsn restart).ok = true) :
    let t' := (t.remapStep dec env now ti ddlLsn restart).table
    t'.desc.relNode = 0 ∧ (t'.desc.toastRelNode = none ∨ t'.desc = t.desc) ∨
      env.discoverByOid t.desc.oid = some t'.desc := by
  have hstep := t.remapStep_stepped dec env now ti ddlLsn restart
  generalize t.remapStep dec env now ti ddlLsn restart = r at hstep hok ⊢
  cases hstep with
  | detached hnode => exact .inl ⟨hnode, .inr rfl⟩
  | vanished => exact .inl ⟨rfl, .inl rfl⟩
  | quiet fresh _ hfresh => exact .inr hfresh
  | refused => exact .inl ⟨rfl, .inl rfl⟩
  | evolved fresh t₁ _ hfresh _ _ _ hadopt =>
    have hdesc := (t.adopt_spec fresh).2.2.1 (by rw [hadopt])
    rw [hadopt] at hdesc
    exact .inr (hdesc ▸ hfresh)
  | remapped fresh t₁ t₂ _ hfresh _ hadopt hremap =>
    have hdesc := (t.adopt_spec fresh).2.2.1 (by rw [hadopt])
    rw [hadopt] at hdesc
    obtain ⟨s, -, hspec⟩ := remapTable_ok hremap
    exact .inr (hspec.desc.trans hdesc ▸ hfresh)
  | failed => cases hok

/-- A step that changed nothing found the table detached or quiet. -/
theorem Table.remapStep_unchanged {dec : TupleDecoder} {t : Table} {env : PgEnv} {now : Instant}
    {ti : Nat} {ddlLsn restart : Lsn}
    (h : (t.remapStep dec env now ti ddlLsn restart).changed = false) :
    let t' := (t.remapStep dec env now ti ddlLsn restart).table
    t' = t ∧ t.desc.relNode = 0 ∨
      t.Quiet env ∧ env.discoverByOid t.desc.oid = some t'.desc ∧ t'.desc.relNode = t.desc.relNode := by
  have hstep := t.remapStep_stepped dec env now ti ddlLsn restart
  generalize t.remapStep dec env now ti ddlLsn restart = r at hstep h ⊢
  cases hstep with
  | detached hnode => exact .inl ⟨rfl, hnode⟩
  | quiet fresh _ hfresh hnode hwants hcols =>
    exact .inr ⟨⟨fresh, hfresh, hnode, hwants, hcols⟩, hfresh, hnode⟩
  | vanished | refused | evolved | remapped | failed => cases h

/-- A complete loop steps every table. -/
theorem remapTables_ok {dec : TupleDecoder} {env : PgEnv} {now : Instant} {ddlLsn restart : Lsn}
    {i : Nat} {ts ts' : List Table} {changed : Bool}
    (h : remapTables dec env now ddlLsn restart i ts = (ts', changed, true)) {k : Nat} {t' : Table}
    (ht' : ts'[k]? = some t') :
    ∃ t, ts[k]? = some t ∧ t' = (t.remapStep dec env now (i + k) ddlLsn restart).table ∧
      (t.remapStep dec env now (i + k) ddlLsn restart).ok = true ∧
      (changed = false → (t.remapStep dec env now (i + k) ddlLsn restart).changed = false) := by
  induction ts generalizing i k ts' changed with
  | nil =>
    simp only [remapTables, Prod.mk.injEq] at h
    obtain ⟨rfl, -⟩ := h
    cases ht'
  | cons t ts ih =>
    simp only [remapTables] at h
    split at h
    · rename_i hok
      generalize hrest : remapTables dec env now ddlLsn restart (i + 1) ts = res at h
      obtain ⟨ts₁, changed₁, done⟩ := res
      simp only [Prod.mk.injEq] at h
      obtain ⟨rfl, rfl, rfl⟩ := h
      cases k with
      | zero =>
        obtain rfl := Option.some.inj ht'
        exact ⟨t, rfl, rfl, hok, fun hchanged => (Bool.or_eq_false_iff.mp hchanged).1⟩
      | succ k =>
        obtain ⟨u, hu, hstep, hok', hchanged'⟩ := ih hrest (k := k) (by simpa using ht')
        rw [Nat.add_right_comm, Nat.add_assoc] at hstep hok' hchanged'
        exact ⟨u, by simpa using hu, hstep, hok', fun hchanged =>
          hchanged' (Bool.or_eq_false_iff.mp hchanged).2⟩
    · simp at h

/-- What a loop that went through leaves of the tables. -/
theorem remapTables_descs {dec : TupleDecoder} {env : PgEnv} {c : Relations} (henv : env.AnswersFrom c)
    {now : Instant} {ddlLsn restart : Lsn} {ts ts' : List Table} {changed : Bool}
    (hsilent : ∀ t ∈ ts, t.desc.relNode = 0 → t.desc.toastRelNode = none)
    (h : remapTables dec env now ddlLsn restart 0 ts = (ts', changed, true)) :
    ts'.map (·.desc.oid) = ts.map (·.desc.oid) ∧
      ∀ t' ∈ ts', t'.desc.relNode = 0 ∧ t'.desc.toastRelNode = none ∨
        c.desc t'.desc.oid = some t'.desc := by
  have hlen : ts'.length = ts.length := by
    have := remapTables_length dec env now ddlLsn restart 0 ts
    rwa [h] at this
  have hoid : ∀ t : Table, ∀ fresh, env.discoverByOid t.desc.oid = some fresh →
      fresh.oid = t.desc.oid := fun t fresh hfresh => c.oid _ _ (henv.discoverByOid _ _ hfresh)
  refine ⟨List.ext_getElem? fun k => ?_, fun t' ht' => ?_⟩
  · cases hk : ts'[k]? with
    | none =>
      have : ts[k]? = none := by
        rw [List.getElem?_eq_none_iff] at hk ⊢
        omega
      simp [hk, this]
    | some t' =>
      obtain ⟨t, ht, rfl, -⟩ := remapTables_ok h hk
      simp [hk, ht, t.remapStep_oid dec env now _ ddlLsn restart (hoid t)]
  · obtain ⟨k, ht'⟩ := List.mem_iff_getElem?.mp ht'
    obtain ⟨t, ht, rfl, hok, -⟩ := remapTables_ok h ht'
    rcases Table.remapStep_desc hok with ⟨hzero, htoast | hsame⟩ | hfresh
    · exact .inl ⟨hzero, htoast⟩
    · refine .inl ⟨hzero, ?_⟩
      rw [hsame] at hzero ⊢
      exact hsilent t (List.mem_of_getElem? ht) hzero
    · have hdesc := henv.discoverByOid _ _ hfresh
      rw [← c.oid _ _ hdesc] at hdesc
      exact .inr hdesc

/-! ## Attaching -/

namespace Engine

variable {dec : TupleDecoder} {env : PgEnv} {cfg : Config} {c : Relations}

/-- The catalog entries that a check would attach. -/
def candidates (e : Engine) (env : PgEnv) : List (Oid × String) :=
  tablesToAttach (e.tables.map (·.desc.oid)).toFinset e.attachFailed (env.listTables.getD [])

theorem attachOne_frame (dec : TupleDecoder) (env : PgEnv) (cfg : Config) (e : Engine) (name : String) :
    (e.attachOne dec env cfg name).relToTable = e.relToTable ∧
      (e.attachOne dec env cfg name).toastRels = e.toastRels := by
  unfold attachOne
  split
  · exact ⟨rfl, rfl⟩
  · exact ⟨rfl, rfl⟩

/-- The tables that new entries of the catalog add. -/
theorem attach_fold (henv : env.AnswersFrom c) (l : List (Oid × String)) (e : Engine)
    (hl : (l.map (·.1)).Nodup) (hoid : ∀ p ∈ l, ∀ d, env.discover p.2 = some d → d.oid = p.1)
    (hnew : ∀ p ∈ l, p.1 ∉ e.tables.map (·.desc.oid)) (hoids : (e.tables.map (·.desc.oid)).Nodup) :
    ∃ new, (l.foldl (fun e (_, name) => e.attachOne dec env cfg name) e).tables = e.tables ++ new ∧
      (∀ t ∈ new, c.desc t.desc.oid = some t.desc) ∧
      ((e.tables ++ new).map (·.desc.oid)).Nodup ∧
      (l.foldl (fun e (_, name) => e.attachOne dec env cfg name) e).relToTable = e.relToTable ∧
      (l.foldl (fun e (_, name) => e.attachOne dec env cfg name) e).toastRels = e.toastRels := by
  induction l generalizing e with
  | nil => exact ⟨[], by simp, by simp, by simpa using hoids, rfl, rfl⟩
  | cons p l ih =>
    simp only [List.map_cons, List.nodup_cons] at hl
    simp only [List.mem_cons, forall_eq_or_imp] at hoid hnew
    obtain ⟨hrel, htoast⟩ := attachOne_frame dec env cfg e p.2
    rw [List.foldl_cons]
    cases hattach : Table.attach dec env cfg e.tables.length p.2 with
    | none =>
      have hsame : (e.attachOne dec env cfg p.2).tables = e.tables := by simp [attachOne, hattach]
      obtain ⟨new, htables, hnew', hnodup, hrel', htoast'⟩ := ih (e.attachOne dec env cfg p.2) hl.2
        hoid.2 (by rw [hsame]; exact hnew.2) (by rw [hsame]; exact hoids)
      rw [hsame] at htables hnodup
      exact ⟨new, htables, hnew', hnodup, hrel'.trans hrel, htoast'.trans htoast⟩
    | some t =>
      obtain ⟨s, hdiscover, -⟩ := Table.attach_some hattach
      have htoid := hoid.1 _ hdiscover
      have hsame : (e.attachOne dec env cfg p.2).tables = e.tables ++ [t] := by
        simp [attachOne, hattach]
      have hgrown : ((e.tables ++ [t]).map (·.desc.oid)).Nodup := by
        rw [List.map_append]
        refine List.nodup_append.mpr ⟨hoids, by simp, ?_⟩
        rintro o ho o' ho' rfl
        obtain rfl : o = t.desc.oid := by simpa using ho'
        exact hnew.1 (htoid ▸ ho)
      have hfresh : ∀ q ∈ l, q.1 ∉ (e.tables ++ [t]).map (·.desc.oid) := by
        intro q hq hmem
        rw [List.map_append] at hmem
        rcases List.mem_append.mp hmem with hmem | hmem
        · exact hnew.2 q hq hmem
        · obtain hq1 : q.1 = t.desc.oid := by simpa using hmem
          refine hl.1 ?_
          rw [← htoid, ← hq1]
          exact List.mem_map_of_mem hq
      obtain ⟨new, htables, hnew', hnodup, hrel', htoast'⟩ := ih (e.attachOne dec env cfg p.2) hl.2
        hoid.2 (by rw [hsame]; exact hfresh) (by rw [hsame]; exact hgrown)
      rw [hsame, List.append_assoc] at htables hnodup
      refine ⟨t :: new, htables, ?_, hnodup, hrel'.trans hrel, htoast'.trans htoast⟩
      simp only [List.mem_cons, forall_eq_or_imp]
      exact ⟨henv.discover _ _ hdiscover, hnew'⟩

theorem attachNew_descs (dec : TupleDecoder) (henv : env.AnswersFrom c) (cfg : Config) {e : Engine}
    (hoids : (e.tables.map (·.desc.oid)).Nodup) :
    ∃ new, (e.attachNew dec env cfg).tables = e.tables ++ new ∧
      (∀ t ∈ new, c.desc t.desc.oid = some t.desc) ∧
      ((e.tables ++ new).map (·.desc.oid)).Nodup ∧
      (e.attachNew dec env cfg).relToTable = e.relToTable ∧
      (e.attachNew dec env cfg).toastRels = e.toastRels := by
  unfold attachNew
  split
  · rename_i catalog _ hlist
    obtain ⟨hnodup, hlisted⟩ := henv.listed catalog hlist
    refine attach_fold henv _ e ?_ ?_ ?_ hoids
    · exact hnodup.sublist (List.Sublist.map _ List.filter_sublist)
    · exact fun p hp => hlisted p (List.mem_of_mem_filter hp)
    · intro p hp hmem
      have := (List.mem_filter.mp hp).2
      simp only [decide_eq_true_eq] at this
      exact this.1 (List.mem_toFinset.mpr hmem)
  · exact ⟨[], by simp, by simp, by simpa using hoids, rfl, rfl⟩

/-- If one of the candidates can be attached, the check attaches a table. -/
theorem attach_fold_grows (l : List (Oid × String)) (e : Engine)
    (h : ∃ p ∈ l, (Table.attach dec env cfg e.tables.length p.2).isSome) :
    e.tables.length < (l.foldl (fun e (_, name) => e.attachOne dec env cfg name) e).tables.length := by
  have hmono : ∀ (l : List (Oid × String)) (e : Engine), e.tables.length ≤
      (l.foldl (fun e (_, name) => e.attachOne dec env cfg name) e).tables.length := by
    intro l
    induction l with
    | nil => exact fun e => le_rfl
    | cons p l ih =>
      intro e
      rw [List.foldl_cons]
      refine le_trans ?_ (ih _)
      cases hattach : Table.attach dec env cfg e.tables.length p.2 with
      | some t => simp [attachOne, hattach]
      | none => simp [attachOne, hattach]
  induction l generalizing e with
  | nil =>
    obtain ⟨p, hp, -⟩ := h
    cases hp
  | cons p l ih =>
    rw [List.foldl_cons]
    cases hattach : Table.attach dec env cfg e.tables.length p.2 with
    | some t =>
      refine lt_of_lt_of_le ?_ (hmono l _)
      simp [attachOne, hattach]
    | none =>
      have hsame : (e.attachOne dec env cfg p.2).tables = e.tables := by simp [attachOne, hattach]
      have := ih (e.attachOne dec env cfg p.2) ?_
      · rwa [hsame] at this
      · obtain ⟨q, hq, hsome⟩ := h
        rcases List.mem_cons.mp hq with rfl | hq
        · rw [hattach] at hsome
          cases hsome
        · exact ⟨q, hq, by rw [hsame]; exact hsome⟩

theorem attachNew_grows (dec : TupleDecoder) {e : Engine} (hcfg : cfg.tables = none)
    (h : ∃ p ∈ e.candidates env, (Table.attach dec env cfg e.tables.length p.2).isSome) :
    e.tables.length < (e.attachNew dec env cfg).tables.length := by
  unfold attachNew
  split
  · rename_i catalog _ hlist
    rw [candidates, hlist] at h
    exact attach_fold_grows _ e h
  · rename_i hnone
    cases hlist : env.listTables with
    | none =>
      rw [candidates, hlist] at h
      obtain ⟨p, hp, -⟩ := h
      cases hp
    | some catalog => exact absurd hlist (hnone catalog hcfg)

/-! ## Catalog checks -/

/-- What a catalog check that went through leaves. -/
theorem remapCheck_ok {e e' : Engine} {now : Instant} {ddlLsn persisted persisted' : Lsn}
    (h : e.remapCheck dec env cfg now ddlLsn persisted = (e', persisted', true)) :
    ∃ e₁ catalogRels tables changed, e.flushAll env.appendOk now persisted = (e₁, persisted', true) ∧
      remapTables dec env now ddlLsn e₁.restartLsn 0 e₁.tables = (tables, changed, true) ∧
      e' = if changed || decide (tables.length <
          (attachNew dec env cfg { e₁ with catalogRels, tables }).tables.length) then
        (attachNew dec env cfg { e₁ with catalogRels, tables }).rebuildRouting
      else attachNew dec env cfg { e₁ with catalogRels, tables } := by
  obtain ⟨e₁, flushed, hflush, ⟨-, hfailed, -⟩ | ⟨rfl, nodes, tables, changed, done, htables, hcase⟩⟩ :=
    remapCheck_spec h
  · cases hfailed
  · rcases hcase with ⟨-, hfailed, -⟩ | ⟨rfl, -, e₂, rfl, he'⟩
    · cases hfailed
    · exact ⟨e₁, nodes, tables, changed, hflush, htables, he'⟩

theorem flushAll_frame (e : Engine) (ok : AppendOk) (now : Instant) (persisted : Lsn) :
    (e.flushAll ok now persisted).1.relToTable = e.relToTable ∧
      (e.flushAll ok now persisted).1.toastRels = e.toastRels ∧
      (e.flushAll ok now persisted).1.attachFailed = e.attachFailed ∧
      ((e.flushAll ok now persisted).1.tables.map fun t => (t.desc, t.needsResnapshot)) =
        e.tables.map fun t => (t.desc, t.needsResnapshot) := by
  unfold flushAll
  split
  · exact ⟨rfl, rfl, rfl, rfl⟩
  · refine ⟨rfl, rfl, rfl, List.ext_getElem? fun k => ?_⟩
    rw [List.getElem?_map, List.getElem?_map]
    cases hk : (flushTables ok e.restartLsn 0 e.tables).1[k]? with
    | none =>
      have hnone : e.tables[k]? = none := by
        rw [List.getElem?_eq_none_iff, flushTables_length] at hk
        exact List.getElem?_eq_none_iff.mpr hk
      rw [hnone]
    | some t' =>
      obtain ⟨t, ht, rfl | ⟨-, rfl⟩⟩ := flushTables_cases hk
      · rw [ht]
      · rw [ht]
        rfl

/-- A check renews the routing: it finds an attached table that is not quiet, or attaches one. -/
def Renews (dec : TupleDecoder) (env : PgEnv) (cfg : Config) (e : Engine) : Prop :=
  (∃ t ∈ e.tables, t.desc.relNode ≠ 0 ∧ ¬ t.Quiet env) ∨
    cfg.tables = none ∧
      ∃ p ∈ e.candidates env, (Table.attach dec env cfg e.tables.length p.2).isSome

/-- The catalog gives every attached table that is quiet the toast relation it had, or the
check renews the routing. -/
def KeepsRouting (dec : TupleDecoder) (env : PgEnv) (cfg : Config) (e : Engine) : Prop :=
  (∀ t ∈ e.tables, t.desc.relNode ≠ 0 → t.Quiet env → ∀ fresh ∈ env.discoverByOid t.desc.oid,
    fresh.toastRelNode = t.desc.toastRelNode) ∨ Renews dec env cfg e

theorem attached_nodes {ts : List Table} (hoids : (ts.map (·.desc.oid)).Nodup)
    (hdescs : ∀ t ∈ ts, t.desc.relNode = 0 ∧ t.desc.toastRelNode = none ∨
      c.desc t.desc.oid = some t.desc) {i j : Nat} {t u : Table} (ht : ts[i]? = some t)
    (hu : ts[j]? = some u) (hnode : t.desc.relNode = u.desc.relNode) (hne : t.desc.relNode ≠ 0) :
    i = j := by
  have hc := (hdescs t (List.mem_of_getElem? ht)).resolve_left fun h => hne h.1
  have hc' := (hdescs u (List.mem_of_getElem? hu)).resolve_left fun h => hne (hnode.trans h.1)
  have hoid := c.relNode_inj _ _ _ _ hc hc' hnode
  obtain ⟨hi, rfl⟩ := List.getElem?_eq_some_iff.mp ht
  obtain ⟨hj, rfl⟩ := List.getElem?_eq_some_iff.mp hu
  have hi' : i < (ts.map (·.desc.oid)).length := by simpa using hi
  have hj' : j < (ts.map (·.desc.oid)).length := by simpa using hj
  have hsame : (ts.map (·.desc.oid))[i] = (ts.map (·.desc.oid))[j] := by simpa using hoid
  exact (List.Nodup.getElem_inj_iff hoids).mp hsame

/-- A loop that changed nothing found every attached table quiet. -/
theorem remapTables_quiet {now : Instant} {ddlLsn restart : Lsn} {ts ts' : List Table}
    (h : remapTables dec env now ddlLsn restart 0 ts = (ts', false, true)) {t : Table} (ht : t ∈ ts)
    (hne : t.desc.relNode ≠ 0) : t.Quiet env := by
  obtain ⟨k, hk⟩ := List.mem_iff_getElem?.mp ht
  have hlt : k < ts'.length := by
    have hlen := remapTables_length dec env now ddlLsn restart 0 ts
    rw [h] at hlen
    exact lt_of_lt_of_eq (List.getElem?_eq_some_iff.mp hk).1 hlen.symm
  obtain ⟨u, hu, -, -, hunchanged⟩ := remapTables_ok h (List.getElem?_eq_getElem hlt)
  obtain rfl := Option.some.inj (hk.symm.trans hu)
  rcases Table.remapStep_unchanged (hunchanged rfl) with ⟨-, hzero⟩ | ⟨hquiet, -⟩
  · exact absurd hzero hne
  · exact hquiet

/-- Quiet tables that keep their toast relation keep their routes. -/
theorem remapTables_routes {now : Instant} {ddlLsn restart : Lsn} {ts ts' : List Table}
    (henv : env.AnswersFrom c) (h : remapTables dec env now ddlLsn restart 0 ts = (ts', false, true))
    (htoast : ∀ t ∈ ts, t.desc.relNode ≠ 0 → t.Quiet env → ∀ fresh ∈ env.discoverByOid t.desc.oid,
      fresh.toastRelNode = t.desc.toastRelNode) :
    ts'.map Table.route = ts.map Table.route := by
  have hlen : ts'.length = ts.length := by
    have := remapTables_length dec env now ddlLsn restart 0 ts
    rwa [h] at this
  refine List.ext_getElem? fun k => ?_
  rw [List.getElem?_map, List.getElem?_map]
  cases hk : ts'[k]? with
  | none =>
    have hnone : ts[k]? = none := by
      rw [List.getElem?_eq_none_iff] at hk ⊢
      omega
    rw [hnone]
  | some t' =>
    obtain ⟨t, ht, rfl, -, hunchanged⟩ := remapTables_ok h hk
    rw [ht, Option.map_some, Option.map_some, Option.some.injEq]
    rcases Table.remapStep_unchanged (hunchanged rfl) with ⟨hsame, -⟩ | ⟨hquiet, hfresh, hnode⟩
    · rw [hsame]
    · have hdesc := henv.discoverByOid _ _ hfresh
      have hne := c.relNode_ne _ _ hdesc
      rw [hnode] at hne
      exact Prod.ext (c.oid _ _ hdesc) (Prod.ext hnode
        (htoast t (List.mem_of_getElem? ht) hne hquiet _ hfresh))

/-- The condition reads descriptors and re-snapshot flags only. -/
theorem KeepsRouting.congr {e e' : Engine} (h : KeepsRouting dec env cfg e)
    (htables : (e'.tables.map fun t => (t.desc, t.needsResnapshot)) =
      e.tables.map fun t => (t.desc, t.needsResnapshot))
    (hfailed : e'.attachFailed = e.attachFailed) : KeepsRouting dec env cfg e' := by
  have hmem : ∀ {ts ts' : List Table} {t : Table}, (ts'.map fun t => (t.desc, t.needsResnapshot)) =
      ts.map (fun t => (t.desc, t.needsResnapshot)) → t ∈ ts' →
      ∃ u ∈ ts, u.desc = t.desc ∧ u.needsResnapshot = t.needsResnapshot := by
    intro ts ts' t heq ht
    have hin : (t.desc, t.needsResnapshot) ∈ ts'.map fun t => (t.desc, t.needsResnapshot) :=
      List.mem_map_of_mem ht
    rw [heq] at hin
    obtain ⟨u, hu, hsame⟩ := List.mem_map.mp hin
    exact ⟨u, hu, Prod.ext_iff.mp hsame⟩
  have hquiet : ∀ {t u : Table}, u.desc = t.desc → u.needsResnapshot = t.needsResnapshot →
      (u.Quiet env ↔ t.Quiet env) := by
    intro t u hdesc hneeds
    simp only [Table.Quiet, Table.wantsResnapshot, Table.colsChanged, hdesc, hneeds]
  rcases h with htoast | ⟨t, ht, hne, hloud⟩ | ⟨hcfg, hattach⟩
  · refine .inl fun t ht hne hq => ?_
    obtain ⟨u, hu, hdesc, hneeds⟩ := hmem htables ht
    rw [← hdesc] at hne ⊢
    exact htoast u hu hne ((hquiet hdesc hneeds).mpr hq)
  · obtain ⟨u, hu, hdesc, hneeds⟩ := hmem htables.symm ht
    exact .inr (.inl ⟨u, hu, by rw [hdesc]; exact hne, fun hq => hloud ((hquiet hdesc hneeds).mp hq)⟩)
  · have hoids : e'.tables.map (·.desc.oid) = e.tables.map (·.desc.oid) := by
      simpa [List.map_map, Function.comp_def] using
        congrArg (List.map fun p : TableDesc × Bool => p.1.oid) htables
    have hlen : e'.tables.length = e.tables.length := by simpa using congrArg List.length htables
    refine .inr (.inr ⟨hcfg, ?_⟩)
    rw [candidates, hoids, hfailed, hlen]
    exact hattach

theorem routes_of_descs {ts ts' : List Table}
    (h : (ts'.map fun t => (t.desc, t.needsResnapshot)) =
      ts.map fun t => (t.desc, t.needsResnapshot)) : ts'.map Table.route = ts.map Table.route := by
  have hroute : Table.route =
      (fun p : TableDesc × Bool => (p.1.oid, p.1.relNode, p.1.toastRelNode)) ∘
        fun t : Table => (t.desc, t.needsResnapshot) := rfl
  rw [hroute, ← List.map_map, h, List.map_map]

/-- A catalog check keeps the routing right. -/
theorem RoutingInv.remapCheck {e e' : Engine} {now : Instant} {ddlLsn persisted persisted' : Lsn}
    (h : e.RoutingInv) (henv : env.AnswersFrom c) (hkeeps : KeepsRouting dec env cfg e)
    (hok : e.remapCheck dec env cfg now ddlLsn persisted = (e', persisted', true)) :
    e'.RoutingInv := by
  obtain ⟨e₁, nodes, tables, changed, hflush, htables, he'⟩ := remapCheck_ok hok
  obtain ⟨hrel, htoast, hfailed, hdescs⟩ := e.flushAll_frame env.appendOk now persisted
  rw [hflush] at hrel htoast hfailed hdescs
  dsimp only at hrel htoast hfailed hdescs
  have hroutes := routes_of_descs hdescs
  have h₁ : e₁.RoutingInv := h.congr hroutes hrel htoast
  have hkeeps₁ := hkeeps.congr hdescs hfailed
  obtain ⟨hoids, hstepped⟩ := remapTables_descs henv h₁.silent htables
  -- The engine with the stepped tables, before new ones are attached.
  obtain ⟨base, hbase⟩ : ∃ base : Engine, base = { e₁ with catalogRels := nodes, tables } := ⟨_, rfl⟩
  rw [← hbase] at he'
  have htab : base.tables = tables := by rw [hbase]
  have hbaserel : base.relToTable = e₁.relToTable := by rw [hbase]
  have hbasetoast : base.toastRels = e₁.toastRels := by rw [hbase]
  have hbasefailed : base.attachFailed = e₁.attachFailed := by rw [hbase]
  obtain ⟨new, hnew, hattached, hnodup, hrel₂, htoast₂⟩ := attachNew_descs dec henv cfg
    (e := base) (by rw [htab, hoids]; exact h₁.oids)
  rw [htab] at hnew hnodup
  have hall : ∀ t ∈ tables ++ new, t.desc.relNode = 0 ∧ t.desc.toastRelNode = none ∨
      c.desc t.desc.oid = some t.desc := by
    intro t ht
    rcases List.mem_append.mp ht with ht | ht
    · exact hstepped t ht
    · exact .inr (hattached t ht)
  have hsilent : ∀ t ∈ tables ++ new, t.desc.relNode = 0 → t.desc.toastRelNode = none := by
    intro t ht hzero
    rcases hall t ht with hdetached | hdesc
    · exact hdetached.2
    · exact absurd hzero (c.relNode_ne _ _ hdesc)
  split at he'
  · subst he'
    have hnodes : ∀ (i j : Nat) (t u : Table), (attachNew dec env cfg base).tables[i]? = some t →
        (attachNew dec env cfg base).tables[j]? = some u →
        t.desc.relNode = u.desc.relNode → t.desc.relNode ≠ 0 → i = j := by
      rw [hnew]
      exact fun i j t u ht hu => attached_nodes hnodup hall ht hu
    have hsilent : ∀ t ∈ (attachNew dec env cfg base).tables, t.desc.relNode = 0 →
        t.desc.toastRelNode = none := by
      rw [hnew]
      exact hsilent
    exact ⟨rebuildRouting_routed hnodes hsilent, by rw [← hnew] at hnodup; exact hnodup, hnodes, hsilent⟩
  · rename_i hsame
    subst he'
    obtain ⟨rfl, hlen⟩ : changed = false ∧
        ¬ tables.length < (attachNew dec env cfg base).tables.length := by
      simpa using hsame
    have hnil : new = [] := by
      rw [hnew, List.length_append] at hlen
      exact List.length_eq_zero_iff.mp (by omega)
    rw [hnil, List.append_nil] at hnew
    have hlength : tables.length = e₁.tables.length := by simpa using congrArg List.length hoids
    -- Nothing asked for a rebuild, so every quiet table kept its toast relation.
    have htoast₁ := hkeeps₁.resolve_right ?_
    · exact h₁.congr (hnew ▸ remapTables_routes henv htables htoast₁) (hrel₂.trans hbaserel)
        (htoast₂.trans hbasetoast)
    · rintro (⟨t, ht, hne, hloud⟩ | ⟨hcfg, hcandidate⟩)
      · exact hloud (remapTables_quiet htables ht hne)
      · have hgrows := attachNew_grows dec (e := base) hcfg (by
          rw [candidates] at hcandidate ⊢
          rw [htab, hoids, hlength, hbasefailed]
          exact hcandidate)
        rw [htab] at hgrows
        exact hlen hgrows

/-! ## Runs -/

theorem applyEffect_routing (e : Engine) (now : Instant) (lsn : Lsn) (eff : Effect) :
    (e.applyEffect now lsn eff).relToTable = e.relToTable ∧
      (e.applyEffect now lsn eff).toastRels = e.toastRels := by
  cases eff with
  | skip | suspect | toastChunk | ops | drift | commit | abort => exact ⟨rfl, rfl⟩

theorem routes_of_places {ts ts' : List Table} (h : ts'.map Table.place = ts.map Table.place) :
    ts'.map Table.route = ts.map Table.route := by
  have hroute : Table.route =
      (fun p : TableDesc × String => (p.1.oid, p.1.relNode, p.1.toastRelNode)) ∘ Table.place := rfl
  rw [hroute, ← List.map_map, h, List.map_map]

theorem resnapshotTables_routes (env : PgEnv) (now : Instant) (args : Table → Option RemapArgs)
    (i : Nat) (ts : List Table) :
    (resnapshotTables dec env now args i ts).1.map Table.route = ts.map Table.route := by
  have hroute : ∀ (t : Table) (a : RemapArgs) (k : Nat),
      (t.remapTable dec now a (env.snapshot t.desc) (env.appendOk k)).1.route = t.route := by
    intro t a k
    have hdesc := (t.remapTable_spec dec now a (env.snapshot t.desc) (env.appendOk k)).1
    simp only [Table.route, hdesc]
  induction ts generalizing i with
  | nil => rfl
  | cons t ts ih =>
    simp only [resnapshotTables]
    split
    · simp [ih]
    · split
      · simp [ih, hroute]
      · simp [hroute]

/-- What a run asks of its catalog checks. Other moves leave the routing alone. -/
def Move.KeepsRouting (dec : TupleDecoder) (e : Engine) : Move → Prop
  | .remap env cfg _ _ _ => (∃ c, env.AnswersFrom c) ∧ Engine.KeepsRouting dec env cfg e
  | _ => True

/-- A move that went through, and that meets the condition. -/
def RoutedMove (dec : TupleDecoder) (e e' : Engine) : Prop :=
  ∃ m, Move.KeepsRouting dec e m ∧ e.move dec m = (e', true)

theorem RoutingInv.move {e e' : Engine} (h : e.RoutingInv) (hstep : RoutedMove dec e e') :
    e'.RoutingInv := by
  obtain ⟨m, hkeeps, hmove⟩ := hstep
  obtain ⟨rfl, hok⟩ := Prod.ext_iff.mp hmove
  cases m with
  | record now lsn eff =>
    obtain ⟨hrel, htoast⟩ := e.applyEffect_routing now lsn eff
    exact h.congr (routes_of_places (places_of_addresses (e.applyEffect_addresses now lsn eff))) hrel
      htoast
  | applied lsn => exact h.congr rfl rfl rfl
  | flush env now persisted =>
    obtain ⟨hrel, htoast, -, hdescs⟩ := e.flushAll_frame env.appendOk now persisted
    exact h.congr (routes_of_descs hdescs) hrel htoast
  | compact =>
    refine h.congr (routes_of_places e.maybeCompact_places) ?_ ?_
    · simp only [Engine.move, maybeCompact]
      split
      · rfl
      · rfl
    · simp only [Engine.move, maybeCompact]
      split
      · rfl
      · rfl
  | remap env cfg now ddlLsn persisted =>
    obtain ⟨⟨c, henv⟩, hkeeps⟩ := hkeeps
    have h₀ : RoutingInv { e with remapAt := none } := h.congr rfl rfl rfl
    exact h₀.remapCheck henv (hkeeps.congr rfl rfl) (Prod.ext rfl (Prod.ext rfl hok))
  | forget => exact h.congr rfl rfl rfl
  | resnapshot env now args => exact h.congr (resnapshotTables_routes env now args 0 e.tables) rfl rfl
  | stop => cases hok

theorem buildEngine_routingInv {tables : List Table} {lastCommitLsn : Lsn} {oracle : Option Oracle}
    {e : Engine} (h : buildEngine env cfg tables lastCommitLsn oracle = some e)
    (hoids : (tables.map (·.desc.oid)).Nodup) (hdescs : ∀ t ∈ tables, c.desc t.desc.oid = some t.desc) :
    e.RoutingInv := by
  simp only [buildEngine, bind, Option.bind_eq_some_iff, pure, Option.some.injEq] at h
  obtain ⟨first, -, catalog, -, rfl⟩ := h
  have hnodes : ∀ (i j : Nat) (t u : Table), tables[i]? = some t → tables[j]? = some u →
      t.desc.relNode = u.desc.relNode → t.desc.relNode ≠ 0 → i = j :=
    fun i j t u ht hu => attached_nodes hoids (fun t ht => .inr (hdescs t ht)) ht hu
  have hsilent : ∀ t ∈ tables, t.desc.relNode = 0 → t.desc.toastRelNode = none :=
    fun t ht hzero => absurd hzero (c.relNode_ne _ _ (hdescs t ht))
  exact ⟨rebuildRouting_routed hnodes hsilent, hoids, hnodes, hsilent⟩

/-- Routing matches the descriptors in every run whose catalog checks give a quiet table the
toast relation it had, or renew the routing. -/
theorem routed_of_moves {tables : List Table} {lastCommitLsn : Lsn} {oracle : Option Oracle}
    {e₀ e : Engine} (h₀ : buildEngine env cfg tables lastCommitLsn oracle = some e₀)
    (hoids : (tables.map (·.desc.oid)).Nodup) (hdescs : ∀ t ∈ tables, c.desc t.desc.oid = some t.desc)
    (hrun : Relation.ReflTransGen (RoutedMove dec) e₀ e) :
    e.Routed ∧ ∀ (i : Nat) (t : Table), e.tables[i]? = some t → t.desc.relNode ≠ 0 →
      e.tableOf t.desc.relNode = some (i, t) := by
  have hinv : e.RoutingInv := by
    induction hrun with
    | refl => exact buildEngine_routingInv h₀ hoids hdescs
    | tail _ hstep ih => exact ih.move hstep
  exact ⟨hinv.routed, fun i t ht hne => hinv.routed.tableOf ht hne⟩

/-! ## A table that grows a toast relation -/

end Engine

namespace Sample

/-- `create table t (id int primary key, note varchar(10))`: no value can be out of line. -/
def noteDesc : TableDesc where
  name := "t"
  oid := 16384
  dbOid := 5
  relNode := 16384
  toastRelNode := none
  cols := [⟨"id", .int4⟩, ⟨"note", .text⟩]
  phys := [.live ⟨"id", .int4⟩, .live ⟨"note", .text⟩]
  hasFastDefaults := false
  pk := ["id"]

/-- The same after `alter table t alter note type varchar(10000)`. -/
def toastedDesc : TableDesc := { noteDesc with toastRelNode := some 16390 }

/-- The catalog that has just this table. -/
def onlyTable (d : TableDesc) (hnode : d.relNode ≠ 0) : Relations where
  desc o := if o = d.oid then some d else none
  oid := by
    intro o d' h
    split at h
    · obtain rfl := Option.some.inj h
      exact Eq.symm ‹o = d.oid›
    · cases h
  relNode_ne := by
    intro o d' h
    split at h
    · obtain rfl := Option.some.inj h
      exact hnode
    · cases h
  relNode_inj := by
    intro o o' d₁ d₂ h h' _
    split at h
    · split at h'
      · exact Eq.trans ‹o = d.oid› (Eq.symm ‹o' = d.oid›)
      · cases h'
    · cases h

theorem env_answersFrom (d : TableDesc) (hnode : d.relNode ≠ 0) (cutover : Lsn) :
    (env [d] cutover).AnswersFrom (onlyTable d hnode) := by
  refine ⟨fun o d' h => ?_, fun name d' h => ?_, fun l h => ?_⟩
  · simp only [env, List.find?_singleton] at h
    split at h
    · obtain rfl := Option.some.inj h
      simp_all [onlyTable]
    · cases h
  · simp only [env, List.find?_singleton] at h
    split at h
    · obtain rfl := Option.some.inj h
      simp [onlyTable]
    · cases h
  · simp only [env, Option.some.injEq] at h
    subst h
    refine ⟨by simp, fun p hp d' h => ?_⟩
    obtain rfl : p = (d.oid, d.name) := by simpa using hp
    simp only [env, List.find?_singleton] at h
    split at h
    · obtain rfl := Option.some.inj h
      rfl
    · cases h

def noteTable : Table := Table.opened noteDesc (sink noteDesc)

def noteEngine : Engine :=
  (buildEngine (env [noteDesc] 100) cfg [noteTable] 100 none).getD (engine [])

end Sample

namespace Engine

/-- A catalog check that finds the table as it was. -/
theorem routed_of_moves_quiet :
    let e := (Sample.noteEngine.move .reject (.remap (Sample.env [Sample.noteDesc] 100) Sample.cfg 0
      200 100)).1
    e.Routed ∧ e.tableOf 16384 = e.tables[0]?.map fun t => (0, t) := by
  have hkeeps : KeepsRouting .reject (Sample.env [Sample.noteDesc] 100) Sample.cfg
      Sample.noteEngine := by
    refine .inl fun t ht _ _ fresh hfresh => ?_
    have ht : t ∈ [Sample.noteTable] := ht
    obtain rfl := List.mem_singleton.mp ht
    obtain rfl : Sample.noteDesc = fresh := Option.some.inj hfresh
    rfl
  have hbuild : buildEngine (Sample.env [Sample.noteDesc] 100) Sample.cfg [Sample.noteTable] 100 none =
      some Sample.noteEngine := rfl
  have hdescs : ∀ t ∈ [Sample.noteTable],
      (Sample.onlyTable Sample.noteDesc (by decide)).desc t.desc.oid = some t.desc := by
    intro t ht
    obtain rfl := List.mem_singleton.mp ht
    rfl
  have hstep : RoutedMove .reject Sample.noteEngine (Sample.noteEngine.move .reject
      (.remap (Sample.env [Sample.noteDesc] 100) Sample.cfg 0 200 100)).1 :=
    ⟨.remap (Sample.env [Sample.noteDesc] 100) Sample.cfg 0 200 100,
      ⟨⟨_, Sample.env_answersFrom _ (by decide) 100⟩, hkeeps⟩, Prod.ext rfl rfl⟩
  have hrun := routed_of_moves hbuild (by decide) hdescs (.single hstep)
  exact ⟨hrun.1, hrun.2 0 _ rfl (by decide)⟩

/-- The check adopts the new toast relation without routing its records. -/
theorem toast_unrouted_after_widening :
    let env := Sample.env [Sample.toastedDesc] 200
    let (e, ok) := Sample.noteEngine.move .reject (.remap env Sample.cfg 0 200 100)
    (∃ c, env.AnswersFrom c) ∧ ok = true ∧ ¬ e.Routed := by
  refine ⟨⟨_, Sample.env_answersFrom _ (by decide) 200⟩, rfl, fun h => ?_⟩
  have htoast := (h.toast 16390).mpr ⟨{ Sample.noteTable with desc := Sample.toastedDesc },
    List.mem_singleton.mpr rfl, by decide, rfl⟩
  exact absurd htoast (by decide)

end Engine

end Ltap
