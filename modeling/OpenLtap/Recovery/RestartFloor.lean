-- SUMMARY: What a replay from the stamped restart position rebuilds of an open transaction.
import OpenLtap.Engine.Startup
import OpenLtap.Recovery.Held

/-!
# The restart floor

An open transaction lives in three buffers: its ops, the toast chunks of its values, and
its mark as a possible DDL transaction. The position that a flush stamps is computed from
the first of them. A chunk or a mark may come before any op of its transaction, and a
position stamped then can lie above it.
-/

namespace Ltap

/-! ## Transactions of a stream -/

namespace WalEvent

/-- The record commits or aborts the transaction. -/
def Ends (ev : WalEvent) (x : Xid) : Prop :=
  match ev.effect with
  | .commit xid subxids | .abort xid subxids => x ∈ xid :: subxids
  | _ => False

def isCommit (ev : WalEvent) : Bool :=
  match ev.effect with
  | .commit .. => true
  | _ => false

/-- The record adds to the ops of the transaction. -/
def Logs (ev : WalEvent) (x : Xid) : Prop :=
  match ev.effect with
  | .ops xid _ ops => xid = x ∧ ops ≠ []
  | _ => False

/-- The record adds a toast chunk of the transaction. -/
def Toasts (ev : WalEvent) (x : Xid) : Prop :=
  match ev.effect with
  | .toastChunk xid .. => xid = x
  | _ => False

/-- The record marks the transaction as a possible DDL transaction. -/
def Suspects (ev : WalEvent) (x : Xid) : Prop := ev.effect = .suspect x

end WalEvent

/-- The transaction has neither committed nor aborted. -/
def OpenIn (w : List WalEvent) (x : Xid) : Prop := ∀ ev ∈ w, ¬ ev.Ends x

/-- All chunks of a toast value are logged by one transaction. -/
def Unshared (w : List WalEvent) : Prop :=
  ∀ ev ∈ w, ∀ ev' ∈ w, ∀ x x' v seq seq' data data',
    ev.effect = .toastChunk x v seq data → ev'.effect = .toastChunk x' v seq' data' → x = x'

/-- The chunks that a stream logs for a toast value, in order. -/
def chunksOf (w : List WalEvent) (v : Oid) : List (Int × Bytes) :=
  w.filterMap fun ev => match ev.effect with
    | .toastChunk _ v' seq data => if v' = v then some (seq, data) else none
    | _ => none

/-! ## Runs of one process -/

/-- One process has handled these records, with flush rounds, catalog checks, and
compactions in between. Its buffers were empty at first, and `resumeFrom` stood in for
the last commit. -/
inductive Engine.Reads (dec : TupleDecoder) (resumeFrom : Lsn) : List WalEvent → Engine → Prop where
  | start {e : Engine} :
    e.txbuf = .empty → e.toast = .empty → e.smgrSuspects = ∅ → e.lastCommitLsn = resumeFrom →
    Reads dec resumeFrom [] e
  | event {w : List WalEvent} {e : Engine} (now : Instant) (ev : WalEvent) :
    Reads dec resumeFrom w e →
    Reads dec resumeFrom (w ++ [ev]) (e.applyEffect now ev.lsn ev.effect)
  | flush {w : List WalEvent} {e : Engine} (ok : AppendOk) (now : Instant) (persisted : Lsn) :
    Reads dec resumeFrom w e → Reads dec resumeFrom w (e.flushAll ok now persisted).1
  | remap {w : List WalEvent} {e : Engine} (env : PgEnv) (cfg : Config) (now : Instant)
      (ddlLsn persisted : Lsn) :
    Reads dec resumeFrom w e →
    Reads dec resumeFrom w
      ({ e with remapAt := none }.remapCheck dec env cfg now ddlLsn persisted).1
  | compact {w : List WalEvent} {e : Engine} :
    Reads dec resumeFrom w e → Reads dec resumeFrom w e.maybeCompact.1

/-- The part of the engine that a crash loses and only the stream brings back. -/
structure Engine.SameVolatile (e e' : Engine) : Prop where
  txbuf : e'.txbuf = e.txbuf
  toast : e'.toast = e.toast
  suspects : e'.smgrSuspects = e.smgrSuspects
  lastCommit : e'.lastCommitLsn = e.lastCommitLsn

namespace Engine

theorem SameVolatile.refl (e : Engine) : e.SameVolatile e := ⟨rfl, rfl, rfl, rfl⟩

theorem SameVolatile.trans {e e' e'' : Engine} (h : e.SameVolatile e')
    (h' : e'.SameVolatile e'') : e.SameVolatile e'' :=
  ⟨h'.txbuf.trans h.txbuf, h'.toast.trans h.toast, h'.suspects.trans h.suspects,
    h'.lastCommit.trans h.lastCommit⟩

theorem flushAll_sameVolatile (e : Engine) (ok : AppendOk) (now : Instant) (persisted : Lsn) :
    e.SameVolatile (e.flushAll ok now persisted).1 := by
  simp only [flushAll]
  split
  · exact .refl e
  · exact ⟨rfl, rfl, rfl, rfl⟩

theorem maybeCompact_sameVolatile (e : Engine) : e.SameVolatile e.maybeCompact.1 := by
  simp only [maybeCompact]
  split
  · exact .refl e
  · exact ⟨rfl, rfl, rfl, rfl⟩

theorem attachOne_sameVolatile (dec : TupleDecoder) (env : PgEnv) (cfg : Config) (e : Engine)
    (name : String) : e.SameVolatile (e.attachOne dec env cfg name) := by
  unfold attachOne
  split
  · exact ⟨rfl, rfl, rfl, rfl⟩
  · exact ⟨rfl, rfl, rfl, rfl⟩

theorem attachNew_sameVolatile (dec : TupleDecoder) (env : PgEnv) (cfg : Config) (e : Engine) :
    e.SameVolatile (e.attachNew dec env cfg) := by
  simp only [attachNew]
  split
  · generalize tablesToAttach _ _ _ = names
    induction names generalizing e with
    | nil => exact .refl e
    | cons name names ih =>
      rw [List.foldl_cons]
      exact (e.attachOne_sameVolatile dec env cfg name.2).trans (ih _)
  · exact .refl e

theorem remapCheck_sameVolatile (dec : TupleDecoder) (e : Engine) (env : PgEnv) (cfg : Config)
    (now : Instant) (ddlLsn persisted : Lsn) :
    e.SameVolatile (e.remapCheck dec env cfg now ddlLsn persisted).1 := by
  generalize hremap : e.remapCheck dec env cfg now ddlLsn persisted = res
  obtain ⟨e', persisted', ok⟩ := res
  obtain ⟨e₁, flushed, hflush, hcase⟩ := remapCheck_cases hremap
  have hsame : e.SameVolatile e₁ := by
    have := e.flushAll_sameVolatile env.appendOk now persisted
    rwa [hflush] at this
  refine hsame.trans ?_
  rcases hcase with ⟨-, -, rfl⟩ | ⟨-, nodes, tables, _, _, -, hcase⟩
  · exact .refl e'
  · have htables : e₁.SameVolatile { e₁ with catalogRels := nodes, tables } := ⟨rfl, rfl, rfl, rfl⟩
    rcases hcase with ⟨-, -, rfl⟩ | ⟨-, -, e₂, he₂, hcase⟩
    · exact htables
    · have hattach : e₁.SameVolatile e₂ := by
        rw [he₂]
        exact htables.trans (attachNew_sameVolatile dec env cfg _)
      rcases hcase with rfl | rfl
      · exact hattach
      · exact hattach.trans ⟨rfl, rfl, rfl, rfl⟩

end Engine

/-! ## The buffers, from the stream -/

/-- The last commit of a stream, or where it was resumed. -/
def lastCommit (resumeFrom : Lsn) (w : List WalEvent) : Lsn :=
  w.foldl (fun l ev => if ev.isCommit then ev.lsn else l) resumeFrom

theorem lastCommit_concat (resumeFrom : Lsn) (w : List WalEvent) (ev : WalEvent) :
    lastCommit resumeFrom (w ++ [ev]) =
      if ev.isCommit then ev.lsn else lastCommit resumeFrom w := by
  simp [lastCommit]

theorem lastCommit_le_iff {w : List WalEvent} (hw : Increasing w) (resumeFrom f : Lsn) :
    lastCommit resumeFrom w ≤ f ↔
      (∀ ev ∈ w, ev.isCommit → ev.lsn ≤ f) ∧ ((∀ ev ∈ w, ¬ ev.isCommit) → resumeFrom ≤ f) := by
  induction w using List.reverseRecOn with
  | nil => simp [lastCommit]
  | append_singleton w ev ih =>
    obtain ⟨hw, -, hlt⟩ := List.pairwise_append.mp hw
    rw [lastCommit_concat]
    by_cases hev : ev.isCommit = true
    · -- Every earlier commit lies below this one.
      simp only [hev, if_true]
      constructor
      · intro hle
        refine ⟨fun ev' hmem _ => ?_, fun hnone => absurd hev (hnone ev (by simp))⟩
        rcases List.mem_append.mp hmem with hmem | hmem
        · exact le_trans (le_of_lt (hlt ev' hmem ev (by simp))) hle
        · rwa [List.mem_singleton.mp hmem]
      · exact fun h => h.1 ev (by simp) hev
    · rw [if_neg hev, ih hw]
      simp [hev, or_imp, forall_and]

namespace Engine.Reads

variable {dec : TupleDecoder} {resumeFrom : Lsn} {w : List WalEvent} {e : Engine}

/-- A property of the volatile part is an invariant if records keep it. -/
theorem induct {P : List WalEvent → Engine → Prop} (h : Reads dec resumeFrom w e)
    (hsame : ∀ w e e', P w e → e.SameVolatile e' → P w e')
    (hstart : ∀ e : Engine, e.txbuf = .empty → e.toast = .empty → e.smgrSuspects = ∅ →
      e.lastCommitLsn = resumeFrom → P [] e)
    (hevent : ∀ w e now ev, P w e → P (w ++ [ev]) (e.applyEffect now ev.lsn ev.effect)) :
    P w e := by
  induction h with
  | start htxbuf htoast hsuspects hcommit => exact hstart _ htxbuf htoast hsuspects hcommit
  | event now ev _ ih => exact hevent _ _ now ev ih
  | flush ok now persisted _ ih => exact hsame _ _ _ ih (flushAll_sameVolatile _ ok now persisted)
  | remap env cfg now ddlLsn persisted _ ih =>
    have hnone : ∀ e : Engine, e.SameVolatile { e with remapAt := none } := fun _ =>
      ⟨rfl, rfl, rfl, rfl⟩
    exact hsame _ _ _ ih ((hnone _).trans
      (remapCheck_sameVolatile dec _ env cfg now ddlLsn persisted))
  | compact _ ih => exact hsame _ _ _ ih (maybeCompact_sameVolatile _)

theorem held (h : Reads dec resumeFrom w e) : e.txbuf.Refines (Held.ofWal w) := by
  refine h.induct (P := fun w e => e.txbuf.Refines (Held.ofWal w)) ?_ ?_ ?_
  · intro w e e' hb hsame
    rwa [hsame.txbuf]
  · intro e htxbuf _ _ _
    rw [htxbuf]
    exact .empty
  · intro w e now ev hb
    rw [Held.ofWal_concat]
    exact applyEffect_refines hb now ev

theorem lastCommitLsn_eq (h : Reads dec resumeFrom w e) :
    e.lastCommitLsn = lastCommit resumeFrom w := by
  refine h.induct (P := fun w e => e.lastCommitLsn = lastCommit resumeFrom w) ?_ ?_ ?_
  · intro w e e' heq hsame
    rw [hsame.lastCommit, heq]
  · intro e _ _ _ hcommit
    exact hcommit
  · intro w e now ev heq
    rw [lastCommit_concat, ← heq]
    obtain ⟨lsn, effect⟩ := ev
    cases effect with
    | skip | suspect | toastChunk | ops | drift | commit | abort => rfl

/-- An open transaction is marked if and only if a record marked it. -/
theorem mem_suspects_iff (h : Reads dec resumeFrom w e) {x : Xid} (hx : OpenIn w x) :
    x ∈ e.smgrSuspects ↔ ∃ ev ∈ w, ev.Suspects x := by
  refine h.induct (P := fun w e => OpenIn w x → (x ∈ e.smgrSuspects ↔ ∃ ev ∈ w, ev.Suspects x))
    ?_ ?_ ?_ hx
  · intro w e e' hiff hsame hx
    rw [hsame.suspects]
    exact hiff hx
  · intro e _ _ hsuspects _ _
    simp [hsuspects]
  · intro w e now ev hiff hx
    obtain ⟨hopen, hev⟩ := List.forall_mem_append.mp hx
    have hiff := hiff hopen
    obtain ⟨lsn, effect⟩ := ev
    have hends := hev _ (List.mem_singleton_self _)
    cases effect with
    | suspect y =>
      simp [applyEffect, WalEvent.Suspects, hiff, or_comm, eq_comm]
    | commit y subxids =>
      simp only [applyEffect, handleCommit]
      split
      · -- The mark that a commit removes is one of its own transactions.
        rename_i z hz
        have hne : x ≠ z := by
          rintro rfl
          exact hends (List.mem_of_find?_eq_some hz)
        simp [hne, hiff, WalEvent.Suspects]
      · simp [hiff, WalEvent.Suspects]
    | abort y subxids =>
      have hne : x ∉ y :: subxids := hends
      simp only [applyEffect, handleAbort, Finset.mem_sdiff, List.mem_toFinset, hne,
        not_false_eq_true, and_true, hiff]
      simp [WalEvent.Suspects]
    | skip | toastChunk | ops | drift =>
      simp [applyEffect, noteDrift, hiff, WalEvent.Suspects]

end Engine.Reads

/-! ## Toast values -/

/-- A record of the stream logs a chunk of the value for the transaction. -/
def HasChunk (w : List WalEvent) (v : Oid) (x : Xid) : Prop :=
  ∃ ev ∈ w, ∃ seq data, ev.effect = .toastChunk x v seq data

/-- Chunks in sequence order; a later one replaces an earlier one. -/
def assemble (chunks : List (Int × Bytes)) : List (Int × Bytes) :=
  chunks.foldl (fun cs c => insertChunk c.1 c.2 cs) []

theorem ToastCache.gcXid_lookup (c : ToastCache) (x : Xid) (v : Oid) :
    (c.gcXid x).vals.lookup v = (c.vals.lookup v).filter (·.1 ≠ x) := by
  refine Option.ext fun b => ?_
  rw [Option.filter_eq_some_iff, ← Option.mem_def, ← Option.mem_def, AList.mem_lookup_iff,
    AList.mem_lookup_iff]
  exact List.mem_filter

theorem ToastCache.gc_lookup (c : ToastCache) (xs : List Xid) (v : Oid) :
    (xs.foldl gcXid c).vals.lookup v = (c.vals.lookup v).filter (·.1 ∉ xs) := by
  induction xs generalizing c with
  | nil =>
    cases hlook : c.vals.lookup v with
    | none => simp [hlook]
    | some b => simp [hlook, Option.filter_some]
  | cons x xs ih =>
    rw [List.foldl_cons, ih, gcXid_lookup, Option.filter_filter]
    congr 1
    funext b
    simp

theorem chunksOf_concat (w : List WalEvent) (ev : WalEvent) (v : Oid) :
    chunksOf (w ++ [ev]) v = chunksOf w v ++ chunksOf [ev] v := by
  simp [chunksOf]

theorem HasChunk.mem_or {w : List WalEvent} {ev : WalEvent} {v : Oid} {x : Xid}
    (h : HasChunk (w ++ [ev]) v x) :
    HasChunk w v x ∨ ∃ seq data, ev.effect = .toastChunk x v seq data := by
  obtain ⟨ev', hmem, hev'⟩ := h
  rcases List.mem_append.mp hmem with hmem | hmem
  · exact .inl ⟨ev', hmem, hev'⟩
  · rw [List.mem_singleton.mp hmem] at hev'
    exact .inr hev'

theorem HasChunk.concat {w : List WalEvent} {v : Oid} {x : Xid} (h : HasChunk w v x)
    (ev : WalEvent) : HasChunk (w ++ [ev]) v x := by
  obtain ⟨ev', hmem, hev'⟩ := h
  exact ⟨ev', List.mem_append_left _ hmem, hev'⟩

/-- What the cache holds of a value, from the stream. -/
structure ToastCache.Refines (c : ToastCache) (w : List WalEvent) : Prop where
  /-- A value of an open transaction has all its chunks. -/
  complete : ∀ x v, OpenIn w x → HasChunk w v x →
    c.vals.lookup v = some (x, assemble (chunksOf w v))
  owned : ∀ x v cs, c.vals.lookup v = some (x, cs) → HasChunk w v x

theorem ToastCache.Refines.addChunk {c : ToastCache} {w : List WalEvent} (hc : c.Refines w)
    {lsn : Lsn} {y : Xid} {v : Oid} {seq : Int} {data : Bytes}
    (hone : Unshared (w ++ [⟨lsn, .toastChunk y v seq data⟩])) :
    (c.addChunk y v seq data).Refines (w ++ [⟨lsn, .toastChunk y v seq data⟩]) := by
  have hlast : ∀ {x}, HasChunk w v x → x = y := by
    rintro x ⟨ev, hmem, s, d, hev⟩
    exact hone ev (List.mem_append_left _ hmem) _ (List.mem_append_right _ (List.mem_singleton_self _))
      x y v s seq d data hev rfl
  constructor
  · intro x u hx hchunk
    obtain ⟨hopen, -⟩ := List.forall_mem_append.mp hx
    rw [chunksOf_concat]
    by_cases hu : u = v
    · subst hu
      obtain rfl : x = y := by
        rcases hchunk.mem_or with hchunk | ⟨s, d, hev⟩
        · exact hlast hchunk
        · cases hev
          rfl
      have hnew : chunksOf [⟨lsn, .toastChunk x u seq data⟩] u = [(seq, data)] := by
        simp [chunksOf]
      rw [hnew, assemble, List.foldl_append, ← assemble]
      cases hlook : c.vals.lookup u with
      | some entry =>
        obtain ⟨owner, cs⟩ := entry
        obtain rfl := hlast (hc.owned owner u cs hlook)
        have hcs := hc.complete owner u hopen (hc.owned owner u cs hlook)
        simp [ToastCache.addChunk, hcs]
      | none =>
        have hnil : chunksOf w u = [] := by
          by_contra hne
          obtain ⟨chunk, hchunk⟩ := List.exists_mem_of_ne_nil _ hne
          obtain ⟨ev, hmem, hev⟩ := List.mem_filterMap.mp hchunk
          split at hev
          · rename_i z v' s' d' heff
            split at hev
            · rename_i heq
              subst heq
              have hz : HasChunk w v' z := ⟨ev, hmem, _, _, heff⟩
              obtain rfl := hlast hz
              simp [hc.complete z v' hopen hz] at hlook
            · cases hev
          · cases hev
        simp [ToastCache.addChunk, hlook, hnil, assemble]
    · have hsame : chunksOf [⟨lsn, .toastChunk y v seq data⟩] u = [] := by
        simp [chunksOf, Ne.symm hu]
      have hchunk : HasChunk w u x := by
        refine hchunk.mem_or.resolve_right ?_
        rintro ⟨s, d, hev⟩
        cases hev
        exact hu rfl
      rw [hsame, List.append_nil, ← hc.complete x u hopen hchunk]
      simp [ToastCache.addChunk, AList.lookup_insert_ne hu]
  · intro x u cs hlook
    by_cases hu : u = v
    · subst hu
      simp only [ToastCache.addChunk, AList.lookup_insert, Option.some.injEq, Prod.mk.injEq] at hlook
      obtain ⟨rfl, -⟩ := hlook
      cases hold : c.vals.lookup u with
      | some entry =>
        exact (hc.owned entry.1 u entry.2 hold).concat _
      | none =>
        exact ⟨_, List.mem_append_right _ (List.mem_singleton_self _), seq, data, rfl⟩
    · simp only [ToastCache.addChunk, AList.lookup_insert_ne hu] at hlook
      exact (hc.owned x u cs hlook).concat _

/-- The end of a transaction drops its own values only. -/
theorem ToastCache.Refines.gc {c : ToastCache} {w : List WalEvent} (hc : c.Refines w)
    (ev : WalEvent) (xs : List Xid) (hends : ∀ x, ev.Ends x ↔ x ∈ xs)
    (hnone : ∀ x v seq data, ev.effect ≠ .toastChunk x v seq data) :
    (xs.foldl gcXid c).Refines (w ++ [ev]) := by
  have hsame : ∀ v, chunksOf (w ++ [ev]) v = chunksOf w v := by
    intro v
    rw [chunksOf_concat]
    have : chunksOf [ev] v = [] := by
      rw [chunksOf, List.filterMap_eq_nil_iff]
      intro ev' hmem
      rw [List.mem_singleton.mp hmem]
      split
      · rename_i heff
        exact absurd heff (hnone _ _ _ _)
      · rfl
    rw [this, List.append_nil]
  constructor
  · intro x v hx hchunk
    obtain ⟨hopen, hev⟩ := List.forall_mem_append.mp hx
    have hchunk : HasChunk w v x :=
      hchunk.mem_or.resolve_right fun ⟨s, d, heff⟩ => hnone _ _ _ _ heff
    have hx : x ∉ xs := fun hmem => hev ev (List.mem_singleton_self _) ((hends x).mpr hmem)
    rw [ToastCache.gc_lookup, hc.complete x v hopen hchunk, hsame]
    simp [hx]
  · intro x v cs hlook
    rw [ToastCache.gc_lookup, Option.filter_eq_some_iff] at hlook
    exact (hc.owned x v cs hlook.1).concat _

theorem Engine.Reads.toast {dec : TupleDecoder} {resumeFrom : Lsn} {w : List WalEvent}
    {e : Engine} (h : Engine.Reads dec resumeFrom w e) (hone : Unshared w) : e.toast.Refines w := by
  refine h.induct (P := fun w e => Unshared w → e.toast.Refines w) ?_ ?_ ?_ hone
  · intro w e e' hrefines hsame hone
    rw [hsame.toast]
    exact hrefines hone
  · intro e _ htoast _ _ _
    rw [htoast]
    constructor
    · rintro x v - ⟨ev, hmem, -⟩
      cases hmem
    · intro x v cs hlook
      cases hlook
  · intro w e now ev hrefines hone
    have hc : e.toast.Refines w := hrefines fun ev hmem ev' hmem' =>
      hone ev (List.mem_append_left _ hmem) ev' (List.mem_append_left _ hmem')
    obtain ⟨lsn, effect⟩ := ev
    cases effect with
    | toastChunk y v seq data => exact hc.addChunk hone
    | commit y subxids | abort y subxids =>
      exact hc.gc ⟨lsn, _⟩ (y :: subxids) (fun x => Iff.rfl) (by simp)
    | skip | suspect | ops | drift => exact hc.gc ⟨lsn, _⟩ [] (by simp [WalEvent.Ends]) (by simp)

/-! ## Replay -/

/-- A replay from `start` on holds what is held from there on. -/
theorem Held.ofWal_filter {w : List WalEvent} (hw : Increasing w) (start : Lsn) :
    Held.ofWal (w.filter (start ≤ ·.lsn)) = (Held.ofWal w).since start := by
  induction w using List.reverseRecOn with
  | nil => rfl
  | append_singleton w ev ih =>
    obtain ⟨hw, -, hlt⟩ := List.pairwise_append.mp hw
    rw [List.filter_append, Held.ofWal_concat]
    by_cases hstart : start ≤ ev.lsn
    · have hkeep : [ev].filter (start ≤ ·.lsn) = [ev] := by simp [hstart]
      rw [hkeep, Held.ofWal_concat, ih hw, Held.since_step _ hstart]
    · -- Everything so far lies before `start`.
      have hbelow : ∀ ev' ∈ w ++ [ev], ev'.lsn < start := by
        intro ev' hmem
        rcases List.mem_append.mp hmem with hmem | hmem
        · exact lt_trans (hlt ev' hmem ev (by simp)) (not_le.mp hstart)
        · exact List.mem_singleton.mp hmem ▸ not_le.mp hstart
      have hdrop : [ev].filter (start ≤ ·.lsn) = [] := by simp [not_le.mp hstart]
      rw [hdrop, List.append_nil, ih hw, ← Held.ofWal_concat, Held.since_eq_nil hbelow,
        Held.since_eq_nil fun ev' hmem => hbelow ev' (by simp [hmem])]

/-- The ops of an open transaction are held. -/
theorem Held.exists_mem_of_logs {w : List WalEvent} {x : Xid} (hx : OpenIn w x) {ev : WalEvent}
    (hmem : ev ∈ w) (hlogs : ev.Logs x) : ∃ p ∈ Held.ofWal w, p.1 = x ∧ p.2.lsn = ev.lsn := by
  induction w using List.reverseRecOn with
  | nil => cases hmem
  | append_singleton w last ih =>
    obtain ⟨hopen, hlast⟩ := List.forall_mem_append.mp hx
    have hends := hlast last (List.mem_singleton_self _)
    rw [Held.ofWal_concat]
    rcases List.mem_append.mp hmem with hmem | hmem
    · obtain ⟨p, hp, rfl, hlsn⟩ := ih hopen hmem
      refine ⟨p, ?_, rfl, hlsn⟩
      obtain ⟨lsn, effect⟩ := last
      cases effect with
      | commit y subxids | abort y subxids =>
        exact List.mem_filter.mpr ⟨hp, by simpa [WalEvent.Ends] using hends⟩
      | ops y table ops => exact List.mem_append_left _ hp
      | skip | suspect | toastChunk | drift => exact hp
    · obtain rfl := List.mem_singleton.mp hmem
      obtain ⟨lsn, effect⟩ := ev
      cases effect with
      | ops y table ops =>
        obtain ⟨rfl, hne⟩ := hlogs
        obtain ⟨op, hop⟩ := List.exists_mem_of_ne_nil _ hne
        exact ⟨(y, ⟨lsn, table, op⟩),
          List.mem_append_right _ (List.mem_map.mpr ⟨op, hop, rfl⟩), rfl, rfl⟩
      | skip | suspect | toastChunk | drift | commit | abort => cases hlogs

/-- What the engine stamps lies at or before `f` if some held op does, or if nothing is held
and nothing committed after `f`. -/
theorem Engine.Reads.restartLsn_le_iff {dec : TupleDecoder} {resumeFrom : Lsn}
    {w : List WalEvent} {e : Engine} (h : Engine.Reads dec resumeFrom w e) (hw : Increasing w)
    (f : Lsn) :
    e.restartLsn ≤ f ↔ (∃ p ∈ Held.ofWal w, p.2.lsn ≤ f) ∨
      (Held.ofWal w = [] ∧ lastCommit resumeFrom w ≤ f) := by
  have ho := Held.ofWal_ordered hw
  rw [Engine.restartLsn, h.held.oldestFirstLsn ho, h.lastCommitLsn_eq]
  cases hheld : Held.ofWal w with
  | nil => simp
  | cons p ps =>
    rw [hheld] at ho
    simp only [List.head?_cons, Option.map_some, Option.getD_some, reduceCtorEq, false_and, or_false]
    constructor
    · exact fun hle => ⟨p, by simp, hle⟩
    · rintro ⟨q, hq, hle⟩
      exact le_trans (ho.head_le hq) hle

/-! ## The floor -/

/-- What an open transaction holds in memory was logged at or after `r`. -/
def FloorAt (w : List WalEvent) (r : Lsn) : Prop :=
  ∀ x, OpenIn w x → ∀ ev ∈ w, ev.Logs x ∨ ev.Toasts x ∨ ev.Suspects x → r ≤ ev.lsn

/-- Another process holds the same of a transaction: its buffer entry, its toast values, and
its mark. -/
structure Engine.Rebuilt (e e' : Engine) (x : Xid) : Prop where
  entry : e'.txbuf.openTxs.lookup x = e.txbuf.openTxs.lookup x
  toast : ∀ v cs, e'.toast.vals.lookup v = some (x, cs) ↔ e.toast.vals.lookup v = some (x, cs)
  suspect : x ∈ e'.smgrSuspects ↔ x ∈ e.smgrSuspects

/-- The position a flush would stamp now covers what open transactions hold, and a process
that reads the same stream from there on rebuilds it. -/
def Engine.RestartCovers (dec : TupleDecoder) (w : List WalEvent) (e : Engine) : Prop :=
  FloorAt w e.restartLsn ∧
    ∀ resumeFrom e', Engine.Reads dec resumeFrom (w.filter (e.restartLsn ≤ ·.lsn)) e' →
      ∀ x, OpenIn w x → e.Rebuilt e' x

/-- Each chunk or mark of an open transaction comes at or after an op of an open transaction.
Or no open transaction has an op, and since then there was no commit. -/
def Shielded (resumeFrom : Lsn) (w : List WalEvent) : Prop :=
  ∀ x, OpenIn w x → ∀ ev ∈ w, ev.Toasts x ∨ ev.Suspects x →
    (∃ p ∈ Held.ofWal w, p.2.lsn ≤ ev.lsn) ∨
      (Held.ofWal w = [] ∧ (∀ c ∈ w, c.isCommit → c.lsn ≤ ev.lsn) ∧
        ((∀ c ∈ w, ¬ c.isCommit) → resumeFrom ≤ ev.lsn))

section Floor

variable {dec : TupleDecoder} {resumeFrom : Lsn} {w : List WalEvent} {e : Engine}

theorem floorAt_iff_shielded (hw : Increasing w) (h : Engine.Reads dec resumeFrom w e) :
    FloorAt w e.restartLsn ↔ Shielded resumeFrom w := by
  constructor
  · intro hfloor x hx ev hmem hev
    have hle := (h.restartLsn_le_iff hw ev.lsn).mp (hfloor x hx ev hmem (.inr hev))
    rwa [lastCommit_le_iff hw] at hle
  · rintro hshield x hx ev hmem (hlogs | hev)
    · -- Ops are covered in any case.
      obtain ⟨p, hp, -, hlsn⟩ := Held.exists_mem_of_logs hx hmem hlogs
      exact (h.restartLsn_le_iff hw ev.lsn).mpr (.inl ⟨p, hp, le_of_eq hlsn⟩)
    · rw [h.restartLsn_le_iff hw, lastCommit_le_iff hw]
      exact hshield x hx ev hmem hev

/-- The toast values of an open transaction, from the stream. -/
theorem ToastCache.Refines.lookup_iff {c : ToastCache} (hc : c.Refines w) {x : Xid}
    (hx : OpenIn w x) (v : Oid) (cs : List (Int × Bytes)) :
    c.vals.lookup v = some (x, cs) ↔ HasChunk w v x ∧ cs = assemble (chunksOf w v) := by
  constructor
  · intro hlook
    have hchunk := hc.owned x v cs hlook
    rw [hc.complete x v hx hchunk] at hlook
    exact ⟨hchunk, (Prod.ext_iff.mp (Option.some.inj hlook)).2.symm⟩
  · rintro ⟨hchunk, rfl⟩
    exact hc.complete x v hx hchunk

/-- A replay from at or below every chunk of the transaction logs the same values. -/
theorem chunksOf_filter (hone : Unshared w) {r : Lsn} {x : Xid}
    (hfloor : ∀ ev ∈ w, ev.Toasts x → r ≤ ev.lsn) {v : Oid} (hchunk : HasChunk w v x) :
    chunksOf (w.filter (r ≤ ·.lsn)) v = chunksOf w v := by
  obtain ⟨ev₀, hmem₀, seq₀, data₀, heff₀⟩ := hchunk
  rw [chunksOf, chunksOf, List.filterMap_filter]
  refine List.filterMap_congr fun ev hmem => ?_
  split
  · rfl
  · rename_i hbelow
    split
    · rename_i y v' seq data heff
      split
      · rename_i hv
        subst hv
        obtain rfl := hone ev hmem ev₀ hmem₀ y x v' seq seq₀ data data₀ heff heff₀
        exact absurd (hfloor ev hmem (by simp [WalEvent.Toasts, heff])) (by simpa using hbelow)
      · rfl
    · rfl

theorem rebuilt_of_floorAt (hw : Increasing w) (hone : Unshared w)
    (h : Engine.Reads dec resumeFrom w e) (hfloor : FloorAt w e.restartLsn) {resumeFrom' : Lsn}
    {e' : Engine} (h' : Engine.Reads dec resumeFrom' (w.filter (e.restartLsn ≤ ·.lsn)) e')
    {x : Xid} (hx : OpenIn w x) : e.Rebuilt e' x := by
  have hsub : ∀ ev ∈ w.filter (e.restartLsn ≤ ·.lsn), ev ∈ w := fun _ => List.mem_of_mem_filter
  have hx' : OpenIn (w.filter (e.restartLsn ≤ ·.lsn)) x := fun ev hmem => hx ev (hsub ev hmem)
  have hkeep : ∀ ev ∈ w, ev.Toasts x ∨ ev.Suspects x →
      ev ∈ w.filter (e.restartLsn ≤ ·.lsn) := by
    intro ev hmem hev
    exact List.mem_filter.mpr ⟨hmem, by simpa using hfloor x hx ev hmem (.inr hev)⟩
  constructor
  · have hall : (Held.ofWal w).since e.restartLsn = Held.ofWal w := by
      refine List.filter_eq_self.mpr fun p hp => ?_
      simpa using (h.restartLsn_le_iff hw p.2.lsn).mpr (.inl ⟨p, hp, le_rfl⟩)
    rw [h'.held x, h.held x, Held.ofWal_filter hw, hall]
  · intro v cs
    have hone' : Unshared (w.filter (e.restartLsn ≤ ·.lsn)) := fun ev hmem ev' hmem' =>
      hone ev (hsub ev hmem) ev' (hsub ev' hmem')
    rw [(h'.toast hone').lookup_iff hx', (h.toast hone).lookup_iff hx]
    have hchunk : HasChunk (w.filter (e.restartLsn ≤ ·.lsn)) v x ↔ HasChunk w v x := by
      constructor
      · rintro ⟨ev, hmem, hev⟩
        exact ⟨ev, hsub ev hmem, hev⟩
      · rintro ⟨ev, hmem, seq, data, heff⟩
        exact ⟨ev, hkeep ev hmem (.inl (by simp [WalEvent.Toasts, heff])), seq, data, heff⟩
    rw [hchunk]
    refine and_congr_right fun hchunk => ?_
    rw [chunksOf_filter hone (fun ev hmem hev => hfloor x hx ev hmem (.inr (.inl hev))) hchunk]
  · rw [h'.mem_suspects_iff hx', h.mem_suspects_iff hx]
    constructor
    · rintro ⟨ev, hmem, hev⟩
      exact ⟨ev, hsub ev hmem, hev⟩
    · rintro ⟨ev, hmem, hev⟩
      exact ⟨ev, hkeep ev hmem (.inr hev), hev⟩

/-- The stamped position covers what open transactions hold, and replay rebuilds it, if and
only if their chunks and marks are shielded. -/
theorem restartCovers_iff (hw : Increasing w) (hone : Unshared w)
    (h : Engine.Reads dec resumeFrom w e) : e.RestartCovers dec w ↔ Shielded resumeFrom w := by
  rw [← floorAt_iff_shielded hw h]
  refine ⟨And.left, fun hfloor => ⟨hfloor, fun _ e' h' x hx => ?_⟩⟩
  exact rebuilt_of_floorAt hw hone h hfloor h' hx

end Floor

/-! ## A chunk before the first op -/

namespace Sample

/-- A process that resumed at 5. -/
def resumedAt5 : Engine := { engine [desc "t" 16384] with lastCommitLsn := 5 }

def handle (w : List WalEvent) : Engine :=
  w.foldl (fun e ev => e.applyEffect 0 ev.lsn ev.effect) resumedAt5

theorem handle_reads (w : List WalEvent) : Engine.Reads .reject 5 w (handle w) := by
  induction w using List.reverseRecOn with
  | nil => exact .start rfl rfl rfl rfl
  | append_singleton w ev ih =>
    rw [handle, List.foldl_append]
    exact ih.event 0 ev

def row : Op := .insert (0, 1) ⟨[some (.i32 1)], none⟩

/-- Transaction 7 brings a chunk of toast value 100, and transaction 8 inserts and commits. -/
def chunkFirst : List WalEvent :=
  [⟨10, .toastChunk 7 100 0 [1]⟩, ⟨12, .ops 8 0 [row]⟩, ⟨20, .commit 8 []⟩]

/-- The same after an op of transaction 7. -/
def opFirst : List WalEvent := ⟨8, .ops 7 0 [row]⟩ :: chunkFirst

end Sample

theorem restartCovers_iff_opFirst :
    (Sample.handle Sample.opFirst).RestartCovers .reject Sample.opFirst := by
  refine (restartCovers_iff (by decide) ?_ (Sample.handle_reads _)).mpr ?_
  · simp only [Unshared, Sample.opFirst, Sample.chunkFirst]
    grind
  · intro x hx ev hmem hev
    refine .inl ⟨(7, ⟨8, 0, Sample.row⟩), by decide, ?_⟩
    have : ∀ ev ∈ Sample.opFirst, 8 ≤ ev.lsn := by decide
    exact this ev hmem

/-- The flush after the commit stamps 20, and a process that reads from there on does not have
the chunk of the transaction that is open. -/
theorem restartLsn_above_open_chunk :
    Engine.Reads .reject 5 Sample.chunkFirst (Sample.handle Sample.chunkFirst) ∧
      OpenIn Sample.chunkFirst 7 ∧
      (Sample.handle Sample.chunkFirst).toast.contains 100 = true ∧
      (((Sample.handle Sample.chunkFirst).flushAll (fun _ _ => true) 0 5).1.tables.map
        (·.sink.resumeState.restartLsn)) = [some 20] ∧
      (Sample.handle (Sample.chunkFirst.filter (20 ≤ ·.lsn))).toast.contains 100 = false ∧
      ¬ (Sample.handle Sample.chunkFirst).RestartCovers .reject Sample.chunkFirst := by
  have hopen : OpenIn Sample.chunkFirst 7 := by
    simp [OpenIn, Sample.chunkFirst, WalEvent.Ends]
  refine ⟨Sample.handle_reads _, hopen, rfl, rfl, rfl, ?_⟩
  intro hcovers
  have hle := hcovers.1 7 hopen ⟨10, .toastChunk 7 100 0 [1]⟩ (by simp [Sample.chunkFirst])
    (.inr (.inl rfl))
  exact absurd hle (by decide)

end Ltap
