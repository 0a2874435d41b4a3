-- SUMMARY: What a WAL stream makes visible in a table, and how committed ops reach a pending batch.
import OpenLtap.Recovery.Held

/-!
# Emission

`emission i w` lists the changes that the stream `w` makes visible in table `i`: in
commit order, and within one commit in WAL order, each with the position of its
commit. `Covers` says which part of the stream those changes depend on. The second
half follows committed ops into the pending batch of a table.
-/

namespace Ltap

/-! ## Changes of a stream -/

/-- The ops that a record commits, in WAL order. -/
def Held.committedBy (h : Held) (ev : WalEvent) : List PendingOp :=
  match ev.effect with
  | .commit xid subxids => h.taken (xid :: subxids)
  | _ => []

/-- The changes that a record makes visible in table `i`. -/
def Held.visible (i : Nat) (h : Held) (ev : WalEvent) : List (Lsn × Op) :=
  ((h.committedBy ev).filter (·.table = i)).map fun p => (ev.lsn, p.op)

def emissionFrom (i : Nat) : Held → List WalEvent → List (Lsn × Op)
  | _, [] => []
  | h, ev :: w => h.visible i ev ++ emissionFrom i (h.step ev) w

/-- The changes that a stream makes visible in table `i`. -/
def emission (i : Nat) (w : List WalEvent) : List (Lsn × Op) := emissionFrom i [] w

theorem emissionFrom_append (i : Nat) (h : Held) (w₁ w₂ : List WalEvent) :
    emissionFrom i h (w₁ ++ w₂) =
      emissionFrom i h w₁ ++ emissionFrom i (w₁.foldl Held.step h) w₂ := by
  induction w₁ generalizing h with
  | nil => rfl
  | cons ev w₁ ih => simp [emissionFrom, ih]

@[simp] theorem emission_concat (i : Nat) (w : List WalEvent) (ev : WalEvent) :
    emission i (w ++ [ev]) = emission i w ++ (Held.ofWal w).visible i ev := by
  simp [emission, emissionFrom_append, emissionFrom, Held.ofWal]

theorem Held.lsn_of_mem_visible {i : Nat} {h : Held} {ev : WalEvent} {p : Lsn × Op}
    (hp : p ∈ h.visible i ev) : p.1 = ev.lsn := by
  obtain ⟨q, -, rfl⟩ := List.mem_map.mp hp
  rfl

theorem lsn_of_mem_emissionFrom {i : Nat} {h : Held} {w : List WalEvent} {p : Lsn × Op}
    (hp : p ∈ emissionFrom i h w) : ∃ ev ∈ w, ev.lsn = p.1 := by
  induction w generalizing h with
  | nil => simp [emissionFrom] at hp
  | cons ev w ih =>
    rcases List.mem_append.mp hp with hp | hp
    · exact ⟨ev, by simp, (Held.lsn_of_mem_visible hp).symm⟩
    · obtain ⟨ev', hmem, heq⟩ := ih hp
      exact ⟨ev', by simp [hmem], heq⟩

theorem lsn_of_mem_emission {i : Nat} {w : List WalEvent} {p : Lsn × Op}
    (hp : p ∈ emission i w) : ∃ ev ∈ w, ev.lsn = p.1 :=
  lsn_of_mem_emissionFrom hp

/-- Changes come in commit order. -/
theorem emission_sorted (i : Nat) {w : List WalEvent} (hw : Increasing w) :
    (emission i w).Pairwise (·.1 ≤ ·.1) := by
  induction w using List.reverseRecOn with
  | nil => simp [emission, emissionFrom]
  | append_singleton w ev ih =>
    obtain ⟨hw, -, hlt⟩ := List.pairwise_append.mp hw
    rw [emission_concat]
    refine List.pairwise_append.mpr ⟨ih hw, ?_, ?_⟩
    · rw [Held.visible, List.pairwise_map]
      exact List.pairwise_of_forall fun _ _ => le_rfl
    · intro p hp q hq
      obtain ⟨ev', hmem, heq⟩ := lsn_of_mem_emission hp
      rw [← heq, Held.lsn_of_mem_visible hq]
      exact le_of_lt (hlt ev' hmem ev (by simp))

/-- A prefix of the stream makes a prefix of its changes visible. -/
theorem emission_take (i n : Nat) (w : List WalEvent) :
    emission i w =
      emission i (w.take n) ++ emissionFrom i (Held.ofWal (w.take n)) (w.drop n) := by
  conv_lhs => rw [← List.take_append_drop n w]
  exact emissionFrom_append i [] _ _

/-- What a record makes visible belongs to the changes of every longer prefix. -/
theorem mem_emission_take {i n m : Nat} {w : List WalEvent} {ev : WalEvent} {p : Lsn × Op}
    (hn : w[n]? = some ev) (hnm : n < m) (hp : p ∈ (Held.ofWal (w.take n)).visible i ev) :
    p ∈ emission i (w.take m) := by
  have htake : (w.take m).take (n + 1) = w.take n ++ [ev] := by
    rw [List.take_take, Nat.min_eq_left (by omega), List.take_add_one, hn]
    rfl
  rw [emission_take i (n + 1), htake, emission_concat]
  simp [hp]

theorem exists_of_mem_emission_take {i m : Nat} {w : List WalEvent} {p : Lsn × Op}
    (hp : p ∈ emission i (w.take m)) :
    ∃ n ev, w[n]? = some ev ∧ n < m ∧ p ∈ (Held.ofWal (w.take n)).visible i ev := by
  induction m with
  | zero => simp [emission, emissionFrom] at hp
  | succ m ih =>
    rw [List.take_add_one] at hp
    cases hm : w[m]? with
    | none =>
      obtain ⟨n, ev, hn, hlt, hvis⟩ := ih (by simpa [hm] using hp)
      exact ⟨n, ev, hn, by omega, hvis⟩
    | some ev =>
      rw [hm, Option.toList_some, emission_concat] at hp
      rcases List.mem_append.mp hp with hp | hp
      · obtain ⟨n, ev, hn, hlt, hvis⟩ := ih hp
        exact ⟨n, ev, hn, by omega, hvis⟩
      · exact ⟨m, ev, hm, by omega, hp⟩

/-! ## Dependence on the stream -/

/-- Every commit above `c` has all its ops on table `i` at or after `r`. -/
def Covers (w : List WalEvent) (i : Nat) (c r : Lsn) : Prop :=
  ∀ n ev, w[n]? = some ev → c < ev.lsn →
    ∀ p ∈ (Held.ofWal (w.take n)).committedBy ev, p.table = i → r ≤ p.lsn

theorem Held.mem_of_mem_committedBy {h : Held} {ev : WalEvent} {p : PendingOp}
    (hp : p ∈ h.committedBy ev) : ∃ x, (x, p) ∈ h := by
  unfold committedBy at hp
  split at hp
  · obtain ⟨⟨x, q⟩, hq, rfl⟩ := List.mem_map.mp hp
    exact ⟨x, List.mem_of_mem_filter hq⟩
  · simp at hp

/-- A commit whose ops on table `i` all lie at or after `start` shows the same in the
view from `start`. -/
theorem Held.visible_since {i : Nat} {h : Held} {ev : WalEvent} {start : Lsn}
    (hcov : ∀ p ∈ h.committedBy ev, p.table = i → start ≤ p.lsn) :
    (h.since start).visible i ev = h.visible i ev := by
  unfold visible committedBy at *
  split
  case h_2 => rfl
  case h_1 xid subxids heff =>
    simp only [heff] at hcov
    congr 1
    simp only [taken, since, List.filter_map, List.filter_filter]
    congr 1
    refine List.filter_congr fun q hq => ?_
    by_cases hx : q.1 ∈ xid :: subxids
    · by_cases hi : q.2.table = i
      · have hmem : q.2 ∈ h.taken (xid :: subxids) :=
          List.mem_map.mpr ⟨q, List.mem_filter.mpr ⟨hq, by simpa using hx⟩, rfl⟩
        simp [hcov q.2 hmem hi]
      · simp [hi]
    · simp only [hx, decide_false, Bool.and_false, Bool.false_and]

/-! ## From ops to change rows -/

/-- A change row records a committed op. The row of a deletion is the pre-image that
came with the op, where it is known. -/
def Emits : Lsn × Op → EmitRow → Prop
  | (lsn, .insert ctid ver), e | (lsn, .update _ ctid ver), e =>
    e.lsn = lsn ∧ e.deleted = false ∧ e.ctid = ctid ∧ e.row = ver.row
  | (lsn, .delete ctid oldRow), e =>
    e.lsn = lsn ∧ e.deleted = true ∧ e.ctid = ctid ∧ ∀ row ∈ oldRow, e.row = row

namespace Table

/-- An applied op adds one change row that records it. -/
theorem applyOp_spec (t : Table) (now : Instant) (lsn : Lsn) (op : Op) :
    (t.applyOp now lsn op).sink = t.sink ∧ (t.applyOp now lsn op).desc = t.desc ∧
      (t.applyOp now lsn op).dedupeBelow = t.dedupeBelow ∧
      (t.applyOp now lsn op).pending.maxCommitLsn = max t.pending.maxCommitLsn lsn ∧
      ∃ e, (t.applyOp now lsn op).pending.rows = t.pending.rows ++ [e] ∧ Emits (lsn, op) e := by
  cases op with
  | insert ctid ver => exact ⟨rfl, rfl, rfl, rfl, _, rfl, rfl, rfl, rfl, rfl⟩
  | update oldCtid ctid ver => exact ⟨rfl, rfl, rfl, rfl, _, rfl, rfl, rfl, rfl, rfl⟩
  | delete ctid oldRow =>
    refine ⟨rfl, rfl, rfl, rfl, _, rfl, rfl, rfl, rfl, ?_⟩
    rintro row rfl
    rfl

/-- Ops of one commit, in order. -/
def commitOps (now : Instant) (lsn : Lsn) (t : Table) (ops : List Op) : Table :=
  ops.foldl (·.commitOp now lsn ·) t

/-- A commit at or below the dedupe watermark changes nothing. -/
theorem commitOps_of_le {t : Table} {lsn : Lsn} (h : lsn ≤ t.dedupeBelow) (now : Instant)
    (ops : List Op) : t.commitOps now lsn ops = t := by
  induction ops with
  | nil => rfl
  | cons op ops ih =>
    rw [commitOps, List.foldl_cons, commitOp, if_pos h]
    exact ih

/-- What a commit above the dedupe watermark leaves in a table. -/
structure Committed (t : Table) (lsn : Lsn) (ops : List Op) (t' : Table) : Prop where
  sink : t'.sink = t.sink
  desc : t'.desc = t.desc
  dedupeBelow : t'.dedupeBelow = t.dedupeBelow
  maxCommitLsn : t'.pending.maxCommitLsn =
    if ops = [] then t.pending.maxCommitLsn else max t.pending.maxCommitLsn lsn
  rows : ∃ rows, t'.pending.rows = t.pending.rows ++ rows ∧
    List.Forall₂ Emits (ops.map fun op => (lsn, op)) rows

theorem commitOps_of_lt {t : Table} {lsn : Lsn} (h : t.dedupeBelow < lsn) (now : Instant)
    (ops : List Op) : Committed t lsn ops (t.commitOps now lsn ops) := by
  induction ops generalizing t with
  | nil => exact ⟨rfl, rfl, rfl, rfl, [], by simp [commitOps], .nil⟩
  | cons op ops ih =>
    have hstep : t.commitOps now lsn (op :: ops) = (t.applyOp now lsn op).commitOps now lsn ops := by
      rw [commitOps, List.foldl_cons, commitOp, if_neg (not_le.mpr h)]
      rfl
    obtain ⟨hsink, hdesc, hded, hmax, e, hrow, he⟩ := t.applyOp_spec now lsn op
    have ih := ih (t := t.applyOp now lsn op) (by rw [hded]; exact h)
    obtain ⟨rows, hrows, hemits⟩ := ih.rows
    rw [hstep]
    refine ⟨ih.sink.trans hsink, ih.desc.trans hdesc, ih.dedupeBelow.trans hded, ?_, ?_⟩
    · rw [ih.maxCommitLsn, hmax]
      split <;> simp
    · refine ⟨e :: rows, ?_, .cons he hemits⟩
      rw [hrows, hrow]
      simp

end Table

/-- Each table sees its own ops of a commit. -/
theorem Engine.getElem?_commitOps (now : Instant) (lsn : Lsn) (tables : List Table)
    (ops : List PendingOp) (i : Nat) :
    (Engine.commitOps now lsn tables ops)[i]? =
      (tables[i]?).map fun t =>
        t.commitOps now lsn ((ops.filter (·.table = i)).map (·.op)) := by
  induction ops generalizing tables with
  | nil => simp [commitOps, Table.commitOps]
  | cons p ops ih =>
    have ih := ih (tables.modify p.table (·.commitOp now lsn p.op))
    rw [commitOps, List.foldl_cons]
    rw [commitOps] at ih
    rw [ih, List.getElem?_modify]
    by_cases hp : p.table = i
    · simp [hp, Table.commitOps, Function.comp_def]
    · simp [hp]

/-- The ops that a record commits to table `i`. -/
def Engine.committed (e : Engine) (i : Nat) : Effect → List Op
  | .commit xid subxids => ((e.txbuf.commit xid subxids).1.filter (·.table = i)).map (·.op)
  | _ => []

/-- A record leaves a table with the ops that it commits there. Schema drift marks its table
besides. -/
theorem Engine.applyEffect_committed {e : Engine} {now : Instant} {lsn : Lsn} {eff : Effect} {i : Nat}
    {t' : Table} (ht' : (e.applyEffect now lsn eff).tables[i]? = some t') :
    ∃ t, e.tables[i]? = some t ∧ ∃ needs,
      t' = { t.commitOps now lsn (e.committed i eff) with needsResnapshot := needs } := by
  cases eff with
  | commit xid subxids =>
    simp only [applyEffect, handleCommit, getElem?_commitOps, Option.map_eq_some_iff] at ht'
    obtain ⟨t, ht, rfl⟩ := ht'
    exact ⟨t, ht, _, rfl⟩
  | drift table =>
    simp only [applyEffect, noteDrift, List.getElem?_modify, Option.map_eq_map,
      Option.map_eq_some_iff] at ht'
    obtain ⟨t, ht, rfl⟩ := ht'
    refine ⟨t, ht, ?_⟩
    split
    · exact ⟨true, rfl⟩
    · exact ⟨t.needsResnapshot, rfl⟩
  | skip | suspect | toastChunk | ops | abort => exact ⟨t', ht', t'.needsResnapshot, rfl⟩

/-- What is committed is what the records so far make visible. -/
theorem Engine.applyEffect_getElem? {e : Engine} {h : Held} (hb : e.txbuf.Refines h)
    (ho : h.Ordered) (now : Instant) {ev : WalEvent} {i : Nat} {t' : Table}
    (ht' : (e.applyEffect now ev.lsn ev.effect).tables[i]? = some t') :
    ∃ t, e.tables[i]? = some t ∧ ∃ needs,
      t' = { t.commitOps now ev.lsn ((h.visible i ev).map (·.2)) with needsResnapshot := needs } := by
  have hops : e.committed i ev.effect = (h.visible i ev).map (·.2) := by
    obtain ⟨lsn, effect⟩ := ev
    cases effect with
    | commit xid subxids =>
      simp [committed, hb.commit ho, Held.visible, Held.committedBy]
    | skip | suspect | toastChunk | ops | drift | abort => rfl
  rw [← hops]
  exact applyEffect_committed ht'

end Ltap
