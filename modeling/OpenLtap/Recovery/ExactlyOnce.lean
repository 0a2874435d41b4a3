-- SUMMARY: Across flush rounds and crashes every committed op reaches its table's change log exactly once.
import OpenLtap.Recovery.Run

/-!
# Exactly-once delivery

The invariant has a durable and a volatile half. The durable half ties the change log
of a table to its commit watermark, and its restart watermark to the stream: every
transaction that commits above the former has its ops at or after the latter. The
volatile half says what the running process knows: from which position on it has seen
the stream, and that its pending rows are the changes above the commit watermark.
-/

namespace Ltap

/-- The changes of table `i` between its cutover and its commit watermark. -/
def expected (w : List WalEvent) (i : Nat) (cutover commitLsn : Lsn) : List (Lsn × Op) :=
  (emission i w).filter fun p => cutover < p.1 ∧ p.1 ≤ commitLsn

/-- The commit watermark of a table; before the first append it is its cutover. -/
def Table.commitMark (t : Table) (cutover : Lsn) : Lsn :=
  t.sink.resumeState.commitLsn.getD cutover

/-! ## Raising the commit watermark -/

theorem expected_extend {w : List WalEvent} (hw : Increasing w) (i : Nat) {cut c c' : Lsn}
    (hcut : cut ≤ c) (hc : c ≤ c') :
    expected w i cut c' =
      expected w i cut c ++ (emission i w).filter fun p => c < p.1 ∧ p.1 ≤ c' := by
  have hsorted := emission_sorted i hw
  refine StableSort.eq_of_sorted_of_filter_eq Prod.fst (hsorted.sublist List.filter_sublist) ?_ ?_
  · refine List.pairwise_append.mpr ⟨hsorted.sublist List.filter_sublist,
      hsorted.sublist List.filter_sublist, ?_⟩
    intro p hp q hq
    have hp := (List.mem_filter.mp hp).2
    have hq := (List.mem_filter.mp hq).2
    simp only [decide_eq_true_eq] at hp hq
    exact le_of_lt (lt_of_le_of_lt hp.2 hq.1)
  · intro k
    simp only [expected, List.filter_append, List.filter_filter]
    -- At one position the changes are on one side of the watermark.
    by_cases hk : k ≤ c
    · have hnil : (emission i w).filter
          (fun p => decide (p.1 = k) && decide (c < p.1 ∧ p.1 ≤ c')) = [] := by
        rw [List.filter_eq_nil_iff]
        intro p _
        simp only [Bool.and_eq_true, decide_eq_true_eq, not_and]
        rintro rfl hlt
        exact absurd hlt (not_lt.mpr hk)
      rw [hnil, List.append_nil]
      refine List.filter_congr fun p _ => ?_
      by_cases hp : p.1 = k
      · simp [hp, hk, le_trans hk hc]
      · simp [hp]
    · have hck : c < k := not_le.mp hk
      have hnil : (emission i w).filter
          (fun p => decide (p.1 = k) && decide (cut < p.1 ∧ p.1 ≤ c)) = [] := by
        rw [List.filter_eq_nil_iff]
        intro p _
        simp only [Bool.and_eq_true, decide_eq_true_eq, not_and]
        rintro rfl _
        exact hk
      rw [hnil, List.nil_append]
      refine List.filter_congr fun p _ => ?_
      by_cases hp : p.1 = k
      · simp [hp, hck, lt_of_le_of_lt hcut hck]
      · simp [hp]

/-- If the records ahead lie above `c'` and the changes so far do not, the changes up to
`c'` are those made visible so far. -/
theorem emission_filter_take {w : List WalEvent} {i pos : Nat} {c c' : Lsn}
    (hdone : ∀ p ∈ emission i (w.take pos), c < p.1 → p.1 ≤ c')
    (hahead : ∀ ev ∈ w.drop pos, c' < ev.lsn) :
    (emission i w).filter (fun p => c < p.1 ∧ p.1 ≤ c') =
      (emission i (w.take pos)).filter (c < ·.1) := by
  rw [emission_take i pos, List.filter_append]
  have hnil : (emissionFrom i (Held.ofWal (w.take pos)) (w.drop pos)).filter
      (fun p => decide (c < p.1 ∧ p.1 ≤ c')) = [] := by
    rw [List.filter_eq_nil_iff]
    intro p hp
    obtain ⟨ev, hmem, heq⟩ := lsn_of_mem_emissionFrom hp
    have := hahead ev hmem
    simp only [decide_eq_true_eq, not_and, not_le]
    intro _
    rwa [heq] at this
  rw [hnil, List.append_nil]
  refine List.filter_congr fun p hp => ?_
  by_cases hc : c < p.1
  · simp [hc, hdone p hp hc]
  · simp [hc]

/-! ## The invariant -/

/-- What the sink of table `i` promises to the next process. -/
structure Durable (w : List WalEvent) (i : Nat) (cutover : Lsn) (base : List EmitRow)
    (t : Table) : Prop where
  watermarks : t.sink.resumeState = ⟨none, none, none⟩ ∧ t.sink.log = [] ∨
    ∃ c r, t.sink.resumeState = ⟨some c, some r, some t.desc.relNode⟩ ∧
      cutover ≤ c ∧ Covers w i c r
  base_lsn : ∀ e ∈ base, e.lsn = cutover
  log : ∃ emitted, t.sink.log = base ++ emitted ∧
    List.Forall₂ Emits (expected w i cutover (t.commitMark cutover)) emitted

/-- What the process knows about the stream: it reads from `start` on and has handled
`pos` records. -/
structure Reading (w : List WalEvent) (pos : Nat) (start : Lsn) (e : Engine) : Prop where
  held : e.txbuf.Refines ((Held.ofWal (w.take pos)).since start)
  ahead : ∀ ev ∈ w.drop pos, start ≤ ev.lsn
  /-- Until the first commit the resume point stands in for the last commit, and records
  before it may still come. -/
  lastCommit : (∀ t ∈ e.tables, t.pending.rows = []) ∨
    ∀ ev ∈ w.drop pos, e.lastCommitLsn ≤ ev.lsn

/-- What the process keeps about table `i`. -/
structure Volatile (w : List WalEvent) (i pos : Nat) (start cutover : Lsn) (t : Table) :
    Prop where
  /-- Transactions that will not be dropped have been seen as a whole. -/
  seen : Covers w i t.dedupeBelow start
  cutover_le : cutover ≤ t.commitMark cutover
  dedupe_le : t.dedupeBelow ≤ t.commitMark cutover
  /-- Once the watermark has left the dedupe position, replay is over. -/
  replay : t.commitMark cutover = t.dedupeBelow ∨
    ∀ ev ∈ w.drop pos, t.commitMark cutover < ev.lsn
  pending : List.Forall₂ Emits
    ((emission i (w.take pos)).filter (t.commitMark cutover < ·.1)) t.pending.rows
  changes_le : ∀ p ∈ emission i (w.take pos),
    t.commitMark cutover < p.1 → p.1 ≤ t.pending.maxCommitLsn
  maxCommit_lt : t.pending.maxCommitLsn = 0 ∨
    ∀ ev ∈ w.drop pos, t.pending.maxCommitLsn < ev.lsn

/-- The invariant of a run. -/
structure Sys.Inv (w : List WalEvent) (s : Sys) : Prop where
  durable : ∀ i t, s.engine.tables[i]? = some t → Durable w i (s.cutover i) (s.base i) t
  volatile : s.running → ∃ start, Reading w s.pos start s.engine ∧
    ∀ i t, s.engine.tables[i]? = some t → Volatile w i s.pos start (s.cutover i) t

/-! ## Records -/

section Records

variable {w : List WalEvent} {i pos : Nat} {start cut : Lsn} {t t' : Table} {ev : WalEvent}

theorem take_succ_of_getElem? (hev : w[pos]? = some ev) :
    w.take (pos + 1) = w.take pos ++ [ev] := by
  rw [List.take_add_one, hev]
  rfl

theorem drop_of_getElem? (hev : w[pos]? = some ev) : w.drop pos = ev :: w.drop (pos + 1) := by
  obtain ⟨hlt, rfl⟩ := List.getElem?_eq_some_iff.mp hev
  exact List.drop_eq_getElem_cons hlt

theorem Increasing.lt_of_mem_drop (hw : Increasing w) (hev : w[pos]? = some ev) :
    ∀ ev' ∈ w.drop (pos + 1), ev.lsn < ev'.lsn := by
  have hdrop := List.Pairwise.sublist (List.drop_sublist pos w) hw
  rw [drop_of_getElem? hev] at hdrop
  exact (List.pairwise_cons.mp hdrop).1

/-- Ops that are held were logged before any record that is still ahead. -/
theorem Increasing.held_lt (hw : Increasing w) {p : Xid × PendingOp}
    (hp : p ∈ Held.ofWal (w.take pos)) (hev : ev ∈ w.drop pos) : p.2.lsn < ev.lsn := by
  obtain ⟨ev', hmem, heq⟩ := Held.lsn_mem_of_mem_ofWal hp
  rw [← heq]
  rw [Increasing, ← List.take_append_drop pos w] at hw
  exact (List.pairwise_append.mp hw).2.2 ev' hmem ev hev

/-- A record changes a table by what it commits there, unless the commit is at or below
the table's dedupe watermark. -/
theorem Engine.applyEffect_table {e : Engine} {h : Held} (hb : e.txbuf.Refines h)
    (ho : h.Ordered) (now : Instant)
    (ht' : (e.applyEffect now ev.lsn ev.effect).tables[i]? = some t') :
    ∃ t, e.tables[i]? = some t ∧ Table.Committed t ev.lsn
      (if t.dedupeBelow < ev.lsn then (h.visible i ev).map (·.2) else []) t' := by
  obtain ⟨t, ht, needs, rfl⟩ := applyEffect_getElem? hb ho now ht'
  refine ⟨t, ht, ?_⟩
  by_cases hlt : t.dedupeBelow < ev.lsn
  · rw [if_pos hlt]
    obtain ⟨hsink, hdesc, hded, hmax, hrows⟩ :=
      Table.commitOps_of_lt hlt now ((h.visible i ev).map (·.2))
    exact ⟨hsink, hdesc, hded, hmax, hrows⟩
  · rw [if_neg hlt, Table.commitOps_of_le (not_lt.mp hlt)]
    exact ⟨rfl, rfl, rfl, rfl, [], by simp, .nil⟩

theorem Table.Committed.commitMark {lsn : Lsn} {ops : List Op} (hc : Committed t lsn ops t') :
    t'.commitMark cut = t.commitMark cut := by
  simp [Table.commitMark, hc.sink]

theorem Durable.committed {base : List EmitRow} {lsn : Lsn} {ops : List Op}
    (hd : Durable w i cut base t) (hc : Table.Committed t lsn ops t') :
    Durable w i cut base t' := by
  refine ⟨?_, hd.base_lsn, ?_⟩
  · rw [hc.sink, hc.desc]
    exact hd.watermarks
  · rw [hc.sink, hc.commitMark]
    exact hd.log

theorem mem_drop_of_mem_drop_succ (hev : w[pos]? = some ev) :
    ∀ ev' ∈ w.drop (pos + 1), ev' ∈ w.drop pos := by
  rw [drop_of_getElem? hev]
  exact fun ev' => List.mem_cons_of_mem ev

theorem emission_take_succ (hev : w[pos]? = some ev) (i : Nat) :
    emission i (w.take (pos + 1)) =
      emission i (w.take pos) ++ (Held.ofWal (w.take pos)).visible i ev := by
  rw [take_succ_of_getElem? hev, emission_concat]

/-- The highest commit position of the pending batch keeps up with the changes above `c`. -/
theorem le_maxCommit_of_emission {c : Lsn} (hev : w[pos]? = some ev)
    (hc : Table.Committed t ev.lsn (((Held.ofWal (w.take pos)).visible i ev).map (·.2)) t')
    (hle : ∀ p ∈ emission i (w.take pos), c < p.1 → p.1 ≤ t.pending.maxCommitLsn) :
    ∀ p ∈ emission i (w.take (pos + 1)), c < p.1 → p.1 ≤ t'.pending.maxCommitLsn := by
  intro p hp hgt
  rw [hc.maxCommitLsn]
  rw [emission_take_succ hev] at hp
  rcases List.mem_append.mp hp with hp | hp
  · have := hle p hp hgt
    split
    · exact this
    · exact le_trans this (le_max_left _ _)
  · have hne : ((Held.ofWal (w.take pos)).visible i ev).map (·.2) ≠ [] :=
      List.ne_nil_of_mem (List.mem_map.mpr ⟨p, hp, rfl⟩)
    rw [if_neg hne, Held.lsn_of_mem_visible hp]
    exact le_max_right _ _

/-- A commit above the dedupe watermark is applied. -/
theorem Volatile.event_applied (hw : Increasing w) (hev : w[pos]? = some ev)
    (hv : Volatile w i pos start cut t) (hlt : t.dedupeBelow < ev.lsn)
    (hc : Table.Committed t ev.lsn (((Held.ofWal (w.take pos)).visible i ev).map (·.2)) t') :
    Volatile w i (pos + 1) start cut t' := by
  have hahead := hw.lt_of_mem_drop hev
  have hsub := mem_drop_of_mem_drop_succ hev
  obtain ⟨rows, hrows, hemits⟩ := hc.rows
  have hmark : t.commitMark cut < ev.lsn := by
    rcases hv.replay with heq | hfut
    · rwa [heq]
    · exact hfut ev (by simp [drop_of_getElem? hev])
  have hretag : (((Held.ofWal (w.take pos)).visible i ev).map (·.2)).map
      (fun op => (ev.lsn, op)) = (Held.ofWal (w.take pos)).visible i ev := by
    simp [Held.visible]
  rw [hretag] at hemits
  refine ⟨?_, ?_, ?_, .inr ?_, ?_, ?_, ?_⟩
  · rw [hc.dedupeBelow]; exact hv.seen
  · rw [hc.commitMark]; exact hv.cutover_le
  · rw [hc.commitMark, hc.dedupeBelow]; exact hv.dedupe_le
  · rw [hc.commitMark]
    exact fun ev' hmem => lt_trans hmark (hahead ev' hmem)
  · rw [emission_take_succ hev, hc.commitMark, hrows, List.filter_append]
    refine List.rel_append hv.pending ?_
    rwa [List.filter_eq_self.mpr]
    intro p hp
    simpa [Held.lsn_of_mem_visible hp] using hmark
  · rw [hc.commitMark]
    exact le_maxCommit_of_emission hev hc hv.changes_le
  · rw [hc.maxCommitLsn]
    split
    · exact hv.maxCommit_lt.imp_right fun hfut ev' hmem => hfut ev' (hsub ev' hmem)
    · right
      intro ev' hmem
      refine max_lt ?_ (hahead ev' hmem)
      rcases hv.maxCommit_lt with hzero | hfut
      · rw [hzero]
        exact Nat.zero_lt_of_lt (hahead ev' hmem)
      · exact hfut ev' (hsub ev' hmem)

/-- A replayed commit is dropped. -/
theorem Volatile.event_dropped (hev : w[pos]? = some ev) (hv : Volatile w i pos start cut t)
    (hle : ev.lsn ≤ t.dedupeBelow) (hc : Table.Committed t ev.lsn [] t') :
    Volatile w i (pos + 1) start cut t' := by
  have hsub := mem_drop_of_mem_drop_succ hev
  obtain ⟨rows, hrows, hemits⟩ := hc.rows
  cases hemits
  have hold : ∀ p ∈ (Held.ofWal (w.take pos)).visible i ev, p.1 ≤ t.commitMark cut := by
    intro p hp
    rw [Held.lsn_of_mem_visible hp]
    exact le_trans hle hv.dedupe_le
  refine ⟨?_, ?_, ?_, ?_, ?_, ?_, ?_⟩
  · rw [hc.dedupeBelow]; exact hv.seen
  · rw [hc.commitMark]; exact hv.cutover_le
  · rw [hc.commitMark, hc.dedupeBelow]; exact hv.dedupe_le
  · rw [hc.commitMark, hc.dedupeBelow]
    exact hv.replay.imp_right fun hfut ev' hmem => hfut ev' (hsub ev' hmem)
  · rw [emission_take_succ hev, hc.commitMark, hrows, List.filter_append]
    refine List.rel_append hv.pending ?_
    rw [List.filter_eq_nil_iff.mpr]
    · exact .nil
    · intro p hp
      simpa using hold p hp
  · intro p hp hgt
    rw [hc.commitMark] at hgt
    rw [hc.maxCommitLsn, if_pos rfl]
    rw [emission_take_succ hev] at hp
    rcases List.mem_append.mp hp with hp | hp
    · exact hv.changes_le p hp hgt
    · exact absurd hgt (not_lt.mpr (hold p hp))
  · rw [hc.maxCommitLsn, if_pos rfl]
    exact hv.maxCommit_lt.imp_right fun hfut ev' hmem => hfut ev' (hsub ev' hmem)

/-- Handling a record keeps the volatile half. -/
theorem Volatile.event (hw : Increasing w) (hev : w[pos]? = some ev)
    (hv : Volatile w i pos start cut t)
    (hc : Table.Committed t ev.lsn (if t.dedupeBelow < ev.lsn then
      (((Held.ofWal (w.take pos)).since start).visible i ev).map (·.2) else []) t') :
    Volatile w i (pos + 1) start cut t' := by
  by_cases hlt : t.dedupeBelow < ev.lsn
  · rw [if_pos hlt, Held.visible_since (hv.seen pos ev hev hlt)] at hc
    exact hv.event_applied hw hev hlt hc
  · rw [if_neg hlt] at hc
    exact hv.event_dropped hev (not_lt.mp hlt) hc

/-- Handling a record keeps what the process knows about the stream. -/
theorem Reading.event (hw : Increasing w) (hev : w[pos]? = some ev) {e : Engine}
    (hr : Reading w pos start e) (now : Instant) :
    Reading w (pos + 1) start (e.applyEffect now ev.lsn ev.effect) := by
  have hdrop := drop_of_getElem? hev
  have hsub := mem_drop_of_mem_drop_succ hev
  refine ⟨?_, fun ev' hmem => hr.ahead ev' (hsub ev' hmem), ?_⟩
  · rw [take_succ_of_getElem? hev, Held.ofWal_concat,
      Held.since_step _ (hr.ahead ev (by simp [hdrop]))]
    exact Engine.applyEffect_refines hr.held now ev
  · have hahead := hw.lt_of_mem_drop hev
    obtain ⟨lsn, effect⟩ := ev
    cases effect with
    | commit xid subxids => exact .inr fun ev' hmem => le_of_lt (hahead ev' hmem)
    | drift table =>
      refine hr.lastCommit.imp ?_ fun hfut ev' hmem => hfut ev' (hsub ev' hmem)
      intro hnil t ht
      obtain ⟨n, hn⟩ := List.getElem?_of_mem ht
      simp only [Engine.applyEffect, Engine.noteDrift, List.getElem?_modify, Option.map_eq_map,
        Option.map_eq_some_iff] at hn
      obtain ⟨u, hu, rfl⟩ := hn
      have := hnil u (List.mem_of_getElem? hu)
      split <;> exact this
    | skip | suspect | toastChunk | ops | abort =>
      exact hr.lastCommit.imp_right fun hfut ev' hmem => hfut ev' (hsub ev' hmem)

end Records

/-! ## Flush rounds -/

section Flush

variable {w : List WalEvent} {i pos : Nat} {start cut : Lsn} {t : Table}

/-- Pending rows raise the commit watermark. -/
theorem Volatile.commitMark_lt (hv : Volatile w i pos start cut t)
    (hrows : t.pending.rows ≠ []) : t.commitMark cut < t.pending.maxCommitLsn := by
  obtain ⟨q, hq⟩ : ∃ q, q ∈ (emission i (w.take pos)).filter (t.commitMark cut < ·.1) := by
    refine List.exists_mem_of_ne_nil _ fun hnil => hrows ?_
    exact List.forall₂_nil_left_iff.mp (hnil ▸ hv.pending)
  obtain ⟨hq, hlt⟩ := List.mem_filter.mp hq
  simp only [decide_eq_true_eq] at hlt
  exact lt_of_lt_of_le hlt (hv.changes_le q hq hlt)

/-- The records ahead lie above the pending rows. -/
theorem Volatile.maxCommit_lt_ahead (hv : Volatile w i pos start cut t)
    (hrows : t.pending.rows ≠ []) : ∀ ev ∈ w.drop pos, t.pending.maxCommitLsn < ev.lsn := by
  refine hv.maxCommit_lt.resolve_left fun hzero => ?_
  exact absurd (hv.commitMark_lt hrows) (by simp [hzero])

/-- What is held of the stream from a start on comes in its order. -/
theorem held_ordered (hw : Increasing w) (pos : Nat) (start : Lsn) :
    Held.Ordered ((Held.ofWal (w.take pos)).since start) :=
  (Held.ofWal_ordered (List.Pairwise.sublist (List.take_sublist pos w) hw)).filter _

/-- Where rows are pending, a commit has been handled. -/
theorem Reading.lastCommit_le {e : Engine} (hr : Reading w pos start e) (hpending : e.pendingTotal ≠ 0) :
    ∀ ev ∈ w.drop pos, e.lastCommitLsn ≤ ev.lsn := by
  obtain ⟨u, hu, hrows⟩ := Engine.exists_pending hpending
  exact hr.lastCommit.resolve_left fun hnil => hrows (hnil u hu)

/-- The position a flush stamps covers whatever commits above the rows it makes durable: up
to `m` the changes above the dedupe watermark `d` are among them. -/
theorem Reading.covers_restart (hw : Increasing w) {e : Engine} (hr : Reading w pos start e)
    (hcommit : ∀ ev ∈ w.drop pos, e.lastCommitLsn ≤ ev.lsn) {d m : Lsn}
    (hseen : Covers w i d start) (hdm : d ≤ m)
    (hdone : ∀ p ∈ emission i (w.take pos), d < p.1 → p.1 ≤ m) :
    Covers w i m e.restartLsn := by
  have ho := held_ordered hw pos start
  intro n ev hn hgt p hp hi
  have hlt : d < ev.lsn := lt_of_le_of_lt hdm hgt
  rcases Nat.lt_or_ge n pos with hpos | hge
  · -- A commit handled already is among the changes, and those are not above.
    exfalso
    have hvis : (ev.lsn, p.op) ∈ (Held.ofWal (w.take n)).visible i ev :=
      List.mem_map.mpr ⟨p, List.mem_filter.mpr ⟨hp, by simpa using hi⟩, rfl⟩
    exact absurd hgt (not_lt.mpr (hdone _ (mem_emission_take hn hpos hvis) hlt))
  · have hstart : start ≤ p.lsn := hseen n ev hn hlt p hp hi
    obtain ⟨x, hx⟩ := Held.mem_of_mem_committedBy hp
    rw [Engine.restartLsn, hr.held.oldestFirstLsn ho]
    rcases Held.mem_take_cases hge hx with hmem | ⟨ev', hmem, heq⟩
    · have hmem := Held.mem_since.mpr ⟨hmem, hstart⟩
      cases hheld : (Held.ofWal (w.take pos)).since start with
      | nil => simp [hheld] at hmem
      | cons q qs =>
        rw [hheld] at hmem ho
        exact ho.head_le hmem
    · cases hheld : (Held.ofWal (w.take pos)).since start with
      | nil => exact heq ▸ hcommit ev' hmem
      | cons q qs =>
        have hq : q ∈ Held.ofWal (w.take pos) := by
          have : q ∈ (Held.ofWal (w.take pos)).since start := by simp [hheld]
          exact (Held.mem_since.mp this).1
        exact le_of_lt (heq ▸ hw.held_lt hq hmem)

/-- The changes above the dedupe watermark are not above the pending rows. -/
theorem Volatile.le_maxCommit (hv : Volatile w i pos start cut t) (hrows : t.pending.rows ≠ []) :
    t.dedupeBelow ≤ t.pending.maxCommitLsn ∧
      ∀ p ∈ emission i (w.take pos), t.dedupeBelow < p.1 → p.1 ≤ t.pending.maxCommitLsn := by
  have hmark := le_of_lt (hv.commitMark_lt hrows)
  refine ⟨le_trans hv.dedupe_le hmark, fun p hp _ => ?_⟩
  rcases lt_or_ge (t.commitMark cut) p.1 with hlt | hge
  · exact hv.changes_le p hp hlt
  · exact le_trans hge hmark

theorem Durable.flush (hw : Increasing w) {base : List EmitRow} {restart : Lsn}
    (hd : Durable w i cut base t) (hv : Volatile w i pos start cut t)
    (hrows : t.pending.rows ≠ []) (hcov : Covers w i t.pending.maxCommitLsn restart) :
    Durable w i cut base (t.flush restart) := by
  have hmark := le_of_lt (hv.commitMark_lt hrows)
  refine ⟨.inr ⟨_, _, rfl, le_trans hv.cutover_le hmark, hcov⟩, hd.base_lsn, ?_⟩
  obtain ⟨emitted, hlog, hemits⟩ := hd.log
  refine ⟨emitted ++ t.pending.rows, by simp [Table.flush, hlog], ?_⟩
  have hnew := emission_filter_take (i := i) hv.changes_le (hv.maxCommit_lt_ahead hrows)
  have hext := expected_extend hw i hv.cutover_le hmark
  rw [hnew] at hext
  exact hext ▸ List.rel_append hemits hv.pending

theorem Volatile.flush {restart : Lsn} (hv : Volatile w i pos start cut t)
    (hrows : t.pending.rows ≠ []) : Volatile w i pos start cut (t.flush restart) := by
  have hmark := le_of_lt (hv.commitMark_lt hrows)
  have hnone : ∀ p ∈ emission i (w.take pos), ¬ t.pending.maxCommitLsn < p.1 := by
    intro p hp hlt
    exact absurd (hv.changes_le p hp (lt_of_le_of_lt hmark hlt)) (not_le.mpr hlt)
  refine ⟨hv.seen, le_trans hv.cutover_le hmark, le_trans hv.dedupe_le hmark,
    .inr (hv.maxCommit_lt_ahead hrows), ?_, ?_, hv.maxCommit_lt⟩
  · have hnil : (emission i (w.take pos)).filter (t.pending.maxCommitLsn < ·.1) = [] :=
      List.filter_eq_nil_iff.mpr fun p hp => by simpa using hnone p hp
    exact hnil ▸ .nil
  · exact fun p hp hlt => absurd hlt (hnone p hp)

end Flush

namespace Sys

variable {w : List WalEvent} {s : Sys}

theorem Inv.flush (hw : Increasing w) (hi : s.Inv w) (hrun : s.running) (ok : AppendOk)
    (now : Instant) (persisted : Lsn) :
    Inv w { s with
      engine := (s.engine.flushAll ok now persisted).1
      running := (s.engine.flushAll ok now persisted).2.2 } := by
  unfold Engine.flushAll
  split
  · exact ⟨hi.durable, fun _ => hi.volatile hrun⟩
  · rename_i hpending
    obtain ⟨start, hr, hv⟩ := hi.volatile hrun
    have hcommit := hr.lastCommit_le hpending
    refine ⟨?_, fun _ => ⟨start, ⟨hr.held, hr.ahead, .inr hcommit⟩, ?_⟩⟩
    · intro i t' ht'
      obtain ⟨t, ht, rfl | ⟨hne, rfl⟩⟩ := flushTables_cases ht'
      · exact hi.durable i t' ht
      · exact (hi.durable i t ht).flush hw (hv i t ht) hne
          (hr.covers_restart hw hcommit (hv i t ht).seen ((hv i t ht).le_maxCommit hne).1
            ((hv i t ht).le_maxCommit hne).2)
    · intro i t' ht'
      obtain ⟨t, ht, rfl | ⟨hne, rfl⟩⟩ := flushTables_cases ht'
      · exact hv i t' ht
      · exact (hv i t ht).flush hne

theorem Inv.event (hw : Increasing w) (hi : s.Inv w) (hrun : s.running) (now : Instant)
    {ev : WalEvent} (hev : w[s.pos]? = some ev) :
    Inv w { s with
      engine := s.engine.applyEffect now ev.lsn ev.effect
      pos := s.pos + 1 } := by
  obtain ⟨start, hr, hv⟩ := hi.volatile hrun
  have ho := held_ordered hw s.pos start
  refine ⟨?_, fun _ => ⟨start, hr.event hw hev now, ?_⟩⟩
  · intro i t' ht'
    obtain ⟨t, ht, hc⟩ := Engine.applyEffect_table hr.held ho now ht'
    exact (hi.durable i t ht).committed hc
  · intro i t' ht'
    obtain ⟨t, ht, hc⟩ := Engine.applyEffect_table hr.held ho now ht'
    exact (hv i t ht).event hw hev hc

end Sys

/-! ## Booting -/

section Boot

variable {w : List WalEvent} {i : Nat} {start : Lsn}

theorem Increasing.takeWhile (hw : Increasing w) (start : Lsn) :
    let n := (w.takeWhile (·.lsn < start)).length
    (∀ ev ∈ w.take n, ev.lsn < start) ∧ ∀ ev ∈ w.drop n, start ≤ ev.lsn := by
  induction w with
  | nil => simp
  | cons ev w ih =>
    obtain ⟨hlt, hw⟩ := List.pairwise_cons.mp hw
    by_cases hev : ev.lsn < start
    · simpa [List.takeWhile_cons, hev] using ih hw
    · have hle := not_lt.mp hev
      simp only [List.takeWhile_cons, hev, decide_false, Bool.false_eq_true, if_false,
        List.length_nil, List.take_zero, List.drop_zero, List.mem_cons, forall_eq_or_imp]
      exact ⟨by simp, hle, fun ev' hmem => le_trans hle (le_of_lt (hlt ev' hmem))⟩

theorem Increasing.since_takeWhile (hw : Increasing w) :
    (Held.ofWal (w.take (w.takeWhile (·.lsn < start)).length)).since start = [] :=
  Held.since_eq_nil (hw.takeWhile start).1

theorem Covers.mono {c r r' : Lsn} (h : Covers w i c r) (hr : r' ≤ r) : Covers w i c r' :=
  fun n ev hn hlt p hp hi => le_trans hr (h n ev hn hlt p hp hi)

/-- Nothing above the commit watermark is in the part of the stream that a new process
skips: the ops of such a commit would be skipped too. -/
theorem Covers.skipped (hw : Increasing w) {c : Lsn} (hcov : Covers w i c start) :
    (emission i (w.take (w.takeWhile (·.lsn < start)).length)).filter (c < ·.1) = [] := by
  rw [List.filter_eq_nil_iff]
  intro p hp
  obtain ⟨n, ev, hn, hlt, hvis⟩ := exists_of_mem_emission_take hp
  have hev : ev.lsn < start := (hw.takeWhile start).1 ev <| by
    rw [← List.getElem?_take_of_lt hlt] at hn
    exact List.mem_of_getElem? hn
  obtain ⟨q, hq, rfl⟩ := List.mem_map.mp hvis
  obtain ⟨hq, hi⟩ := List.mem_filter.mp hq
  simp only [decide_eq_true_eq, not_lt] at hi ⊢
  by_contra hgt
  have hstart := hcov n ev hn (not_le.mp hgt) q hq hi
  obtain ⟨x, hx⟩ := Held.mem_of_mem_committedBy hq
  have hmem : ev ∈ w.drop n := by simp [drop_of_getElem? hn]
  have hbefore := hw.held_lt hx hmem
  exact absurd (lt_trans hbefore hev) (not_lt.mpr hstart)

/-- A table that starts streaming at or before its restart position. -/
theorem Volatile.boot (hw : Increasing w) {cut : Lsn} {t : Table} (hpending : t.pending = .empty)
    (hmark : t.commitMark cut = t.dedupeBelow) (hcut : cut ≤ t.dedupeBelow)
    (hcov : Covers w i t.dedupeBelow start) :
    Volatile w i (w.takeWhile (·.lsn < start)).length start cut t := by
  have hskip := hcov.skipped hw
  refine ⟨hcov, hmark ▸ hcut, le_of_eq hmark.symm, .inl hmark, ?_, ?_, .inl ?_⟩
  · rw [hmark, hskip, hpending]
    exact .nil
  · intro p hp hlt
    rw [hmark] at hlt
    have : p ∈ (emission i (w.take (w.takeWhile (·.lsn < start)).length)).filter
        (t.dedupeBelow < ·.1) := List.mem_filter.mpr ⟨hp, by simpa using hlt⟩
    simp [hskip] at this
  · rw [hpending]
    rfl

theorem expected_self (w : List WalEvent) (i : Nat) (c : Lsn) : expected w i c c = [] :=
  List.filter_eq_nil_iff.mpr fun p _ => by simp

theorem Table.Reopens.table {t t' : Table} (h : t.Reopens t') :
    t'.sink.table = t.sink.table ∧ t'.desc = t.desc ∧ t'.pending = .empty ∧
      (t'.sink.schemaAddedColumns && t'.desc.hasFastDefaults) = false := by
  obtain ⟨sink, hopen, hcols, rfl⟩ := h
  exact ⟨DeltaSink.openOrCreate_table hopen, rfl, rfl, hcols⟩

end Boot

namespace Sys

variable {dec : TupleDecoder} {env : PgEnv} {cfg : Config} {now : Instant}
  {oraclePreimages : Bool} {opened booted : List Table} {cands : List Lsn} {ok : Bool}
  {w : List WalEvent} {s : Sys} {i : Nat} {t' : Table}

/-- What a boot makes of a table that has watermarks, and of one that has none. -/
inductive Booted (s : Sys) (opened booted : List Table) (cands : List Lsn) (ok : Bool) (i : Nat)
    (t t' : Table) : Prop where
  | resumed (c r : Lsn) :
    t.sink.resumeState = ⟨some c, some r, some t.desc.relNode⟩ →
    t'.sink.table = t.sink.table →
    (∀ e run pos, (s.startedAt opened booted e run pos).cutover i = s.cutover i) →
    (∀ e run pos, (s.startedAt opened booted e run pos).base i = s.base i) →
    (ok = true → t'.dedupeBelow = c ∧ r ∈ cands) →
    Booted s opened booted cands ok i t t'
  | snapshotted :
    (t'.sink.resumeState = ⟨none, none, none⟩ ∧ t'.sink.log = [] ∨ t'.sink.resumeState =
      ⟨some t'.dedupeBelow, some t'.dedupeBelow, some t'.desc.relNode⟩) →
    (∀ e ∈ t'.sink.log, e.lsn = t'.dedupeBelow) →
    (∀ e run pos, (s.startedAt opened booted e run pos).cutover i = t'.dedupeBelow) →
    (∀ e run pos, (s.startedAt opened booted e run pos).base i = t'.sink.log) →
    (ok = true → t'.dedupeBelow ∈ cands) →
    Booted s opened booted cands ok i t t'

theorem Inv.boot_table (hi : s.Inv w) (hsnap : cfg.snapshot = true)
    (hopen : List.Forall₂ Table.Reopens s.engine.tables opened)
    (hres : resumeTables dec env cfg now oraclePreimages 0 opened = (booted, cands, ok))
    (ht' : booted[i]? = some t') :
    ∃ t, s.engine.tables[i]? = some t ∧ t'.desc = t.desc ∧ t'.pending = .empty ∧
      Booted s opened booted cands ok i t t' := by
  obtain ⟨u, hu, hcase⟩ : ∃ u, opened[i]? = some u ∧
      (t' = u ∨ t' = (u.resume dec env cfg now oraclePreimages i).1) := by
    have := resumeTables_cases (by rw [hres]; exact ht')
    simpa using this
  have hok : ok = true → t' = (u.resume dec env cfg now oraclePreimages i).1 ∧
      (u.resume dec env cfg now oraclePreimages i).2.2 = true ∧
      ∀ r ∈ (u.resume dec env cfg now oraclePreimages i).2.1, r ∈ cands := by
    rintro rfl
    obtain ⟨hget, htrue, hcand⟩ := resumeTables_ok hres hu
    simp only [Nat.zero_add] at hget htrue hcand
    exact ⟨Option.some.inj (ht'.symm.trans hget), htrue, hcand⟩
  obtain ⟨t, ht, hreopen⟩ : ∃ t, s.engine.tables[i]? = some t ∧ t.Reopens u := by
    obtain ⟨hlt, heq⟩ := List.getElem?_eq_some_iff.mp hu
    have hlt' : i < s.engine.tables.length := hopen.length_eq ▸ hlt
    refine ⟨s.engine.tables[i], List.getElem?_eq_getElem hlt', ?_⟩
    exact heq ▸ hopen.get hlt' hlt
  obtain ⟨htable, hdesc, hpending, hcols⟩ := hreopen.table
  have hstate : u.sink.resumeState = t.sink.resumeState := by
    simp [DeltaSink.resumeState, htable]
  refine ⟨t, ht, ?_⟩
  rcases (hi.durable i t ht).watermarks with ⟨hfresh, hempty⟩ | ⟨c, r, hmarks, -, -⟩
  · rw [hfresh] at hstate
    have hlog : u.sink.log = [] := by simpa [DeltaSink.log, htable] using hempty
    have hspec := Table.resume_of_fresh dec env cfg now oraclePreimages hstate hsnap i
    have hcut : ∀ e run pos, (s.startedAt opened booted e run pos).cutover i = t'.dedupeBelow := by
      intro e run pos
      simp [startedAt, hu, ht', hstate]
    have hbase : ∀ e run pos, (s.startedAt opened booted e run pos).base i = t'.sink.log := by
      intro e run pos
      simp [startedAt, hu, ht', hstate]
    rcases hcase with rfl | rfl
    · refine ⟨hdesc, hpending, .snapshotted (.inl ⟨hstate, hlog⟩) (by simp [hlog]) hcut hbase
        fun htrue => ?_⟩
      obtain ⟨heq, hrok, hcand⟩ := hok htrue
      exact heq ▸ hcand _ (hspec.2.2.2 hrok)
    · refine ⟨hspec.1.trans hdesc, hspec.2.1.trans hpending, .snapshotted ?_ ?_ hcut hbase ?_⟩
      · rcases hspec.2.2.1 with hsame | ⟨hnew, -⟩
        · exact .inl (by rw [hsame]; exact ⟨hstate, hlog⟩)
        · exact .inr (by rw [hnew, hspec.1])
      · rcases hspec.2.2.1 with hsame | ⟨-, rows, hrows, hlsn⟩
        · simp [hsame, hlog]
        · rw [hrows, hlog]
          exact hlsn
      · intro htrue
        obtain ⟨-, hrok, hcand⟩ := hok htrue
        exact hcand _ (hspec.2.2.2 hrok)
  · rw [hmarks] at hstate
    rw [← hdesc] at hstate
    have hspec := Table.resume_of_watermarks dec env cfg now oraclePreimages hstate hcols i
    have hcut : ∀ e run pos, (s.startedAt opened booted e run pos).cutover i = s.cutover i := by
      intro e run pos
      simp [startedAt, hu, ht', hstate]
    have hbase : ∀ e run pos, (s.startedAt opened booted e run pos).base i = s.base i := by
      intro e run pos
      simp [startedAt, hu, ht', hstate]
    rcases hcase with rfl | rfl
    · refine ⟨hdesc, hpending, .resumed c r hmarks htable hcut hbase fun htrue => ?_⟩
      obtain ⟨heq, hrok, hcand⟩ := hok htrue
      obtain ⟨hded, hcandr⟩ := hspec.2.2.2 hrok
      exact ⟨heq ▸ hded, hcand r hcandr⟩
    · refine ⟨hspec.2.1.trans hdesc, hspec.2.2.1.trans hpending,
        .resumed c r hmarks (by rw [hspec.1, htable]) hcut hbase fun htrue => ?_⟩
      obtain ⟨-, hrok, hcand⟩ := hok htrue
      obtain ⟨hded, hcandr⟩ := hspec.2.2.2 hrok
      exact ⟨hded, hcand r hcandr⟩

/-- A boot keeps the durable half. -/
theorem Booted.durable {e : Engine} {run : Bool} {pos : Nat} {t : Table}
    (hb : Booted s opened booted cands ok i t t') (hdesc : t'.desc = t.desc)
    (hd : Durable w i (s.cutover i) (s.base i) t)
    (hns : Covers w i ((s.startedAt opened booted e run pos).cutover i)
      ((s.startedAt opened booted e run pos).cutover i)) :
    Durable w i ((s.startedAt opened booted e run pos).cutover i)
      ((s.startedAt opened booted e run pos).base i) t' := by
  cases hb with
  | resumed c r hmarks htable hcut hbase hok =>
    have hstate : t'.sink.resumeState = t.sink.resumeState := by
      simp [DeltaSink.resumeState, htable]
    have hlog : t'.sink.log = t.sink.log := by simp [DeltaSink.log, htable]
    have hmark : t'.commitMark (s.cutover i) = t.commitMark (s.cutover i) := by
      simp [Table.commitMark, hstate]
    rw [hcut, hbase]
    exact ⟨by rw [hstate, hlog, hdesc]; exact hd.watermarks, hd.base_lsn,
      by rw [hlog, hmark]; exact hd.log⟩
  | snapshotted hmarks hlsn hcut hbase hok =>
    rw [hcut] at hns ⊢
    rw [hbase]
    have hmark : t'.commitMark t'.dedupeBelow = t'.dedupeBelow := by
      rcases hmarks with ⟨hmarks, -⟩ | hmarks <;> simp [Table.commitMark, hmarks]
    refine ⟨hmarks.imp_right fun h => ⟨_, _, h, le_rfl, hns⟩, hlsn, [], by simp, ?_⟩
    rw [hmark, expected_self]
    exact .nil

/-- A process that streams from the minimum of the restart candidates, or from before it,
establishes the volatile half. -/
theorem Booted.volatile (hw : Increasing w) {e : Engine} {run : Bool} {pos : Nat} {t : Table}
    {start : Lsn} (hb : Booted s opened booted cands true i t t')
    (hpending : t'.pending = .empty) (hd : Durable w i (s.cutover i) (s.base i) t)
    (hns : Covers w i ((s.startedAt opened booted e run pos).cutover i)
      ((s.startedAt opened booted e run pos).cutover i))
    (hstart : ∀ r ∈ cands, start ≤ r) :
    Volatile w i (w.takeWhile (·.lsn < start)).length start
      ((s.startedAt opened booted e run pos).cutover i) t' := by
  cases hb with
  | resumed c r hmarks htable hcut hbase hok =>
    obtain ⟨rfl, hr⟩ := hok rfl
    have hmark : t'.commitMark (s.cutover i) = t'.dedupeBelow := by
      simp only [Table.commitMark, DeltaSink.resumeState, htable]
      simp only [DeltaSink.resumeState] at hmarks
      simp [hmarks]
    rw [hcut]
    rcases hd.watermarks with ⟨hfresh, -⟩ | ⟨c', r', hmarks', hle, hcov⟩
    · simp [hfresh] at hmarks
    · simp only [hmarks, ResumeState.mk.injEq, Option.some.injEq] at hmarks'
      obtain ⟨rfl, rfl, -⟩ := hmarks'
      exact Volatile.boot hw hpending hmark hle (hcov.mono (hstart r hr))
  | snapshotted hmarks hlsn hcut hbase hok =>
    rw [hcut] at hns ⊢
    have hmark : t'.commitMark t'.dedupeBelow = t'.dedupeBelow := by
      rcases hmarks with ⟨hmarks, -⟩ | hmarks <;> simp [Table.commitMark, hmarks]
    exact Volatile.boot hw hpending hmark le_rfl (hns.mono (hstart _ (hok rfl)))

theorem Inv.boot (hw : Increasing w) (hi : s.Inv w) {oracle : Option Oracle}
    {resumeFrom start : Lsn} {engine : Engine} (hsnap : cfg.snapshot = true)
    (hopen : List.Forall₂ Table.Reopens s.engine.tables opened)
    (hres : resumeTables dec env cfg now oracle.isSome 0 opened = (booted, cands, true))
    (hmin : cands.min? = some resumeFrom)
    (hbuild : buildEngine env cfg booted resumeFrom oracle = some engine)
    (hstart : start ≤ resumeFrom)
    (hns : NoStraddle w (s.startedAt opened booted engine true
      (w.takeWhile (·.lsn < start)).length) booted) :
    Inv w (s.startedAt opened booted engine true (w.takeWhile (·.lsn < start)).length) := by
  obtain ⟨htables, htxbuf, -⟩ := buildEngine_some hbuild
  have hcands : ∀ r ∈ cands, start ≤ r := fun r hr =>
    le_trans hstart ((List.min?_eq_some_iff.mp hmin).2 r hr)
  have hlen : ∀ {i t'}, booted[i]? = some t' → i < booted.length := fun h =>
    (List.getElem?_eq_some_iff.mp h).1
  refine ⟨?_, fun _ => ⟨start, ⟨?_, (hw.takeWhile start).2, .inl ?_⟩, ?_⟩⟩
  · intro i t' ht'
    change engine.tables[i]? = some t' at ht'
    rw [htables] at ht'
    obtain ⟨t, ht, hdesc, -, hb⟩ := hi.boot_table hsnap hopen hres ht'
    exact hb.durable hdesc (hi.durable i t ht) (hns i (hlen ht'))
  · change engine.txbuf.Refines
      ((Held.ofWal (w.take (w.takeWhile (·.lsn < start)).length)).since start)
    rw [htxbuf, hw.since_takeWhile]
    exact .empty
  · intro t' ht'
    change t' ∈ engine.tables at ht'
    rw [htables] at ht'
    obtain ⟨i, ht'⟩ := List.getElem?_of_mem ht'
    obtain ⟨t, -, -, hpending, -⟩ := hi.boot_table hsnap hopen hres ht'
    rw [hpending]
    rfl
  · intro i t' ht'
    change engine.tables[i]? = some t' at ht'
    rw [htables] at ht'
    obtain ⟨t, ht, -, hpending, hb⟩ := hi.boot_table hsnap hopen hres ht'
    exact hb.volatile hw hpending (hi.durable i t ht) (hns i (hlen ht')) hcands

theorem Inv.step (hw : Increasing w) {s' : Sys} (hi : s.Inv w) (h : Step dec w s s') :
    s'.Inv w := by
  cases h with
  | event now ev hrun hev => exact hi.event hw hrun now hev
  | flush ok now persisted hrun => exact hi.flush hw hrun ok now persisted
  | boot env cfg now oracle opened booted cands resumeFrom start engine hsnap hopen hres hmin
      hbuild hstart hns =>
    exact hi.boot hw hsnap hopen hres hmin hbuild hstart hns
  | failedBoot env cfg now oraclePreimages opened booted cands ok hsnap hopen hres hns =>
    refine ⟨?_, fun h => absurd h (by simp [startedAt])⟩
    intro i t' ht'
    change booted[i]? = some t' at ht'
    obtain ⟨t, ht, hdesc, -, hb⟩ := hi.boot_table hsnap hopen hres ht'
    exact hb.durable hdesc (hi.durable i t ht) (hns i (List.getElem?_eq_some_iff.mp ht').1)

theorem Initial.inv (h : s.Initial) : s.Inv w := by
  refine ⟨?_, fun hrun => absurd hrun (by simp [h.1])⟩
  intro i t ht
  obtain ⟨hmarks, hlog⟩ := h.2.2 t (List.mem_of_getElem? ht)
  refine ⟨.inl ⟨hmarks, hlog⟩, by simp [h.2.1], [], by simp [hlog, h.2.1], ?_⟩
  simp only [Table.commitMark, hmarks, Option.getD_none, expected_self]
  exact .nil

theorem inv_of_run (hw : Increasing w) {s₀ : Sys} (h₀ : s₀.Initial)
    (hrun : Relation.ReflTransGen (Step dec w) s₀ s) : s.Inv w := by
  induction hrun with
  | refl => exact h₀.inv
  | tail _ hstep ih => exact ih.step hw hstep

/-- Exactly-once delivery: in every state of every run, the change log of a table is its
starting snapshot followed by one row for each op of the transactions that committed above
its cutover and not above its commit watermark, in commit order and then in WAL order. -/
theorem log_exactly_once (hw : Increasing w) {s₀ : Sys} (h₀ : s₀.Initial)
    (hrun : Relation.ReflTransGen (Step dec w) s₀ s) {t : Table}
    (ht : s.engine.tables[i]? = some t) :
    (∀ e ∈ s.base i, e.lsn = s.cutover i) ∧
      ∃ emitted, t.sink.log = s.base i ++ emitted ∧
        List.Forall₂ Emits (expected w i (s.cutover i) (t.commitMark (s.cutover i))) emitted := by
  have hd := (inv_of_run hw h₀ hrun).durable i t ht
  exact ⟨hd.base_lsn, hd.log⟩

/-- One transaction inserts one row. -/
def insertWal : List WalEvent :=
  [⟨10, .ops 7 0 [.insert (0, 1) ⟨[some (.i32 1)], none⟩]⟩, ⟨20, .commit 7 []⟩]

/-- A new installation with one table. -/
def installed : Sys where
  engine := Sample.engine [Sample.desc "t" 16384]
  running := false
  pos := 0
  cutover _ := 0
  base _ := []

/-- The table after the flush. -/
def flushedSink : DeltaSink :=
  { Sample.sink (Sample.desc "t" 16384) with
    table :=
      { cols := [⟨"id", .int4⟩]
        files := [⟨[⟨⟨"id", .int4⟩, some 0⟩], [⟨20, 1, false, (0, 1), [some (.i32 1)]⟩]⟩]
        watermarks := ⟨some 20, some 20, some 16384⟩ } }

/-- The process boots, handles the insert and its commit, and flushes. It dies, boots again from
the beginning, and is sent both records again. -/
theorem log_exactly_once_insert :
    ∃ s t, Relation.ReflTransGen (Step .reject insertWal) installed s ∧
      s.pos = 2 ∧ s.engine.tables[0]? = some t ∧ t.sink.log.length = 1 ∧
      (∀ e ∈ s.base 0, e.lsn = s.cutover 0) ∧
      ∃ emitted, t.sink.log = s.base 0 ++ emitted ∧
        List.Forall₂ Emits (expected insertWal 0 (s.cutover 0) (t.commitMark (s.cutover 0)))
          emitted := by
  have hcov : ∀ i < 1, Covers insertWal i 5 5 := by
    intro i _ n ev hn _ p hp _
    obtain ⟨x, hx⟩ := Held.mem_of_mem_committedBy hp
    obtain ⟨ev', hmem, heq⟩ := Held.lsn_mem_of_mem_ofWal hx
    have hmem := List.mem_of_mem_take hmem
    have : ∀ ev ∈ insertWal, 5 ≤ ev.lsn := by decide
    exact heq ▸ this ev' hmem
  have hinit : installed.Initial := by
    refine ⟨rfl, fun _ => rfl, ?_⟩
    intro t ht
    obtain rfl := List.mem_singleton.mp ht
    exact ⟨rfl, rfl⟩
  have hboot : Step .reject insertWal installed _ :=
    .boot (Sample.env [Sample.desc "t" 16384] 5) Sample.cfg 0 none _ _ _ 5 5 _ rfl
      (.cons ⟨_, rfl, rfl, rfl⟩ .nil) rfl rfl rfl le_rfl (fun i hi => by
        obtain rfl : i = 0 := by simpa using hi
        exact hcov 0 hi)
  have hflushed := (((Relation.ReflTransGen.refl.tail hboot).tail (.event 0 _ rfl rfl)).tail
    (.event 0 _ rfl rfl)).tail (.flush (fun _ _ => true) 0 5 rfl)
  obtain ⟨s₁, t₁, hrun₁, htables, hdesc, hsink, hcutover⟩ :
      ∃ s₁ t₁, Relation.ReflTransGen (Step .reject insertWal) installed s₁ ∧ s₁.engine.tables = [t₁] ∧
        t₁.desc = Sample.desc "t" 16384 ∧ t₁.sink = flushedSink ∧ s₁.cutover 0 = 5 :=
    ⟨_, _, hflushed, rfl, rfl, rfl, rfl⟩
  have hreopens : List.Forall₂ Table.Reopens s₁.engine.tables
      [Table.opened (Sample.desc "t" 16384) flushedSink] := by
    rw [htables]
    exact .cons ⟨flushedSink, by rw [hsink, hdesc]; rfl, by rw [hdesc]; rfl, by rw [hdesc]⟩ .nil
  have hreboot : Step .reject insertWal s₁ _ :=
    .boot (Sample.env [Sample.desc "t" 16384] 5) Sample.cfg 0 none _ _ _ 20 5 _ rfl hreopens rfl rfl rfl
      (by decide) (fun i hi => by
        obtain rfl : i = 0 := by simpa using hi
        have hkept : Covers insertWal 0 (s₁.cutover 0) (s₁.cutover 0) := hcutover ▸ hcov 0 hi
        exact hkept)
  have hrun := ((hrun₁.tail hreboot).tail (.event 0 _ rfl rfl)).tail (.event 0 _ rfl rfl)
  exact ⟨_, _, hrun, rfl, rfl, rfl, log_exactly_once (by decide) hinit hrun rfl⟩

end Sys

end Ltap
