-- SUMMARY: The ops of open transactions as one list in WAL order, and `TxBuffer` as its refinement.
import OpenLtap.Base.StableSort
import OpenLtap.Engine.Record

/-!
# Held ops

What the transaction buffer is for, without its hash map: the ops of all open
transactions, each tagged with its transaction, in the order of the WAL. A commit
takes out the ops of its transactions, and nothing has to be sorted. `Refines`
connects a `TxBuffer` to such a list. The results are that `commit` hands out the
taken ops in WAL order, and that `oldestFirstLsn` is the position of the first held
op.
-/

namespace Ltap

/-- A record of the stream as the engine sees it: its position and its effect. -/
structure WalEvent where
  lsn : Lsn
  effect : Effect
  deriving DecidableEq, Repr

/-- Positions grow along the stream. -/
def Increasing (w : List WalEvent) : Prop := w.Pairwise (·.lsn < ·.lsn)

instance (w : List WalEvent) : Decidable (Increasing w) :=
  inferInstanceAs (Decidable (w.Pairwise _))

/-- Ops of open transactions, tagged with their transaction, in WAL order. -/
abbrev Held := List (Xid × PendingOp)

namespace Held

/-- The ops of one transaction. -/
def ofXid (x : Xid) (h : Held) : List PendingOp := (h.filter (·.1 = x)).map (·.2)

/-- The ops of a transaction and its subtransactions. -/
def taken (xs : List Xid) (h : Held) : List PendingOp := (h.filter (·.1 ∈ xs)).map (·.2)

/-- What stays open. -/
def rest (xs : List Xid) (h : Held) : Held := h.filter (·.1 ∉ xs)

/-- The ops of one record. -/
def recordOps (xid : Xid) (lsn : Lsn) (table : Nat) (ops : List Op) : Held :=
  ops.map fun op => (xid, { lsn, table, op })

def step (h : Held) (ev : WalEvent) : Held :=
  match ev.effect with
  | .ops xid table ops => h ++ recordOps xid ev.lsn table ops
  | .commit xid subxids | .abort xid subxids => h.rest (xid :: subxids)
  | _ => h

/-- What is open after a stream. -/
def ofWal (w : List WalEvent) : Held := w.foldl step []

@[simp] theorem ofWal_nil : ofWal [] = [] := rfl

@[simp] theorem ofWal_concat (w : List WalEvent) (ev : WalEvent) :
    ofWal (w ++ [ev]) = (ofWal w).step ev := by
  simp [ofWal]

/-! ## Order -/

/-- Sorted by position; ops of one record belong to one transaction. -/
def Ordered (h : Held) : Prop :=
  h.Pairwise fun p q => p.2.lsn < q.2.lsn ∨ (p.2.lsn = q.2.lsn ∧ p.1 = q.1)

theorem Ordered.filter {h : Held} (ho : h.Ordered) (f : Xid × PendingOp → Bool) :
    Ordered (h.filter f) :=
  List.Pairwise.sublist List.filter_sublist ho

theorem Ordered.xid_eq {h : Held} (ho : h.Ordered) {p q : Xid × PendingOp} (hp : p ∈ h)
    (hq : q ∈ h) (hlsn : p.2.lsn = q.2.lsn) : p.1 = q.1 := by
  have hpair : h.Pairwise fun p q => p.2.lsn = q.2.lsn → p.1 = q.1 := by
    refine List.Pairwise.imp ?_ ho
    rintro p q (hlt | ⟨-, heq⟩) hlsn
    · exact absurd hlsn (ne_of_lt hlt)
    · exact heq
  have : Std.Symm fun p q : Xid × PendingOp => p.2.lsn = q.2.lsn → p.1 = q.1 :=
    ⟨fun _ _ hpq hqp => (hpq hqp.symm).symm⟩
  exact hpair.forall_of_forall (fun _ _ _ => rfl) hp hq hlsn

theorem Ordered.taken_sorted {h : Held} (ho : h.Ordered) (xs : List Xid) :
    (h.taken xs).Pairwise (·.lsn ≤ ·.lsn) := by
  rw [taken, List.pairwise_map]
  refine List.Pairwise.imp ?_ (ho.filter _)
  rintro p q (hlt | ⟨heq, -⟩)
  · exact le_of_lt hlt
  · exact le_of_eq heq

/-- The first held op is the oldest one. -/
theorem Ordered.head_le {p q : Xid × PendingOp} {h : Held} (ho : Ordered (p :: h))
    (hq : q ∈ p :: h) : p.2.lsn ≤ q.2.lsn := by
  rcases List.mem_cons.mp hq with rfl | hq
  · exact le_rfl
  · rcases (List.pairwise_cons.mp ho).1 q hq with hlt | ⟨heq, -⟩
    · exact le_of_lt hlt
    · exact le_of_eq heq

theorem mem_step {h : Held} {ev : WalEvent} {p : Xid × PendingOp} (hp : p ∈ h.step ev) :
    p ∈ h ∨ p.2.lsn = ev.lsn := by
  unfold step at hp
  split at hp
  · rcases List.mem_append.mp hp with hp | hp
    · exact .inl hp
    · obtain ⟨op, -, rfl⟩ := List.mem_map.mp hp
      exact .inr rfl
  · exact .inl (List.mem_of_mem_filter hp)
  · exact .inl (List.mem_of_mem_filter hp)
  · exact .inl hp

theorem Ordered.step {h : Held} (ho : h.Ordered) {ev : WalEvent}
    (hlt : ∀ p ∈ h, p.2.lsn < ev.lsn) : Ordered (h.step ev) := by
  unfold Held.step
  split
  · refine List.pairwise_append.mpr ⟨ho, ?_, ?_⟩
    · rw [recordOps, List.pairwise_map]
      exact List.pairwise_of_forall fun _ _ => .inr ⟨rfl, rfl⟩
    · intro p hp q hq
      obtain ⟨op, -, rfl⟩ := List.mem_map.mp hq
      exact .inl (hlt p hp)
  · exact ho.filter _
  · exact ho.filter _
  · exact ho

/-- Held ops come from records of the stream. -/
theorem lsn_mem_of_mem_ofWal {w : List WalEvent} {p : Xid × PendingOp} (hp : p ∈ ofWal w) :
    ∃ ev ∈ w, ev.lsn = p.2.lsn := by
  induction w using List.reverseRecOn with
  | nil => simp at hp
  | append_singleton w ev ih =>
    rw [ofWal_concat] at hp
    rcases mem_step hp with hp | hp
    · obtain ⟨ev', hmem, heq⟩ := ih hp
      exact ⟨ev', by simp [hmem], heq⟩
    · exact ⟨ev, by simp, hp.symm⟩

/-- What is held later was held before, or was logged in between. -/
theorem mem_take_cases {w : List WalEvent} {m n : Nat} (hmn : m ≤ n) {p : Xid × PendingOp}
    (hp : p ∈ ofWal (w.take n)) :
    p ∈ ofWal (w.take m) ∨ ∃ ev ∈ w.drop m, ev.lsn = p.2.lsn := by
  induction n, hmn using Nat.le_induction with
  | base => exact .inl hp
  | succ n hmn ih =>
    rw [List.take_add_one] at hp
    cases hn : w[n]? with
    | none => exact ih (by simpa [hn] using hp)
    | some ev =>
      rw [hn, Option.toList_some, ofWal_concat] at hp
      rcases mem_step hp with hp | hp
      · exact ih hp
      · refine .inr ⟨ev, List.mem_of_getElem? (i := n - m) ?_, hp.symm⟩
        rw [List.getElem?_drop, Nat.add_sub_cancel' hmn]
        exact hn

theorem ofWal_ordered {w : List WalEvent} (hw : Increasing w) : Ordered (ofWal w) := by
  induction w using List.reverseRecOn with
  | nil => simp [Ordered]
  | append_singleton w ev ih =>
    obtain ⟨hw, -, hlt⟩ := List.pairwise_append.mp hw
    rw [ofWal_concat]
    refine (ih hw).step fun p hp => ?_
    obtain ⟨ev', hmem, heq⟩ := lsn_mem_of_mem_ofWal hp
    exact heq ▸ hlt ev' hmem ev (by simp)

/-! ## Reading from a later position -/

/-- What a process holds that read the stream from `start` on. -/
def since (start : Lsn) (h : Held) : Held := h.filter (start ≤ ·.2.lsn)

theorem mem_since {start : Lsn} {h : Held} {p : Xid × PendingOp} :
    p ∈ h.since start ↔ p ∈ h ∧ start ≤ p.2.lsn := by
  simp [since]

/-- Nothing is held from `start` on by a stream that ends before it. -/
theorem since_eq_nil {w : List WalEvent} {start : Lsn} (h : ∀ ev ∈ w, ev.lsn < start) :
    (ofWal w).since start = [] := by
  refine List.eq_nil_iff_forall_not_mem.mpr fun p hp => ?_
  obtain ⟨hp, hle⟩ := mem_since.mp hp
  obtain ⟨ev, hmem, heq⟩ := lsn_mem_of_mem_ofWal hp
  exact absurd (h ev hmem) (not_lt.mpr (heq ▸ hle))

/-- A record at or after `start` acts on the later view as it does on the whole. -/
theorem since_step {start : Lsn} (h : Held) {ev : WalEvent} (hstart : start ≤ ev.lsn) :
    (h.step ev).since start = (h.since start).step ev := by
  unfold step
  split
  · simp only [since, List.filter_append, recordOps, List.append_cancel_left_eq]
    exact List.filter_eq_self.mpr (by simp [hstart])
  · simp only [since, rest, List.filter_filter, Bool.and_comm]
  · simp only [since, rest, List.filter_filter, Bool.and_comm]
  · rfl

end Held

/-! ## The buffer -/

/-- The buffer entry of a transaction with these ops. -/
def OpenTx.ofOps : List PendingOp → Option OpenTx
  | [] => none
  | p :: ps => some {
      firstLsn := p.lsn
      ops := p :: ps
      overlay := (p :: ps).foldl (fun o p => TxBuffer.overlayOp p.table o p.op) ∅ }

theorem OpenTx.ofOps_concat (ps : List PendingOp) (p : PendingOp) :
    OpenTx.ofOps (ps ++ [p]) =
      (let tx := (OpenTx.ofOps ps).getD { firstLsn := p.lsn, ops := [], overlay := ∅ }
       some { tx with
         overlay := TxBuffer.overlayOp p.table tx.overlay p.op
         ops := tx.ops ++ [p] }) := by
  cases ps with
  | nil => rfl
  | cons q qs => simp [OpenTx.ofOps]

/-- The buffer holds, per transaction, what the list holds. -/
def TxBuffer.Refines (b : TxBuffer) (h : Held) : Prop :=
  ∀ x, b.openTxs.lookup x = OpenTx.ofOps (h.ofXid x)

namespace TxBuffer.Refines

variable {b : TxBuffer} {h : Held}

theorem empty : TxBuffer.Refines .empty [] := fun _ => rfl

theorem opsOf (hb : b.Refines h) (x : Xid) : b.opsOf x = h.ofXid x := by
  unfold TxBuffer.opsOf
  rw [hb x]
  cases h.ofXid x <;> rfl

theorem addOp (hb : b.Refines h) (xid : Xid) (lsn : Lsn) (table : Nat) (op : Op) :
    (b.addOp xid lsn table op).Refines (h ++ [(xid, ⟨lsn, table, op⟩)]) := by
  intro x
  by_cases hx : x = xid
  · subst hx
    have hops : Held.ofXid x (h ++ [(x, ⟨lsn, table, op⟩)]) =
        h.ofXid x ++ [⟨lsn, table, op⟩] := by
      simp [Held.ofXid]
    rw [hops, OpenTx.ofOps_concat, ← hb x]
    simp [TxBuffer.addOp]
  · have hops : Held.ofXid x (h ++ [(xid, ⟨lsn, table, op⟩)]) = h.ofXid x := by
      simp [Held.ofXid, Ne.symm hx]
    rw [hops, ← hb x]
    simp [TxBuffer.addOp, hx]

theorem addOps (hb : b.Refines h) (xid : Xid) (lsn : Lsn) (table : Nat) (ops : List Op) :
    (Engine.addOps b xid lsn table ops).Refines (h ++ Held.recordOps xid lsn table ops) := by
  induction ops generalizing b h with
  | nil => simpa [Engine.addOps, Held.recordOps] using hb
  | cons op ops ih =>
    have := ih (addOp hb xid lsn table op)
    simpa [Engine.addOps, Held.recordOps] using this

theorem remove (hb : b.Refines h) (xid : Xid) : (b.remove xid).Refines (h.rest [xid]) := by
  intro x
  by_cases hx : x = xid
  · subst hx
    have hops : (h.rest [x]).ofXid x = [] := by
      simp [Held.ofXid, Held.rest, List.filter_filter]
    rw [hops]
    exact AList.lookup_erase _ _
  · have hops : (h.rest [xid]).ofXid x = h.ofXid x := by
      simp only [Held.ofXid, Held.rest, List.filter_filter]
      congr 1
      refine List.filter_congr fun p _ => ?_
      by_cases hp : p.1 = x
      · simp [hp, hx]
      · simp [hp]
    rw [hops, ← hb x]
    exact AList.lookup_erase_ne hx

/-- Draining removes every listed transaction. -/
theorem drain (hb : b.Refines h) (xs : List Xid) : (b.drain xs).2.Refines (h.rest xs) := by
  induction xs generalizing b h with
  | nil => simpa [TxBuffer.drain, Held.rest] using hb
  | cons x xs ih =>
    have := ih (hb.remove x)
    simpa [TxBuffer.drain, Held.rest, List.filter_filter, Bool.and_comm] using this

/-- Of the ops at one position, draining hands out those of the listed transactions.
All ops at one position belong to one transaction, so their order does not depend on
the order of the list. -/
theorem drain_filter (hb : b.Refines h) (ho : h.Ordered) (xs : List Xid) (k : Lsn) :
    (b.drain xs).1.filter (·.lsn = k) = (h.taken xs).filter (·.lsn = k) := by
  induction xs generalizing b h with
  | nil => simp [TxBuffer.drain, Held.taken]
  | cons x xs ih =>
    have ih := ih (hb.remove x) (ho.filter _)
    simp only [TxBuffer.drain, List.filter_append, ih, hb.opsOf]
    simp only [Held.ofXid, Held.taken, Held.rest, List.filter_map, List.filter_filter,
      ← List.map_append]
    congr 1
    by_cases hx : ∃ p ∈ h, p.2.lsn = k ∧ p.1 = x
    · obtain ⟨p, hp, rfl, rfl⟩ := hx
      have hsame : ∀ q ∈ h, q.2.lsn = p.2.lsn → q.1 = p.1 := fun q hq => ho.xid_eq hq hp
      have hnil : h.filter (fun q => decide (q.2.lsn = p.2.lsn) && (decide (q.1 ∈ xs) &&
          decide (q.1 ∉ [p.1]))) = [] := by
        rw [List.filter_eq_nil_iff]
        intro q hq
        simp only [Bool.and_eq_true, decide_eq_true_eq, not_and]
        intro hk _
        simp [hsame q hq hk]
      simp only [Function.comp_def, hnil, List.append_nil]
      refine List.filter_congr fun q hq => ?_
      by_cases hk : q.2.lsn = p.2.lsn
      · simp [hk, hsame q hq hk]
      · simp [hk]
    · simp only [not_exists, not_and] at hx
      have hnil : h.filter (fun q => decide (q.2.lsn = k) && decide (q.1 = x)) = [] := by
        rw [List.filter_eq_nil_iff]
        intro q hq
        simp only [Bool.and_eq_true, decide_eq_true_eq, not_and]
        exact hx q hq
      simp only [Function.comp_def, hnil, List.nil_append]
      refine List.filter_congr fun q hq => ?_
      by_cases hk : q.2.lsn = k
      · simp [hk, hx q hq hk]
      · simp [hk]

/-- A commit hands out the ops of its transactions in WAL order. -/
theorem commit (hb : b.Refines h) (ho : h.Ordered) (xid : Xid) (subxids : List Xid) :
    (b.commit xid subxids).1 = h.taken (xid :: subxids) := by
  refine StableSort.insertionSort_eq PendingOp.lsn (ho.taken_sorted _) fun k => ?_
  exact (hb.drain_filter ho (xid :: subxids) k).symm

theorem commit_rest (hb : b.Refines h) (xid : Xid) (subxids : List Xid) :
    (b.commit xid subxids).2.Refines (h.rest (xid :: subxids)) :=
  drain hb (xid :: subxids)

theorem abort (hb : b.Refines h) (xid : Xid) (subxids : List Xid) :
    (b.abort xid subxids).2.Refines (h.rest (xid :: subxids)) :=
  drain hb (xid :: subxids)

/-- An entry of the buffer starts at an op that is held. -/
theorem firstLsn_mem (hb : b.Refines h) {x : Xid} {tx : OpenTx}
    (hx : b.openTxs.lookup x = some tx) : ∃ p ∈ h, p.2.lsn = tx.firstLsn := by
  rw [hb x] at hx
  cases hops : h.ofXid x with
  | nil => simp [hops, OpenTx.ofOps] at hx
  | cons q qs =>
    have hq : q ∈ h.ofXid x := by simp [hops]
    obtain ⟨p, hp, rfl⟩ := List.mem_map.mp hq
    simp only [hops, OpenTx.ofOps, Option.some.injEq] at hx
    exact ⟨p, List.mem_of_mem_filter hp, by rw [← hx]⟩

/-- Held ops are of transactions that the buffer has. -/
theorem mem_keys (hb : b.Refines h) {p : Xid × PendingOp} (hp : p ∈ h) : p.1 ∈ b.openTxs.keys := by
  by_contra hnot
  have hlookup := hb p.1
  rw [AList.lookup_eq_none.mpr (fun hmem => hnot (AList.mem_keys.mp hmem))] at hlookup
  have hmem : p.2 ∈ h.ofXid p.1 := List.mem_map.mpr ⟨p, List.mem_filter.mpr ⟨hp, by simp⟩, rfl⟩
  cases hops : h.ofXid p.1 with
  | nil => simp [hops] at hmem
  | cons q qs => simp [hops, OpenTx.ofOps] at hlookup

/-- The oldest open transaction starts at the first held op. -/
theorem oldestFirstLsn (hb : b.Refines h) (ho : h.Ordered) :
    b.oldestFirstLsn = h.head?.map (·.2.lsn) := by
  unfold TxBuffer.oldestFirstLsn
  cases h with
  | nil =>
    have hnil : b.openTxs.entries = [] := by
      refine List.eq_nil_iff_forall_not_mem.mpr fun ⟨x, tx⟩ hmem => ?_
      obtain ⟨p, hp, -⟩ := firstLsn_mem hb (AList.mem_lookup_iff.mpr hmem)
      simp at hp
    simp [hnil]
  | cons p t =>
    rw [List.head?_cons, Option.map_some, List.min?_eq_some_iff]
    constructor
    · obtain ⟨ps, hps⟩ : ∃ ps, Held.ofXid p.1 (p :: t) = p.2 :: ps := by simp [Held.ofXid]
      have hlook := hb p.1
      rw [hps, OpenTx.ofOps] at hlook
      exact List.mem_map.mpr ⟨⟨p.1, _⟩, AList.mem_lookup_iff.mp hlook, rfl⟩
    · intro l hl
      obtain ⟨⟨x, tx⟩, hmem, rfl⟩ := List.mem_map.mp hl
      obtain ⟨q, hq, hlsn⟩ := firstLsn_mem hb (AList.mem_lookup_iff.mpr hmem)
      exact hlsn ▸ ho.head_le hq

end TxBuffer.Refines

/-- Handling a record keeps the buffer in step with the held ops. -/
theorem Engine.applyEffect_refines {e : Engine} {h : Held} (hb : e.txbuf.Refines h)
    (now : Instant) (ev : WalEvent) :
    (e.applyEffect now ev.lsn ev.effect).txbuf.Refines (h.step ev) := by
  obtain ⟨lsn, effect⟩ := ev
  cases effect with
  | ops xid table ops => exact hb.addOps xid lsn table ops
  | commit xid subxids => exact hb.commit_rest xid subxids
  | abort xid subxids => exact hb.abort xid subxids
  | skip | suspect | toastChunk | drift => exact hb

end Ltap
