-- SUMMARY: Runs of calls on the transaction buffer; a commit returns a filter of the calls before it.
import OpenLtap.Recovery.Held

/-!
# Calls on the buffer

A caller of `TxBuffer` adds ops and ends transactions, in any order and with any lists of
subtransactions. What a commit returns is said of the calls alone: the ops that were
added under one of its transactions and whose transaction has not ended since, in the
order of the calls. An op is known by the index of the call that added it, so that equal
ops are told apart.
-/

namespace Ltap

inductive BufferCall where
  | addOp (xid : Xid) (lsn : Lsn) (table : Nat) (op : Op)
  | commit (xid : Xid) (subxids : List Xid)
  | abort (xid : Xid) (subxids : List Xid)
  deriving DecidableEq, Repr

namespace BufferCall

/-- The op that a call adds, with its transaction. -/
def added : BufferCall → Option (Xid × PendingOp)
  | .addOp xid lsn table op => some (xid, { lsn, table, op })
  | _ => none

/-- The transactions that a call ends. -/
def ended : BufferCall → List Xid
  | .addOp .. => []
  | .commit xid subxids | .abort xid subxids => xid :: subxids

end BufferCall

/-- The buffer after a call. -/
def TxBuffer.call (b : TxBuffer) : BufferCall → TxBuffer
  | .addOp xid lsn table op => b.addOp xid lsn table op
  | .commit xid subxids => (b.commit xid subxids).2
  | .abort xid subxids => (b.abort xid subxids).2

/-- A new buffer after these calls. -/
def TxBuffer.ofCalls (calls : List BufferCall) : TxBuffer := calls.foldl call empty

@[simp] theorem TxBuffer.ofCalls_concat (calls : List BufferCall) (c : BufferCall) :
    ofCalls (calls ++ [c]) = (ofCalls calls).call c := by
  simp [ofCalls]

namespace BufferCall

/-- The op added by the `i`-th call. -/
def opAt (calls : List BufferCall) (i : Nat) : Option PendingOp :=
  (calls[i]?.bind added).map (·.2)

/-- The `i`-th call added an op under one of `xs`, whose transaction has not ended since. -/
def opensAt (xs : List Xid) (calls : List BufferCall) (i : Nat) : Bool :=
  (calls[i]?.bind added).any fun p => p.1 ∈ xs && (calls.drop (i + 1)).all (p.1 ∉ ·.ended)

/-- The calls whose ops a commit of `xs` has to return. -/
def openAdds (xs : List Xid) (calls : List BufferCall) : List Nat :=
  (List.range calls.length).filter (opensAt xs calls)

/-- The calls whose ops the `n`-th call has to return. -/
def returned (calls : List BufferCall) (n : Nat) : List Nat :=
  match calls[n]? with
  | some (.commit xid subxids) => openAdds (xid :: subxids) (calls.take n)
  | _ => []

/-- Positions never decrease, and ops of different transactions have different ones. -/
def InWalOrder (calls : List BufferCall) : Prop := Held.Ordered (calls.filterMap added)

instance (calls : List BufferCall) : Decidable (InWalOrder calls) :=
  inferInstanceAs (Decidable (List.Pairwise _ _))

/-! ## Held ops of a run -/

/-- A call on the list of held ops. -/
def heldStep (h : Held) (c : BufferCall) : Held := h.rest c.ended ++ c.added.toList

def held (calls : List BufferCall) : Held := calls.foldl heldStep []

@[simp] theorem held_nil : held [] = [] := rfl

@[simp] theorem held_concat (calls : List BufferCall) (c : BufferCall) :
    held (calls ++ [c]) = heldStep (held calls) c := by
  simp [held]

theorem heldStep_sublist (h : Held) (c : BufferCall) :
    (heldStep h c).Sublist (h ++ c.added.toList) :=
  List.filter_sublist.append_right _

/-- Held ops are a part of the added ones, in the same order. -/
theorem held_sublist (calls : List BufferCall) : (held calls).Sublist (calls.filterMap added) := by
  induction calls using List.reverseRecOn with
  | nil => simp
  | append_singleton calls c ih =>
    have hadded : [c].filterMap added = c.added.toList := by
      cases hc : c.added <;> simp [hc]
    rw [held_concat, List.filterMap_append, hadded]
    exact (heldStep_sublist _ c).trans (ih.append_right _)

theorem InWalOrder.held {calls : List BufferCall} (h : InWalOrder calls) :
    (BufferCall.held calls).Ordered :=
  List.Pairwise.sublist (held_sublist calls) h

theorem InWalOrder.take {calls : List BufferCall} (h : InWalOrder calls) (n : Nat) :
    InWalOrder (calls.take n) :=
  List.Pairwise.sublist ((List.take_sublist n calls).filterMap added) h

theorem refines_call {b : TxBuffer} {h : Held} (hb : b.Refines h) (c : BufferCall) :
    (b.call c).Refines (heldStep h c) := by
  cases c with
  | addOp xid lsn table op =>
    simpa [TxBuffer.call, heldStep, ended, added, Held.rest] using hb.addOp xid lsn table op
  | commit xid subxids =>
    simpa [TxBuffer.call, heldStep, ended, added] using hb.commit_rest xid subxids
  | abort xid subxids =>
    simpa [TxBuffer.call, heldStep, ended, added] using hb.abort xid subxids

/-- The buffer of a run holds what the list holds. -/
theorem refines_held (calls : List BufferCall) : (TxBuffer.ofCalls calls).Refines (held calls) := by
  induction calls using List.reverseRecOn with
  | nil => exact TxBuffer.Refines.empty
  | append_singleton calls c ih =>
    rw [held_concat, TxBuffer.ofCalls_concat]
    exact refines_call ih c

/-! ## The calls a commit returns -/

theorem opAt_concat {calls : List BufferCall} (c : BufferCall) {i : Nat} (hi : i < calls.length) :
    opAt (calls ++ [c]) i = opAt calls i := by
  simp [opAt, List.getElem?_append_left hi]

theorem opensAt_concat (xs : List Xid) {calls : List BufferCall} (c : BufferCall) {i : Nat}
    (hi : i < calls.length) :
    opensAt xs (calls ++ [c]) i = opensAt (xs.filter (· ∉ c.ended)) calls i := by
  have hdrop : (calls ++ [c]).drop (i + 1) = calls.drop (i + 1) ++ [c] :=
    List.drop_append_of_le_length hi
  simp only [opensAt, List.getElem?_append_left hi, hdrop]
  cases calls[i]?.bind added with
  | none => rfl
  | some p => simp [Bool.and_assoc, Bool.and_comm]

theorem opensAt_last (xs : List Xid) (calls : List BufferCall) (c : BufferCall) :
    opensAt xs (calls ++ [c]) calls.length = c.added.any (·.1 ∈ xs) := by
  simp [opensAt]

/-- A further call closes what it ends and opens what it adds. -/
theorem openAdds_concat (xs : List Xid) (calls : List BufferCall) (c : BufferCall) :
    openAdds xs (calls ++ [c]) =
      openAdds (xs.filter (· ∉ c.ended)) calls ++
        if c.added.any (·.1 ∈ xs) then [calls.length] else [] := by
  have hold : (List.range calls.length).filter (opensAt xs (calls ++ [c])) =
      openAdds (xs.filter (· ∉ c.ended)) calls :=
    List.filter_congr fun i hi => opensAt_concat xs c (List.mem_range.mp hi)
  rw [openAdds, List.length_append, List.length_singleton, List.range_succ, List.filter_append,
    hold, List.filter_singleton, opensAt_last]
  cases c.added.any (·.1 ∈ xs) <;> rfl

theorem taken_rest (xs ys : List Xid) (h : Held) :
    (h.rest ys).taken xs = h.taken (xs.filter (· ∉ ys)) := by
  simp [Held.taken, Held.rest, List.filter_filter]

/-- Of the held ops, those of `xs` were added by the calls that are open for `xs`. -/
theorem held_taken (xs : List Xid) (calls : List BufferCall) :
    ((held calls).taken xs).map some = (openAdds xs calls).map (opAt calls) := by
  induction calls using List.reverseRecOn generalizing xs with
  | nil => rfl
  | append_singleton calls c ih =>
    have hold : (openAdds (xs.filter (· ∉ c.ended)) calls).map (opAt (calls ++ [c])) =
        (openAdds (xs.filter (· ∉ c.ended)) calls).map (opAt calls) :=
      List.map_congr_left fun i hi =>
        opAt_concat c (List.mem_range.mp (List.mem_of_mem_filter hi))
    have hlast : opAt (calls ++ [c]) calls.length = c.added.map (·.2) := by simp [opAt]
    have happend : (heldStep (held calls) c).taken xs =
        ((held calls).rest c.ended).taken xs ++ Held.taken xs c.added.toList := by
      simp [heldStep, Held.taken]
    rw [held_concat, happend, openAdds_concat, List.map_append, List.map_append, hold, ← ih,
      taken_rest]
    congr 1
    cases hc : c.added with
    | none => rfl
    | some p =>
      by_cases hp : p.1 ∈ xs
      · simp [Held.taken, hp, hlast, hc]
      · simp [Held.taken, hp]

/-! ## Over a whole run -/

theorem mem_openAdds {xs : List Xid} {calls : List BufferCall} {i : Nat} :
    i ∈ openAdds xs calls ↔ ∃ p, calls[i]?.bind added = some p ∧ p.1 ∈ xs ∧
      ∀ c ∈ calls.drop (i + 1), p.1 ∉ c.ended := by
  simp only [openAdds, opensAt, List.mem_filter, List.mem_range, Option.any_eq_true,
    Bool.and_eq_true, decide_eq_true_eq, List.all_eq_true]
  constructor
  · rintro ⟨-, h⟩
    exact h
  · rintro ⟨p, hp, h⟩
    refine ⟨?_, p, hp, h⟩
    by_contra hi
    rw [List.getElem?_eq_none (not_lt.mp hi)] at hp
    simp at hp

theorem mem_returned {calls : List BufferCall} {i n : Nat} :
    i ∈ returned calls n ↔ ∃ xid subxids, calls[n]? = some (.commit xid subxids) ∧
      i ∈ openAdds (xid :: subxids) (calls.take n) := by
  unfold returned
  split
  case h_1 xid subxids hn => simp [hn]
  case h_2 hn => simpa using fun xid subxids h => absurd h (hn xid subxids)

/-- An op that is returned is of a transaction that no call has ended in between. -/
theorem not_ended_of_mem_returned {calls : List BufferCall} {i m n : Nat}
    (hi : i ∈ returned calls n) (him : i < m) (hmn : m < n) {p : Xid × PendingOp} {c : BufferCall}
    (hp : calls[i]?.bind added = some p) (hm : calls[m]? = some c) : p.1 ∉ c.ended := by
  obtain ⟨xid, subxids, -, hopen⟩ := mem_returned.mp hi
  obtain ⟨q, hq, -, hends⟩ := mem_openAdds.mp hopen
  rw [List.getElem?_take_of_lt (him.trans hmn), hp] at hq
  obtain rfl := Option.some.inj hq
  refine hends c (List.mem_of_getElem? (i := m - (i + 1)) ?_)
  rw [List.getElem?_drop, Nat.add_sub_cancel' him, List.getElem?_take_of_lt hmn]
  exact hm

/-- An op is returned after it was added, by a call that ends its transaction. -/
theorem ended_of_mem_returned {calls : List BufferCall} {i n : Nat} (hi : i ∈ returned calls n) :
    i < n ∧ ∃ p c, calls[i]?.bind added = some p ∧ calls[n]? = some c ∧ p.1 ∈ c.ended := by
  obtain ⟨xid, subxids, hn, hopen⟩ := mem_returned.mp hi
  have hlt : i < n := by
    have := List.mem_range.mp (List.mem_of_mem_filter hopen)
    rw [List.length_take] at this
    omega
  obtain ⟨p, hp, hxs, -⟩ := mem_openAdds.mp hopen
  rw [List.getElem?_take_of_lt hlt] at hp
  exact ⟨hlt, p, _, hp, hn, hxs⟩

theorem returned_once {calls : List BufferCall} {i m n : Nat} (hm : i ∈ returned calls m)
    (hn : i ∈ returned calls n) : m ≤ n := by
  by_contra hlt
  obtain ⟨hin, p, c, hp, hc, hended⟩ := ended_of_mem_returned hn
  exact not_ended_of_mem_returned hm hin (not_le.mp hlt) hp hc hended

end BufferCall

/-- A commit returns the ops that are open for it, in the order they were added, and leaves
every other transaction as it was. No op is returned twice, or after its transaction was
aborted. -/
theorem TxBuffer.commit_ofCalls (calls : List BufferCall) (horder : BufferCall.InWalOrder calls) :
    (∀ n xid subxids, calls[n]? = some (.commit xid subxids) →
      (((ofCalls (calls.take n)).commit xid subxids).1.map some =
        (BufferCall.returned calls n).map (BufferCall.opAt calls)) ∧
      ∀ x ∉ xid :: subxids, ((ofCalls (calls.take n)).commit xid subxids).2.openTxs.lookup x =
        (ofCalls (calls.take n)).openTxs.lookup x) ∧
    (∀ i m n, i ∈ BufferCall.returned calls m → i ∈ BufferCall.returned calls n → m = n) ∧
    ∀ i m n p xid subxids, i < m → m < n → calls[i]?.bind BufferCall.added = some p →
      calls[m]? = some (.abort xid subxids) → p.1 ∈ xid :: subxids →
      i ∉ BufferCall.returned calls n := by
  refine ⟨fun n xid subxids hn => ⟨?_, fun x hx => ?_⟩, ?_, ?_⟩
  · have hreturned : BufferCall.returned calls n =
        BufferCall.openAdds (xid :: subxids) (calls.take n) := by
      rw [BufferCall.returned, hn]
    have hops : ∀ i ∈ BufferCall.openAdds (xid :: subxids) (calls.take n),
        BufferCall.opAt (calls.take n) i = BufferCall.opAt calls i := by
      intro i hi
      have hlt := List.mem_range.mp (List.mem_of_mem_filter hi)
      rw [List.length_take] at hlt
      rw [BufferCall.opAt, BufferCall.opAt, List.getElem?_take_of_lt (by omega)]
    rw [(BufferCall.refines_held _).commit (horder.take n).held, BufferCall.held_taken, hreturned]
    exact List.map_congr_left hops
  · exact ((ofCalls (calls.take n)).drain_lookup (xid :: subxids) x).trans (if_neg hx)
  · intro i m n hm hn
    exact le_antisymm (BufferCall.returned_once hm hn) (BufferCall.returned_once hn hm)
  · intro i m n p xid subxids him hmn hp hm hmem hi
    exact BufferCall.not_ended_of_mem_returned hi him hmn hp hm hmem

namespace BufferCall

/-- A subtransaction with ops between those of its parent, a rollback, and its xid in use again. -/
def sample : List BufferCall :=
  [.addOp 7 10 0 (.delete (0, 1) none), .addOp 8 20 0 (.delete (0, 2) none),
   .addOp 8 20 0 (.delete (0, 3) none), .addOp 9 25 0 (.delete (0, 4) none),
   .addOp 7 30 0 (.delete (0, 5) none), .abort 9 [], .commit 7 [8, 9, 8],
   .addOp 8 40 0 (.delete (0, 6) none), .commit 8 []]

end BufferCall

theorem TxBuffer.commit_ofCalls_sample :
    BufferCall.InWalOrder BufferCall.sample ∧
    BufferCall.returned BufferCall.sample 6 = [0, 1, 2, 4] ∧
    ((ofCalls (BufferCall.sample.take 6)).commit 7 [8, 9, 8]).1.map some =
      (BufferCall.returned BufferCall.sample 6).map (BufferCall.opAt BufferCall.sample) :=
  ⟨by decide, by decide,
    ((commit_ofCalls BufferCall.sample (by decide)).1 6 7 [8, 9, 8] rfl).1⟩

end Ltap
