-- SUMMARY: Commit status of transactions and visibility of row versions (`clog.rs`).
import OpenLtap.Wal.Numeric

/-!
# Commit log

Two bits per transaction on pages of the commit log. A row version is visible if its
inserter committed and nobody who committed deleted it. Hint bits are not read; whether
`xmax` is only a lock, and whether it is a multixact, is.
-/

namespace Ltap

def clogXactsPerByte : Nat := 4
def clogXactsPerPage : Nat := 8192 * clogXactsPerByte

def invalidXid : Xid := 0
def bootstrapXid : Xid := 1
def frozenXid : Xid := 2

inductive TxnStatus where
  | inProgress
  | committed
  | aborted
  | subCommitted
  deriving DecidableEq, Repr

def xidToPage (xid : Xid) : Nat := xid / clogXactsPerPage

/-- The byte within the page and the shift of a transaction's two bits. -/
def byteBit (xid : Xid) : Nat × Nat :=
  let idx := xid % clogXactsPerPage
  (idx / clogXactsPerByte, idx % clogXactsPerByte * 2)

def statusInPage (page : Bytes) (xid : Xid) : Except Fault TxnStatus :=
  let (byteno, bshift) := byteBit xid
  match page[byteno]? with
  | none => bail "clog page too short for this xid"
  | some byte =>
    match (byte.toNat >>> bshift) &&& 0x3 with
    | 0 => .ok .inProgress
    | 1 => .ok .committed
    | 2 => .ok .aborted
    | _ => .ok .subCommitted

/-! Bits of the infomask that are written with the version, not opportunistically. -/

def heapXmaxLockOnly : Nat := 0x0080
def heapXmaxIsMulti : Nat := 0x1000

/-- Where pages of the commit log come from, by page number. -/
abbrev ClogSource := Nat → Except Fault Bytes

namespace ClogSource

variable (src : ClogSource)

/-- The final status of a transaction. The bootstrap and the frozen one predate the log. -/
def resolve (xid : Xid) : Except Fault TxnStatus :=
  if xid = bootstrapXid ∨ xid = frozenXid then .ok .committed
  else if xid = invalidXid then
    bail "resolve() called on InvalidTransactionId — check for xmax == 0 before calling"
  else do
    let page ← src (xidToPage xid)
    statusInPage page xid

def tupleVisible (xmin xmax : Xid) (infomask : Nat) : Except Fault Bool := do
  let inserter ← src.resolve xmin
  if inserter ≠ .committed then return false
  else if xmax = invalidXid then return true
  else if infomask &&& heapXmaxIsMulti ≠ 0 then
    if infomask &&& heapXmaxLockOnly ≠ 0 then return true
    else bail s!"xmax {xmax} is a multixact with an updater member — resolving it needs the members/offsets SLRU (crate::multixact); use tuple_visible_with_multixact"
  else if infomask &&& heapXmaxLockOnly ≠ 0 then return true
  else
    let deleter ← src.resolve xmax
    return deleter ≠ .committed

/-! ## Visibility -/

/-- There is no deleter, or one of which the log knows that it has not committed. -/
def Undeleted (xmax : Xid) : Prop :=
  xmax = invalidXid ∨ ∃ status, src.resolve xmax = .ok status ∧ status ≠ .committed

variable {src}

theorem tupleVisible_frozen (infomask : Nat) : src.tupleVisible frozenXid invalidXid infomask = .ok true := rfl

/-- What makes a version visible. -/
theorem tupleVisible_true {xmin xmax : Xid} {infomask : Nat}
    (h : src.tupleVisible xmin xmax infomask = .ok true) :
    src.resolve xmin = .ok .committed ∧
      (infomask &&& heapXmaxLockOnly ≠ 0 ∨ src.Undeleted xmax) := by
  obtain ⟨inserter, hin, h⟩ := bind_eq_ok.mp h
  split at h
  · cases h
  rename_i hcommitted
  rw [not_not.mp hcommitted] at hin
  refine ⟨hin, ?_⟩
  split at h
  · rename_i hzero
    exact .inr (.inl hzero)
  split at h
  · split at h
    · rename_i hlock
      exact .inl hlock
    · cases h
  split at h
  · rename_i hlock
    exact .inl hlock
  · obtain ⟨deleter, hout, h⟩ := bind_eq_ok.mp h
    exact .inr (.inr ⟨deleter, hout, of_decide_eq_true (Except.ok.inj h)⟩)

/-- Without a lock, a version of a committed inserter is visible if it is not deleted, and
otherwise it is either invisible or unknown. -/
theorem tupleVisible_unlocked {xmin xmax : Xid} {infomask : Nat} (hin : src.resolve xmin = .ok .committed)
    (hmulti : infomask &&& heapXmaxIsMulti = 0) (hlock : infomask &&& heapXmaxLockOnly = 0) :
    src.tupleVisible xmin xmax infomask = .ok true ↔ src.Undeleted xmax := by
  constructor
  · intro h
    rcases (tupleVisible_true h).2 with hlocked | hundeleted
    · exact absurd hlock hlocked
    · exact hundeleted
  · intro h
    rw [tupleVisible, hin]
    simp only [bind, Except.bind, ne_eq, not_true_eq_false, if_false, hmulti, hlock]
    rcases h with hzero | ⟨status, hout, hne⟩
    · rw [if_pos hzero]
      rfl
    · split
      · rfl
      · rw [hout]
        simp only [hne, not_false_eq_true, decide_true]
        rfl

end ClogSource

end Ltap
