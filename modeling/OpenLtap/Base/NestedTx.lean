-- SUMMARY: Tuples written and removed under nested transactions, and the edits that are still open.
import Mathlib.Data.List.Basic
import Mathlib.Logic.Function.Basic

/-!
# A heap under nested transactions

An address holds at most one tuple. A tuple has the transaction that wrote it and, once
that happened, the one that removed it, as long as these are open. Transactions nest:
each is in a number of levels, and a rollback ends everything in a level. The log of a
transaction's edits is kept until it ends. `Explains` says that the edits logged for an
address are those its tuple shows, so that the edits of a transaction that commits turn
the committed rows before into the committed rows after.
-/

namespace NestedTx

variable {κ ν ξ : Type*}

structure Tuple (ν ξ : Type*) where
  ver : ν
  /-- The open transaction that wrote it, `none` once that has committed. -/
  writer : Option ξ
  /-- The open transaction that removed it. -/
  deleter : Option ξ

structure State (κ ν ξ : Type*) where
  /-- The levels a transaction is in, the innermost first. Empty if it is not open. -/
  levels : ξ → List ξ
  /-- `none` for an address that was never used or whose tuple is dead. -/
  heap : κ → Option (Tuple ν ξ)

namespace Tuple

variable [DecidableEq ξ]

/-- An open transaction is among these. -/
def among (xs : List ξ) (x : Option ξ) : Bool := x.any (· ∈ xs)

/-- A tuple after the commit of `xs`, `none` if it is dead. -/
def commit (xs : List ξ) (t : Tuple ν ξ) : Option (Tuple ν ξ) :=
  if among xs t.deleter then none
  else some { t with writer := if among xs t.writer then none else t.writer }

/-- A tuple after the abort of `xs`. -/
def abort (xs : List ξ) (t : Tuple ν ξ) : Option (Tuple ν ξ) :=
  if among xs t.writer then none
  else some { t with deleter := if among xs t.deleter then none else t.deleter }

/-- A tuple after a crash: what was open did not happen. -/
def crash (t : Tuple ν ξ) : Option (Tuple ν ξ) :=
  if t.writer.isNone then some { t with deleter := none } else none

/-- The row that others see. -/
def row (t : Tuple ν ξ) : Option ν := if t.writer.isNone then some t.ver else none

end Tuple

inductive Edit (κ ν : Type*) where
  | write (k : κ) (v : ν)
  | erase (k : κ)

def Edit.key : Edit κ ν → κ
  | .write k _ | .erase k => k

/-- What an edit leaves at its address. -/
def Edit.leaves : Edit κ ν → Option ν
  | .write _ v => some v
  | .erase _ => none

@[simp] theorem Edit.key_write (k : κ) (v : ν) : (Edit.write k v).key = k := rfl

@[simp] theorem Edit.key_erase (k : κ) : (Edit.erase k : Edit κ ν).key = k := rfl

@[simp] theorem Edit.leaves_write (k : κ) (v : ν) : (Edit.write k v).leaves = some v := rfl

@[simp] theorem Edit.leaves_erase (k : κ) : (Edit.erase k : Edit κ ν).leaves = none := rfl

/-- A transaction moves through its levels without a change of the heap. -/
inductive Nesting (ξ : Type*) where
  | start (x : ξ)
  | savepoint (x inside : ξ)
  | release (x : ξ)

/-! ## Rows and edits -/

section Rows

variable [DecidableEq κ]

/-- Edits performed at once. -/
def applyEdits (rows : κ → Option ν) (es : List (Edit κ ν)) : κ → Option ν :=
  es.foldl (fun rows e => Function.update rows e.key e.leaves) rows

@[simp] theorem applyEdits_nil (rows : κ → Option ν) : applyEdits rows [] = rows := rfl

@[simp] theorem applyEdits_cons (rows : κ → Option ν) (e : Edit κ ν) (es : List (Edit κ ν)) :
    applyEdits rows (e :: es) = applyEdits (Function.update rows e.key e.leaves) es := rfl

theorem applyEdits_append (rows : κ → Option ν) (es es' : List (Edit κ ν)) :
    applyEdits rows (es ++ es') = applyEdits (applyEdits rows es) es' := by
  simp [applyEdits]

/-- Only the edits of an address matter for it. -/
theorem applyEdits_filter (rows : κ → Option ν) (es : List (Edit κ ν)) (k : κ) :
    applyEdits rows es k = applyEdits rows (es.filter (·.key = k)) k := by
  induction es generalizing rows with
  | nil => rfl
  | cons e es ih =>
    have hcongr : ∀ (f g : κ → Option ν) (l : List (Edit κ ν)), f k = g k →
        applyEdits f l k = applyEdits g l k := by
      intro f g l
      induction l generalizing f g with
      | nil => exact id
      | cons d l ih =>
        intro hfg
        refine ih _ _ ?_
        by_cases hk : k = d.key
        · simp [hk]
        · simp [hk, hfg]
    rw [applyEdits_cons, ih]
    by_cases hk : e.key = k
    · simp [hk]
    · rw [List.filter_cons_of_neg (by simpa using hk)]
      exact hcongr _ _ _ (Function.update_of_ne (Ne.symm hk) _ _)

end Rows

namespace State

/-! ## Nesting -/

/-- The transaction is at the innermost level of its family. -/
def Innermost (s : State κ ν ξ) (x : ξ) : Prop :=
  (s.levels x).head? = some x ∧
    ∀ y, (s.levels y).getLast? = (s.levels x).getLast? → s.levels y <:+ s.levels x

/-- What a transaction has to be like to move on. -/
def NestLegal (s : State κ ν ξ) : Nesting ξ → Prop
  | .start x => s.levels x = []
  | .savepoint x inside => s.levels x = [] ∧ s.Innermost inside
  | .release x => (s.levels x).head? = some x ∧ (s.levels x).tail ≠ [] ∧
      ∀ y, x ∈ s.levels y → s.levels y = s.levels x

variable [DecidableEq ξ]

def nest (s : State κ ν ξ) : Nesting ξ → State κ ν ξ
  | .start x => { s with levels := Function.update s.levels x [x] }
  | .savepoint x inside => { s with levels := Function.update s.levels x (x :: s.levels inside) }
  | .release x =>
    { s with levels := fun y => if x ∈ s.levels y then (s.levels x).tail else s.levels y }

/-! ## Edits -/

variable [DecidableEq κ]

/-- A free address is written. A tuple is removed that is there and that a transaction of
the family or a committed one wrote. -/
def EditLegal (s : State κ ν ξ) (x : ξ) : Edit κ ν → Prop
  | .write k _ => s.levels x ≠ [] ∧ s.heap k = none
  | .erase k => s.Innermost x ∧ ∃ t, s.heap k = some t ∧ t.deleter = none ∧
      ∀ w, t.writer = some w → (s.levels w).getLast? = (s.levels x).getLast?

def edit (s : State κ ν ξ) (x : ξ) : Edit κ ν → State κ ν ξ
  | .write k v => { s with heap := Function.update s.heap k (some ⟨v, some x, none⟩) }
  | .erase k =>
    { s with heap := Function.update s.heap k ((s.heap k).map fun t => { t with deleter := some x }) }

def EditsLegal (x : ξ) : State κ ν ξ → List (Edit κ ν) → Prop
  | _, [] => True
  | s, e :: es => s.EditLegal x e ∧ EditsLegal x (s.edit x e) es

def edits (s : State κ ν ξ) (x : ξ) (es : List (Edit κ ν)) : State κ ν ξ :=
  es.foldl (·.edit x ·) s

/-! ## Ends -/

/-- Commit is of a top-level transaction and of all that was released into it. -/
def CommitLegal (s : State κ ν ξ) (x : ξ) (xs : List ξ) : Prop :=
  ∀ y, y ∈ xs ↔ s.levels y = [x]

/-- An abort or a rollback ends everything in the level. -/
def AbortLegal (s : State κ ν ξ) (x : ξ) (xs : List ξ) : Prop :=
  ∀ y, y ∈ xs ↔ x ∈ s.levels y

/-- The transactions are no longer open. -/
def close (s : State κ ν ξ) (xs : List ξ) : ξ → List ξ := fun y => if y ∈ xs then [] else s.levels y

def commit (s : State κ ν ξ) (xs : List ξ) : State κ ν ξ :=
  { levels := s.close xs, heap := fun k => (s.heap k).bind (·.commit xs) }

def abort (s : State κ ν ξ) (xs : List ξ) : State κ ν ξ :=
  { levels := s.close xs, heap := fun k => (s.heap k).bind (·.abort xs) }

/-- No transaction survives a crash of the server. -/
def crash (s : State κ ν ξ) : State κ ν ξ :=
  { levels := fun _ => [], heap := fun k => (s.heap k).bind Tuple.crash }

/-- The committed rows. -/
def rows (s : State κ ν ξ) (k : κ) : Option ν := (s.heap k).bind Tuple.row

end State

/-! ## Committed rows -/

namespace State

variable [DecidableEq κ] [DecidableEq ξ] {s : State κ ν ξ}

omit [DecidableEq ξ] in
/-- Open edits do not show. -/
theorem rows_edit {x : ξ} {e : Edit κ ν} (he : s.EditLegal x e) : (s.edit x e).rows = s.rows := by
  funext k'
  cases e with
  | write k v =>
    by_cases hk : k' = k
    · subst hk
      simp [rows, edit, Tuple.row, he.2]
    · simp [rows, edit, hk]
  | erase k =>
    by_cases hk : k' = k
    · subst hk
      simp only [rows, edit, Function.update_self, Option.bind_map]
      rfl
    · simp [rows, edit, hk]

omit [DecidableEq ξ] in
theorem rows_edits {x : ξ} {es : List (Edit κ ν)} (hes : EditsLegal x s es) :
    (s.edits x es).rows = s.rows := by
  induction es generalizing s with
  | nil => rfl
  | cons e es ih => exact (ih hes.2).trans (rows_edit hes.1)

omit [DecidableEq κ] [DecidableEq ξ] in
theorem rows_crash (s : State κ ν ξ) : s.crash.rows = s.rows := by
  funext k
  simp only [rows, crash]
  cases s.heap k with
  | none => rfl
  | some t =>
    simp only [Option.bind_some, Tuple.crash]
    split
    · rfl
    · rename_i hw
      simp [Tuple.row, hw]

omit [DecidableEq κ] in
theorem rows_abort (s : State κ ν ξ) (xs : List ξ) : (s.abort xs).rows = s.rows := by
  funext k
  simp only [rows, abort]
  cases s.heap k with
  | none => rfl
  | some t =>
    simp only [Option.bind_some, Tuple.abort]
    split
    · rename_i hw
      cases hwriter : t.writer with
      | none => simp [hwriter, Tuple.among] at hw
      | some w => simp [Tuple.row, hwriter]
    · rfl

end State

/-! ## The open edits -/

/-- Edits of open transactions, in the order in which they were made. -/
abbrev Log (κ ν ξ : Type*) := List (ξ × Edit κ ν)

namespace Log

def made (x : ξ) (es : List (Edit κ ν)) : Log κ ν ξ := es.map fun e => (x, e)

/-- The edits of an address. -/
def at_ [DecidableEq κ] (l : Log κ ν ξ) (k : κ) : Log κ ν ξ := l.filter (·.2.key = k)

theorem at_concat [DecidableEq κ] (l : Log κ ν ξ) (x : ξ) (e : Edit κ ν) (k : κ) :
    at_ (l ++ [(x, e)]) k = if e.key = k then l.at_ k ++ [(x, e)] else l.at_ k := by
  by_cases hk : e.key = k
  · simp [at_, hk]
  · simp [at_, hk]

variable [DecidableEq ξ]

/-- The edits of some transactions. -/
def taken (xs : List ξ) (l : Log κ ν ξ) : List (Edit κ ν) := (l.filter (·.1 ∈ xs)).map (·.2)

/-- What stays open. -/
def rest (xs : List ξ) (l : Log κ ν ξ) : Log κ ν ξ := l.filter (·.1 ∉ xs)

theorem taken_append (xs : List ξ) (l l' : Log κ ν ξ) :
    taken xs (l ++ l') = l.taken xs ++ taken xs l' := by
  simp [taken]

theorem rest_append (xs : List ξ) (l l' : Log κ ν ξ) :
    rest xs (l ++ l') = l.rest xs ++ rest xs l' := by
  simp [rest]

theorem taken_made (xs : List ξ) (x : ξ) (es : List (Edit κ ν)) :
    taken xs (made x es) = if x ∈ xs then es else [] := by
  by_cases hx : x ∈ xs
  · simp [taken, made, hx, List.filter_map, Function.comp_def]
  · simp [taken, made, hx, List.filter_map, Function.comp_def]

theorem rest_made (xs : List ξ) (x : ξ) (es : List (Edit κ ν)) :
    rest xs (made x es) = if x ∈ xs then [] else made x es := by
  by_cases hx : x ∈ xs
  · simp [rest, made, hx, List.filter_map, Function.comp_def]
  · simp [rest, made, hx, List.filter_map, Function.comp_def]

theorem taken_at [DecidableEq κ] (xs : List ξ) (l : Log κ ν ξ) (k : κ) :
    (l.taken xs).filter (·.key = k) = (l.at_ k).taken xs := by
  simp only [taken, at_, List.filter_map, List.filter_filter, Function.comp_def, Bool.and_comm]

theorem rest_at [DecidableEq κ] (xs : List ξ) (l : Log κ ν ξ) (k : κ) :
    (l.rest xs).at_ k = (l.at_ k).rest xs := by
  simp only [rest, at_, List.filter_filter, Bool.and_comm]

end Log

/-- The open edits that a tuple at `k` shows. -/
def Tuple.shown (k : κ) (t : Tuple ν ξ) : Log κ ν ξ :=
  (t.writer.toList.map fun x => (x, .write k t.ver)) ++ t.deleter.toList.map fun x => (x, .erase k)

namespace Tuple

variable [DecidableEq ξ] {xs : List ξ}

/-- A commit takes the edits of its transactions, unless it leaves the writer of a tuple
open that it removes. -/
theorem shown_commit (k : κ) (t : Tuple ν ξ)
    (h : ∀ w d, t.writer = some w → t.deleter = some d → d ∈ xs → w ∈ xs) :
    ((t.commit xs).map (·.shown k)).getD [] = Log.rest xs (t.shown k) := by
  obtain ⟨v, writer, deleter⟩ := t
  cases deleter with
  | none =>
    cases writer with
    | none => simp [commit, among, shown, Log.rest]
    | some w =>
      by_cases hw : w ∈ xs
      · simp [commit, among, shown, Log.rest, hw]
      · simp [commit, among, shown, Log.rest, hw]
  | some d =>
    cases writer with
    | none =>
      by_cases hd : d ∈ xs
      · simp [commit, among, shown, Log.rest, hd]
      · simp [commit, among, shown, Log.rest, hd]
    | some w =>
      by_cases hd : d ∈ xs
      · simp [commit, among, shown, Log.rest, hd, h w d rfl rfl hd]
      · by_cases hw : w ∈ xs
        · simp [commit, among, shown, Log.rest, hd, hw]
        · simp [commit, among, shown, Log.rest, hd, hw]

theorem shown_abort (k : κ) (t : Tuple ν ξ)
    (h : ∀ w d, t.writer = some w → t.deleter = some d → w ∈ xs → d ∈ xs) :
    ((t.abort xs).map (·.shown k)).getD [] = Log.rest xs (t.shown k) := by
  obtain ⟨v, writer, deleter⟩ := t
  cases writer with
  | none =>
    cases deleter with
    | none => simp [abort, among, shown, Log.rest]
    | some d =>
      by_cases hd : d ∈ xs
      · simp [abort, among, shown, Log.rest, hd]
      · simp [abort, among, shown, Log.rest, hd]
  | some w =>
    cases deleter with
    | none =>
      by_cases hw : w ∈ xs
      · simp [abort, among, shown, Log.rest, hw]
      · simp [abort, among, shown, Log.rest, hw]
    | some d =>
      by_cases hw : w ∈ xs
      · simp [abort, among, shown, Log.rest, hw, h w d rfl rfl hw]
      · by_cases hd : d ∈ xs
        · simp [abort, among, shown, Log.rest, hd, hw]
        · simp [abort, among, shown, Log.rest, hd, hw]

theorem of_commit {t t' : Tuple ν ξ} (h : t.commit xs = some t') :
    (∀ w, t'.writer = some w → t.writer = some w ∧ w ∉ xs) ∧
      ∀ d, t'.deleter = some d → t.deleter = some d ∧ d ∉ xs := by
  unfold commit at h
  split at h
  · cases h
  · rename_i hdeleter
    obtain rfl := Option.some.inj h
    refine ⟨fun w hw => ?_, fun d hd => ⟨hd, ?_⟩⟩
    · simp only at hw
      split at hw
      · cases hw
      · rename_i hwriter
        exact ⟨hw, by simpa [among, hw] using hwriter⟩
    · have hd : t.deleter = some d := hd
      simpa [among, hd] using hdeleter

theorem of_abort {t t' : Tuple ν ξ} (h : t.abort xs = some t') :
    (∀ w, t'.writer = some w → t.writer = some w ∧ w ∉ xs) ∧
      ∀ d, t'.deleter = some d → t.deleter = some d ∧ d ∉ xs := by
  unfold abort at h
  split at h
  · cases h
  · rename_i hwriter
    obtain rfl := Option.some.inj h
    refine ⟨fun w hw => ⟨hw, ?_⟩, fun d hd => ?_⟩
    · have hw : t.writer = some w := hw
      simpa [among, hw] using hwriter
    · simp only at hd
      split at hd
      · cases hd
      · rename_i hdeleter
        exact ⟨hd, by simpa [among, hd] using hdeleter⟩

/-- The edits that a commit takes leave what the tuple shows after it. -/
theorem applyEdits_shown [DecidableEq κ] {rows : κ → Option ν} {k : κ} (t : Tuple ν ξ)
    (hrow : rows k = t.row)
    (h : ∀ w d, t.writer = some w → t.deleter = some d → d ∈ xs → w ∈ xs) :
    applyEdits rows (Log.taken xs (t.shown k)) k = (t.commit xs).bind row := by
  obtain ⟨v, writer, deleter⟩ := t
  cases deleter with
  | none =>
    cases writer with
    | none => simpa [commit, among, shown, Log.taken, row] using hrow
    | some w =>
      by_cases hw : w ∈ xs
      · simp [commit, among, shown, Log.taken, hw, row]
      · simpa [commit, among, shown, Log.taken, hw, row] using hrow
  | some d =>
    cases writer with
    | none =>
      by_cases hd : d ∈ xs
      · simp [commit, among, shown, Log.taken, hd]
      · simpa [commit, among, shown, Log.taken, hd, row] using hrow
    | some w =>
      by_cases hd : d ∈ xs
      · simp [commit, among, shown, Log.taken, hd, h w d rfl rfl hd]
      · by_cases hw : w ∈ xs
        · simp [commit, among, shown, Log.taken, hd, hw, row]
        · simpa [commit, among, shown, Log.taken, hd, hw, row] using hrow

end Tuple

/-- The open edits of every address are those that its tuple shows, tuples belong to open
transactions, and a tuple's writer is in no level that its deleter is not in. -/
structure Explains [DecidableEq κ] (s : State κ ν ξ) (l : Log κ ν ξ) : Prop where
  shown : ∀ k, l.at_ k = ((s.heap k).map (·.shown k)).getD []
  writer : ∀ k t w, s.heap k = some t → t.writer = some w → s.levels w ≠ []
  deleter : ∀ k t d, s.heap k = some t → t.deleter = some d → s.levels d ≠ []
  nested : ∀ k t w d, s.heap k = some t → t.writer = some w → t.deleter = some d →
    s.levels w <:+ s.levels d

namespace Explains

variable [DecidableEq κ] {s : State κ ν ξ} {l : Log κ ν ξ}

/-- Without open tuples nothing is logged. -/
theorem settled (h : ∀ k t, s.heap k = some t → t.writer = none ∧ t.deleter = none) :
    Explains s [] := by
  refine ⟨fun k => ?_, fun k t w ht hw => ?_, fun k t d ht hd => ?_, fun k t w d ht hw => ?_⟩
  · cases hk : s.heap k with
    | none => rfl
    | some t => simp [Log.at_, Tuple.shown, h k t hk]
  · simp [h k t ht] at hw
  · simp [h k t ht] at hd
  · simp [h k t ht] at hw

/-- Nothing is open after a crash. -/
theorem crash (s : State κ ν ξ) : Explains s.crash [] := by
  refine settled fun k t ht => ?_
  obtain ⟨t₀, -, hcrash⟩ := Option.bind_eq_some_iff.mp ht
  unfold Tuple.crash at hcrash
  split at hcrash
  · rename_i hw
    obtain rfl := Option.some.inj hcrash
    exact ⟨by simpa using hw, rfl⟩
  · cases hcrash

variable [DecidableEq ξ]

/-! ### Nesting -/

theorem start (h : Explains s l) {x : ξ} (hx : s.levels x = []) (ls : List ξ) :
    Explains { s with levels := Function.update s.levels x ls } l := by
  have hother : ∀ y, s.levels y ≠ [] → Function.update s.levels x ls y = s.levels y := by
    intro y hy
    refine Function.update_of_ne ?_ _ _
    rintro rfl
    exact hy hx
  refine ⟨h.shown, fun k t w ht hw => ?_, fun k t d ht hd => ?_, fun k t w d ht hw hd => ?_⟩
  · have hlev := h.writer k t w ht hw
    simpa only [hother w hlev] using hlev
  · have hlev := h.deleter k t d ht hd
    simpa only [hother d hlev] using hlev
  · simpa only [hother w (h.writer k t w ht hw), hother d (h.deleter k t d ht hd)] using
      h.nested k t w d ht hw hd

theorem release (h : Explains s l) {x : ξ} (hx : s.NestLegal (.release x)) :
    Explains (s.nest (.release x)) l := by
  obtain ⟨hhead, htail, hsame⟩ := hx
  have hlevels : s.levels x = x :: (s.levels x).tail := (List.eq_cons_of_mem_head? hhead)
  have hopen : ∀ y, s.levels y ≠ [] → (s.nest (.release x)).levels y ≠ [] := by
    intro y hy
    simp only [State.nest]
    split
    · exact htail
    · exact hy
  refine ⟨h.shown, fun k t w ht hw => hopen w (h.writer k t w ht hw),
    fun k t d ht hd => hopen d (h.deleter k t d ht hd), fun k t w d ht hw hd => ?_⟩
  have hsuffix := h.nested k t w d ht hw hd
  simp only [State.nest]
  by_cases hd : x ∈ s.levels d
  · rw [if_pos hd]
    split
    · exact List.suffix_rfl
    · rename_i hnot
      rw [hsame d hd, hlevels, List.suffix_cons_iff] at hsuffix
      rcases hsuffix with heq | hsuffix
      · exact absurd (by simp [heq]) hnot
      · exact hsuffix
  · rw [if_neg hd, if_neg fun hw => hd (hsuffix.subset hw)]
    exact hsuffix

theorem nest (h : Explains s l) {n : Nesting ξ} (hn : s.NestLegal n) : Explains (s.nest n) l := by
  cases n with
  | start x => exact h.start hn [x]
  | savepoint x inside => exact h.start hn.1 (x :: s.levels inside)
  | release x => exact h.release hn

/-! ### Edits -/

omit [DecidableEq ξ] in
theorem edit (h : Explains s l) {x : ξ} {e : Edit κ ν} (he : s.EditLegal x e) :
    Explains (s.edit x e) (l ++ [(x, e)]) := by
  cases e with
  | write k v =>
    obtain ⟨hx, hfree⟩ := he
    refine ⟨fun k' => ?_, fun k' t w ht hw => ?_, fun k' t d ht hd => ?_, fun k' t w d ht hw hd => ?_⟩
    · have hshown := h.shown k'
      by_cases hk : k' = k
      · subst hk
        rw [hfree, Option.map_none, Option.getD_none] at hshown
        simp [Log.at_concat, State.edit, hshown, Tuple.shown]
      · rw [Log.at_concat, Edit.key_write, if_neg (Ne.symm hk), hshown]
        simp [State.edit, hk]
    · simp only [State.edit, Function.update_apply] at ht
      split at ht
      · obtain rfl := Option.some.inj ht
        obtain rfl := Option.some.inj hw
        exact hx
      · exact h.writer k' t w ht hw
    · simp only [State.edit, Function.update_apply] at ht
      split at ht
      · obtain rfl := Option.some.inj ht
        cases hd
      · exact h.deleter k' t d ht hd
    · simp only [State.edit, Function.update_apply] at ht
      split at ht
      · obtain rfl := Option.some.inj ht
        cases hd
      · exact h.nested k' t w d ht hw hd
  | erase k =>
    obtain ⟨⟨hhead, hfamily⟩, t₀, ht₀, hfree, hwriter⟩ := he
    have hx : s.levels x ≠ [] := by
      intro hnil
      simp [hnil] at hhead
    have hnew : (s.edit x (.erase k)).heap k = some { t₀ with deleter := some x } := by
      simp [State.edit, ht₀]
    have hother : ∀ k', k' ≠ k → (s.edit x (.erase k)).heap k' = s.heap k' := fun k' hk =>
      Function.update_of_ne hk _ _
    refine ⟨fun k' => ?_, fun k' t w ht hw => ?_, fun k' t d ht hd => ?_, fun k' t w d ht hw hd => ?_⟩
    · have hshown := h.shown k'
      by_cases hk : k' = k
      · subst hk
        rw [ht₀] at hshown
        rw [hnew]
        simp [Log.at_concat, hshown, hfree, Tuple.shown]
      · rw [Log.at_concat, Edit.key_erase, if_neg (Ne.symm hk), hshown, hother k' hk]
    · by_cases hk : k' = k
      · subst hk
        rw [hnew] at ht
        obtain rfl := Option.some.inj ht
        exact h.writer k' t₀ w ht₀ hw
      · exact h.writer k' t w (hother k' hk ▸ ht) hw
    · by_cases hk : k' = k
      · subst hk
        rw [hnew] at ht
        obtain rfl := Option.some.inj ht
        obtain rfl := Option.some.inj hd
        exact hx
      · exact h.deleter k' t d (hother k' hk ▸ ht) hd
    · by_cases hk : k' = k
      · subst hk
        rw [hnew] at ht
        obtain rfl := Option.some.inj ht
        obtain rfl := Option.some.inj hd
        exact hfamily w (hwriter w hw)
      · exact h.nested k' t w d (hother k' hk ▸ ht) hw hd

omit [DecidableEq ξ] in
theorem edits (h : Explains s l) {x : ξ} {es : List (Edit κ ν)} (hes : State.EditsLegal x s es) :
    Explains (s.edits x es) (l ++ Log.made x es) := by
  induction es generalizing s l with
  | nil => simpa [State.edits, Log.made] using h
  | cons e es ih =>
    have hrest := ih (h.edit hes.1) hes.2
    simpa [State.edits, Log.made] using hrest

/-! ### Ends -/

theorem closed (h : Explains s l) {xs : List ξ} {heap : κ → Option (Tuple ν ξ)}
    (hshown : ∀ k, (l.rest xs).at_ k = ((heap k).map (·.shown k)).getD [])
    (hfrom : ∀ k t, heap k = some t → ∃ t₀, s.heap k = some t₀ ∧
      (∀ w, t.writer = some w → t₀.writer = some w ∧ w ∉ xs) ∧
      ∀ d, t.deleter = some d → t₀.deleter = some d ∧ d ∉ xs) :
    Explains { levels := s.close xs, heap } (l.rest xs) := by
  refine ⟨hshown, fun k t w ht hw => ?_, fun k t d ht hd => ?_, fun k t w d ht hw hd => ?_⟩
  · obtain ⟨t₀, ht₀, hwriter, -⟩ := hfrom k t ht
    obtain ⟨hw, hopen⟩ := hwriter w hw
    simpa [State.close, hopen] using h.writer k t₀ w ht₀ hw
  · obtain ⟨t₀, ht₀, -, hdeleter⟩ := hfrom k t ht
    obtain ⟨hd, hopen⟩ := hdeleter d hd
    simpa [State.close, hopen] using h.deleter k t₀ d ht₀ hd
  · obtain ⟨t₀, ht₀, hwriter, hdeleter⟩ := hfrom k t ht
    obtain ⟨hw, hwopen⟩ := hwriter w hw
    obtain ⟨hd, hdopen⟩ := hdeleter d hd
    simpa [State.close, hwopen, hdopen] using h.nested k t₀ w d ht₀ hw hd

omit [DecidableEq ξ] in
/-- The writer of a tuple whose deletion commits has committed or commits too. -/
theorem writer_commits (h : Explains s l) {x : ξ} {xs : List ξ} (hxs : s.CommitLegal x xs) {k : κ}
    {t : Tuple ν ξ} {w d : ξ} (ht : s.heap k = some t) (hw : t.writer = some w)
    (hd : t.deleter = some d) (hmem : d ∈ xs) : w ∈ xs := by
  have hsuffix := h.nested k t w d ht hw hd
  rw [(hxs d).mp hmem, List.suffix_cons_iff, List.suffix_nil] at hsuffix
  exact (hxs w).mpr (hsuffix.resolve_right (h.writer k t w ht hw))

omit [DecidableEq ξ] in
/-- A rollback of the writer of a tuple is one of its deletion. -/
theorem deleter_aborts (h : Explains s l) {x : ξ} {xs : List ξ} (hxs : s.AbortLegal x xs) {k : κ}
    {t : Tuple ν ξ} {w d : ξ} (ht : s.heap k = some t) (hw : t.writer = some w)
    (hd : t.deleter = some d) (hmem : w ∈ xs) : d ∈ xs :=
  (hxs d).mpr ((h.nested k t w d ht hw hd).subset ((hxs w).mp hmem))

theorem commit (h : Explains s l) {x : ξ} {xs : List ξ} (hxs : s.CommitLegal x xs) :
    Explains (s.commit xs) (l.rest xs) := by
  refine h.closed (fun k => ?_) fun k t ht => ?_
  · rw [Log.rest_at, h.shown k]
    cases hk : s.heap k with
    | none => simp [Log.rest]
    | some t =>
      have hshown := t.shown_commit k fun w d hw hd => h.writer_commits hxs hk hw hd
      simpa [State.commit, hk] using hshown.symm
  · obtain ⟨t₀, ht₀, hcommit⟩ := Option.bind_eq_some_iff.mp ht
    exact ⟨t₀, ht₀, Tuple.of_commit hcommit⟩

theorem abort (h : Explains s l) {x : ξ} {xs : List ξ} (hxs : s.AbortLegal x xs) :
    Explains (s.abort xs) (l.rest xs) := by
  refine h.closed (fun k => ?_) fun k t ht => ?_
  · rw [Log.rest_at, h.shown k]
    cases hk : s.heap k with
    | none => simp [Log.rest]
    | some t =>
      have hshown := t.shown_abort k fun w d hw hd => h.deleter_aborts hxs hk hw hd
      simpa [State.abort, hk] using hshown.symm
  · obtain ⟨t₀, ht₀, habort⟩ := Option.bind_eq_some_iff.mp ht
    exact ⟨t₀, ht₀, Tuple.of_abort habort⟩

/-! ### What the log gives -/

/-- The edits of a transaction that commits turn the committed rows into the new ones. -/
theorem rows_commit (h : Explains s l) {x : ξ} {xs : List ξ} (hxs : s.CommitLegal x xs) :
    (s.commit xs).rows = applyEdits s.rows (l.taken xs) := by
  funext k
  rw [applyEdits_filter, Log.taken_at, h.shown k]
  cases hk : s.heap k with
  | none => simp [State.rows, State.commit, Log.taken, hk]
  | some t =>
    have hrow : s.rows k = t.row := by simp [State.rows, hk]
    rw [Option.map_some, Option.getD_some, t.applyEdits_shown hrow fun w d hw hd =>
      h.writer_commits hxs hk hw hd]
    simp [State.rows, State.commit, hk]

/-- What a transaction's own edits leave at an address is the version of its tuple. -/
theorem of_own (h : Explains s l) {x : ξ} {k : κ} {v : ν}
    (hv : applyEdits (fun _ => none) (l.taken [x]) k = some v) :
    ∃ t, s.heap k = some t ∧ t.ver = v ∧ t.writer = some x := by
  rw [applyEdits_filter, Log.taken_at, h.shown k] at hv
  cases hk : s.heap k with
  | none => simp [hk, Log.taken] at hv
  | some t =>
    refine ⟨t, rfl, ?_⟩
    rw [hk, Option.map_some, Option.getD_some] at hv
    obtain ⟨ver, writer, deleter⟩ := t
    -- A removal leaves nothing, so the last own edit is the write.
    by_cases hd : deleter = some x
    · subst hd
      cases writer with
      | none => simp [Tuple.shown, Log.taken] at hv
      | some w =>
        by_cases hw : w = x
        · simp [Tuple.shown, Log.taken, hw] at hv
        · simp [Tuple.shown, Log.taken, hw] at hv
    · have hdeleter : (deleter.toList.map fun d => (d, (.erase k : Edit κ ν))).filter (·.1 = x) = [] := by
        cases deleter with
        | none => rfl
        | some d =>
          have hne : d ≠ x := fun heq => hd (by rw [heq])
          simp [hne]
      cases writer with
      | none => simp [Tuple.shown, Log.taken, hdeleter] at hv
      | some w =>
        by_cases hw : w = x
        · simpa [Tuple.shown, Log.taken, hdeleter, hw] using hv
        · simp [Tuple.shown, Log.taken, hdeleter, hw] at hv

/-- A tuple that its writer has not removed is what the writer's own edits leave. -/
theorem own (h : Explains s l) {x : ξ} {k : κ} {t : Tuple ν ξ} (ht : s.heap k = some t)
    (hw : t.writer = some x) (hd : t.deleter ≠ some x) :
    applyEdits (fun _ => none) (l.taken [x]) k = some t.ver := by
  rw [applyEdits_filter, Log.taken_at, h.shown k, ht]
  obtain ⟨ver, writer, deleter⟩ := t
  obtain rfl : writer = some x := hw
  cases deleter with
  | none => simp [Tuple.shown, Log.taken]
  | some d =>
    have hne : d ≠ x := fun heq => hd (by rw [heq])
    simp [Tuple.shown, Log.taken, hne]

end Explains

end NestedTx
