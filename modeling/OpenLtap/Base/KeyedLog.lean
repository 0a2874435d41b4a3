-- SUMMARY: A store addressed by location against the log of its changes collapsed by key.
import Mathlib.Data.Finset.Basic
import Mathlib.Logic.Function.Basic

/-!
# Logging by key what is stored by address

A heap maps addresses to rows, and every change of it is logged by the row it wrote
or removed. Readers collapse the log by a key of the rows: the last entry of a key is
the current row, unless it is a tombstone. A row that is moved to another address
under a new key leaves no entry under its old key. `view_eq_heap_iff` says exactly
when the collapsed log still equals the heap. Collapsed by address instead, the log
still shows a row at the address that it was moved away from: `Shown` keeps track of
these addresses.
-/

namespace KeyedLog

variable {α ρ κ : Type*} [DecidableEq α] (key : ρ → κ)

inductive Change (α ρ : Type*) where
  | put (a : α) (r : ρ)
  | move (a b : α) (r : ρ)
  | del (a : α)

abbrev Heap (α ρ : Type*) := α → Option ρ

/-! ## Heaps and their logs -/

def Heap.apply (h : Heap α ρ) : Change α ρ → Heap α ρ
  | .put a r => Function.update h a (some r)
  | .move a b r => Function.update (Function.update h a none) b (some r)
  | .del a => Function.update h a none

def Heap.applyAll (h : Heap α ρ) (cs : List (Change α ρ)) : Heap α ρ := cs.foldl Heap.apply h

/-- Rows are written to free addresses and removed from used ones. -/
def Change.Legal (h : Heap α ρ) : Change α ρ → Prop
  | .put a _ => h a = none
  | .move a b _ => h a ≠ none ∧ h b = none
  | .del a => h a ≠ none

def LegalFrom (h : Heap α ρ) : List (Change α ρ) → Prop
  | [] => True
  | c :: cs => c.Legal h ∧ LegalFrom (h.apply c) cs

/-- The logged row, and whether the entry is a tombstone. -/
def Change.entry (h : Heap α ρ) : Change α ρ → Option (ρ × Bool)
  | .put _ r | .move _ _ r => some (r, false)
  | .del a => (h a).map fun r => (r, true)

def log (h : Heap α ρ) : List (Change α ρ) → List (ρ × Bool)
  | [] => []
  | c :: cs => (c.entry h).toList ++ log (h.apply c) cs

/-- The row that the last entry of a key shows. -/
def view [DecidableEq κ] (k : κ) (l : List (ρ × Bool)) : Option ρ :=
  (l.filter (key ·.1 = k)).getLast?.bind fun e => if e.2 then none else some e.1

@[simp] theorem Heap.applyAll_nil (h : Heap α ρ) : h.applyAll [] = h := rfl

@[simp] theorem Heap.applyAll_cons (h : Heap α ρ) (c : Change α ρ) (cs : List (Change α ρ)) :
    h.applyAll (c :: cs) = (h.apply c).applyAll cs := rfl

theorem Heap.applyAll_append (h : Heap α ρ) (cs ds : List (Change α ρ)) :
    h.applyAll (cs ++ ds) = (h.applyAll cs).applyAll ds := by
  simp [Heap.applyAll]

theorem log_append (h : Heap α ρ) (cs ds : List (Change α ρ)) :
    log h (cs ++ ds) = log h cs ++ log (h.applyAll cs) ds := by
  induction cs generalizing h with
  | nil => rfl
  | cons c cs ih => simp [log, ih]

theorem LegalFrom.append {h : Heap α ρ} {cs ds : List (Change α ρ)}
    (hl : LegalFrom h (cs ++ ds)) : LegalFrom (h.applyAll cs) ds := by
  induction cs generalizing h with
  | nil => exact hl
  | cons c cs ih => exact ih hl.2

theorem LegalFrom.left {h : Heap α ρ} {cs ds : List (Change α ρ)} (hl : LegalFrom h (cs ++ ds)) :
    LegalFrom h cs := by
  induction cs generalizing h with
  | nil => trivial
  | cons c cs ih => exact ⟨hl.1, ih hl.2⟩

/-! ## Rows that stay -/

/-- The row at `a` is not moved away. -/
def Stays (a : α) (cs : List (Change α ρ)) : Prop := ∀ c ∈ cs, ∀ b r, c ≠ .move a b r

omit [DecidableEq α] in
theorem stays_cons {a : α} {c : Change α ρ} {cs : List (Change α ρ)} :
    Stays a (c :: cs) ↔ (∀ b r, c ≠ .move a b r) ∧ Stays a cs := by
  simp [Stays]

/-- As long as a key is not logged, its rows are the ones there were, less those that are
moved away. -/
theorem applyAll_eq_some_iff {h : Heap α ρ} {cs : List (Change α ρ)} (hl : LegalFrom h cs)
    {k : κ} (hlog : ∀ e ∈ log h cs, key e.1 ≠ k) {a : α} {r : ρ} (hr : key r = k) :
    h.applyAll cs a = some r ↔ h a = some r ∧ Stays a cs := by
  induction cs generalizing h with
  | nil => simp [Stays]
  | cons c cs ih =>
    obtain ⟨hc, hl⟩ := hl
    have hentry : ∀ e, c.entry h = some e → key e.1 ≠ k := fun e he =>
      hlog e (by simp [log, he])
    have ih := ih hl fun e he => hlog e (by simp [log, he])
    rw [Heap.applyAll_cons, ih, stays_cons]
    cases c with
    | put b s =>
      have hs : key s ≠ k := hentry (s, false) rfl
      have hb : h b = none := hc
      by_cases hab : a = b
      · subst hab
        have : s ≠ r := fun heq => hs (heq ▸ hr)
        simp [Heap.apply, hb, this]
      · simp [Heap.apply, hab]
    | move b d s =>
      have hs : key s ≠ k := hentry (s, false) rfl
      obtain ⟨hb, hd⟩ := hc
      by_cases had : a = d
      · subst had
        have : s ≠ r := fun heq => hs (heq ▸ hr)
        simp [Heap.apply, hd, this]
      · by_cases hab : a = b
        · subst hab
          simp [Heap.apply, had]
        · have : ∀ (c : α) (r : ρ), Change.move b d s ≠ .move a c r := by
            intro c r heq
            cases heq
            exact hab rfl
          simp [Heap.apply, had, hab, this]
    | del b =>
      by_cases hab : a = b
      · subst hab
        have : h a ≠ some r := fun heq => hentry (r, true) (by simp [Change.entry, heq]) hr
        simp [Heap.apply, this]
      · simp [Heap.apply, hab]

/-! ## The last entry of a key -/

theorem exists_last_entry {h : Heap α ρ} {cs : List (Change α ρ)} {k : κ}
    (hk : ∃ e ∈ log h cs, key e.1 = k) :
    ∃ pre c post e, cs = pre ++ c :: post ∧ c.entry (h.applyAll pre) = some e ∧ key e.1 = k ∧
      ∀ e' ∈ log (h.applyAll (pre ++ [c])) post, key e'.1 ≠ k := by
  induction cs generalizing h with
  | nil => simp [log] at hk
  | cons c cs ih =>
    by_cases htail : ∃ e ∈ log (h.apply c) cs, key e.1 = k
    · obtain ⟨pre, d, post, e, rfl, he, hkey, hpost⟩ := ih htail
      exact ⟨c :: pre, d, post, e, rfl, he, hkey, hpost⟩
    · obtain ⟨e, he, hkey⟩ := hk
      simp only [not_exists, not_and] at htail
      rcases List.mem_append.mp he with he | he
      · exact ⟨[], c, cs, e, rfl, Option.mem_toList.mp he, hkey, htail⟩
      · exact absurd hkey (htail e he)

theorem view_eq_of_last [DecidableEq κ] {h : Heap α ρ} {pre post : List (Change α ρ)} {c : Change α ρ}
    {e : ρ × Bool} {k : κ} (he : c.entry (h.applyAll pre) = some e) (hkey : key e.1 = k)
    (hpost : ∀ e' ∈ log (h.applyAll (pre ++ [c])) post, key e'.1 ≠ k) :
    view key k (log h (pre ++ c :: post)) = if e.2 then none else some e.1 := by
  have hlog : log h (pre ++ c :: post) =
      log h pre ++ [e] ++ log (h.applyAll (pre ++ [c])) post := by
    rw [log_append, log, he, Heap.applyAll_append]
    simp
  have hnil : (log (h.applyAll (pre ++ [c])) post).filter (key ·.1 = k) = [] :=
    List.filter_eq_nil_iff.mpr (by simpa using hpost)
  simp [view, hlog, hnil, hkey]

theorem view_eq_none_of_not_logged [DecidableEq κ] {k : κ} {l : List (ρ × Bool)} (h : ∀ e ∈ l, key e.1 ≠ k) :
    view key k l = none := by
  have hnil : l.filter (key ·.1 = k) = [] := List.filter_eq_nil_iff.mpr (by simpa using h)
  simp [view, hnil]

theorem key_of_view [DecidableEq κ] {k : κ} {l : List (ρ × Bool)} {r : ρ} (h : view key k l = some r) :
    key r = k := by
  simp only [view, Option.bind_eq_some_iff] at h
  obtain ⟨e, he, heq⟩ := h
  have hmem := List.mem_of_getLast? he
  split at heq
  · cases heq
  · cases heq
    simpa using (List.mem_filter.mp hmem).2

/-! ## When the view is the heap -/

/-- After the last change that logs a key: if it wrote a row, that row stays at some
address. If it removed one, no other row of the key stays. -/
def Settled (cs : List (Change α ρ)) : Prop :=
  ∀ pre c post, cs = pre ++ c :: post → ∀ e, c.entry (Heap.applyAll (fun _ => none) pre) = some e →
    (∀ e' ∈ log (Heap.applyAll (fun _ => none) (pre ++ [c])) post, key e'.1 ≠ key e.1) →
    if e.2 then
      ∀ a r, Heap.applyAll (fun _ => none) (pre ++ [c]) a = some r → key r = key e.1 →
        ¬ Stays a post
    else ∃ a, Heap.applyAll (fun _ => none) (pre ++ [c]) a = some e.1 ∧ Stays a post

/-- For a history with unique keys at its end, the log collapsed by key is the heap if and
only if every key is settled. -/
theorem view_eq_heap_iff [DecidableEq κ] {cs : List (Change α ρ)} (hl : LegalFrom (fun _ => none) cs)
    (huniq : ∀ a b r s, Heap.applyAll (fun _ => none) cs a = some r →
      Heap.applyAll (fun _ => none) cs b = some s → key r = key s → r = s) :
    (∀ r, view key (key r) (log (fun _ => none) cs) = some r ↔
      ∃ a, Heap.applyAll (fun _ => none) cs a = some r) ↔ Settled key cs := by
  -- After the last entry of a key, its live rows are the ones that stay.
  have hlive : ∀ pre c post, cs = pre ++ c :: post → ∀ k,
      (∀ e' ∈ log (Heap.applyAll (fun _ => none) (pre ++ [c])) post, key e'.1 ≠ k) →
      ∀ a r, key r = k → (Heap.applyAll (fun _ => none) cs a = some r ↔
        Heap.applyAll (fun _ => none) (pre ++ [c]) a = some r ∧ Stays a post) := by
    rintro pre c post rfl k hpost a r hr
    rw [← List.singleton_append, ← List.append_assoc] at hl ⊢
    rw [Heap.applyAll_append (fun _ => none) (pre ++ [c]) post]
    exact applyAll_eq_some_iff key hl.append hpost hr
  constructor
  · intro hview pre c post hcs e he hpost
    have hlive := hlive pre c post hcs (key e.1) hpost
    have hlast := view_eq_of_last key he rfl hpost
    rw [← hcs] at hlast
    cases htomb : e.2 with
    | true =>
      intro a r ha hr hstays
      have : view key (key r) (log (fun _ => none) cs) = some r :=
        (hview r).mpr ⟨a, (hlive a r hr).mpr ⟨ha, hstays⟩⟩
      simp [hr, hlast, htomb] at this
    | false =>
      obtain ⟨a, ha⟩ := (hview e.1).mp (by simp [hlast, htomb])
      obtain ⟨ha, hstays⟩ := (hlive a e.1 rfl).mp ha
      exact ⟨a, ha, hstays⟩
  · intro hsettled r
    by_cases hk : ∃ e ∈ log (fun _ => none) cs, key e.1 = key r
    · obtain ⟨pre, c, post, e, hcs, he, hkey, hpost⟩ := exists_last_entry key hk
      have hlive := hlive pre c post hcs (key r) hpost
      have hlast := view_eq_of_last key he hkey hpost
      rw [← hcs] at hlast
      have hset := hsettled pre c post hcs e he (hkey ▸ hpost)
      rw [hlast]
      cases htomb : e.2 with
      | true =>
        simp only [htomb, if_true] at hset ⊢
        simp only [reduceCtorEq, false_iff, not_exists]
        intro a ha
        obtain ⟨ha, hstays⟩ := (hlive a r rfl).mp ha
        exact hset a r ha hkey.symm hstays
      | false =>
        simp only [htomb, Bool.false_eq_true, if_false, Option.some.injEq] at hset ⊢
        obtain ⟨a, ha, hstays⟩ := hset
        have ha := (hlive a e.1 hkey).mpr ⟨ha, hstays⟩
        constructor
        · rintro rfl
          exact ⟨a, ha⟩
        · rintro ⟨b, hb⟩
          exact huniq a b e.1 r ha hb hkey
    · simp only [not_exists, not_and] at hk
      rw [view_eq_none_of_not_logged key hk]
      simp only [reduceCtorEq, false_iff, not_exists]
      intro a ha
      have := (applyAll_eq_some_iff key hl hk rfl).mp ha
      simp at this

/-! ## Collapsing by address -/

/-- The address under which a change is logged, and the row it leaves there. -/
def Change.shows : Change α ρ → α × Option ρ
  | .put a r => (a, some r)
  | .move _ b r => (b, some r)
  | .del a => (a, none)

/-- The addresses that still show a row that was moved away. -/
def Change.stale (h : Heap α ρ) (old : Finset α) : Change α ρ → Finset α
  | .put a _ | .del a => old.erase a
  | .move a b _ => (if (h a).isSome then insert a old else old).erase b

def staleAll (h : Heap α ρ) (old : Finset α) : List (Change α ρ) → Finset α
  | [] => old
  | c :: cs => staleAll (h.apply c) (c.stale h old) cs

/-- What is shown is the heap, apart from rows that were moved away. -/
structure Shown (shown h : Heap α ρ) (stale : Finset α) : Prop where
  fresh : ∀ a, a ∉ stale → shown a = h a
  moved : ∀ a ∈ stale, (shown a).isSome ∧ h a = none

theorem Shown.apply {shown h : Heap α ρ} {stale : Finset α} (hs : Shown shown h stale)
    (c : Change α ρ) :
    Shown (Function.update shown c.shows.1 c.shows.2) (h.apply c) (c.stale h stale) := by
  have hother : ∀ a b, a ≠ b → a ∉ stale.erase b → shown a = h a := fun a b hab hnot =>
    hs.fresh a fun hmem => hnot (Finset.mem_erase.mpr ⟨hab, hmem⟩)
  cases c with
  | put b | del b =>
    refine ⟨fun a ha => ?_, fun a ha => ?_⟩
    · by_cases hab : a = b
      · simp [Change.shows, Heap.apply, hab]
      · simpa [Change.shows, Heap.apply, hab] using hother a b hab ha
    · obtain ⟨hab, hmem⟩ := Finset.mem_erase.mp ha
      simpa [Change.shows, Heap.apply, hab] using hs.moved a hmem
  | move b d r =>
    refine ⟨fun a ha => ?_, fun a ha => ?_⟩
    · by_cases had : a = d
      · simp [Change.shows, Heap.apply, had]
      · simp only [Change.stale, Finset.mem_erase, not_and] at ha
        have ha := ha had
        by_cases hab : a = b
        · -- The address was empty, or it would be stale now.
          subst hab
          have hnone : h a = none := by
            by_contra hne
            rw [if_pos (Option.isSome_iff_ne_none.mpr hne)] at ha
            simp at ha
          have hfresh := hs.fresh a (by simpa [hnone] using ha)
          simp [Change.shows, Heap.apply, had, hfresh, hnone]
        · have hfresh := hs.fresh a fun hmem => ha (by split <;> simp [hmem])
          simp [Change.shows, Heap.apply, had, hab, hfresh]
    · obtain ⟨had, hmem⟩ := Finset.mem_erase.mp ha
      by_cases hab : a = b
      · subst hab
        refine ⟨?_, by simp [Heap.apply, had]⟩
        simp only [Change.shows, Function.update_of_ne had]
        by_cases hold : a ∈ stale
        · exact (hs.moved a hold).1
        · rw [hs.fresh a hold]
          by_contra hnot
          rw [if_neg hnot] at hmem
          exact hold hmem
      · have hold : a ∈ stale := by
          split at hmem
          · exact (Finset.mem_insert.mp hmem).resolve_left hab
          · exact hmem
        simpa [Change.shows, Heap.apply, had, hab] using hs.moved a hold

omit [DecidableEq α] in
theorem Shown.eq_iff {shown h : Heap α ρ} {stale : Finset α} (hs : Shown shown h stale) :
    (∀ a, shown a = h a) ↔ stale = ∅ := by
  constructor
  · intro heq
    refine Finset.eq_empty_of_forall_notMem fun a ha => ?_
    obtain ⟨hsome, hnone⟩ := hs.moved a ha
    simp [heq a, hnone] at hsome
  · rintro rfl a
    exact hs.fresh a (Finset.notMem_empty a)

end KeyedLog
