-- SUMMARY: Pages of HOT chains, and which version of each chain is emitted.
import Mathlib.Data.List.Chain
import Mathlib.Algebra.BigOperators.Group.Finset.Sigma
import OpenLtap.Page.Fragment
import OpenLtap.Page.Visibility

/-!
# HOT chains

A row that is updated in place leaves a chain of versions on its page, each with a link to the
next. The versions of a chain commit in order, so at most one of them is live. A walk that
does not find it goes on behind the end of the chain, where the last link may be stale.
-/

namespace Ltap

/-! ## Chains -/

/-- The inserter committed, and nobody who did removed the version. -/
def Log.Live (log : Log) (hdr : TupleHdr) : Prop := log.DidCommit hdr.xmin ∧ ¬ log.Removed hdr.xmax hdr.infomask

/-- The walk goes on behind the version. -/
abbrev TupleHdr.LeadsOn (hdr : TupleHdr) (block offnum : Nat) : Prop :=
  hdr.infomask2 &&& heapHotUpdated ≠ 0 ∧ hdr.ctidBlock = block ∧ hdr.ctidOff ≠ 0 ∧ hdr.ctidOff ≠ offnum

/-- The first version was HOT-updated to the second one. -/
structure TupleHdr.Precedes (hdr hdr' : TupleHdr) (block offnum' : Nat) : Prop where
  hotUpdated : hdr.infomask2 &&& heapHotUpdated ≠ 0
  notLockOnly : hdr.infomask &&& heapXmaxLockOnly = 0
  ctidBlock : hdr.ctidBlock = block
  ctidOff : hdr.ctidOff = offnum'
  heapOnly : hdr'.infomask2 &&& heapOnlyTuple ≠ 0
  xmin : hdr'.xmin = hdr.xmax

def Successor (page : Bytes) (block offnum offnum' : Nat) : Prop :=
  ∃ hdr hdr', HeaderAt page offnum hdr ∧ HeaderAt page offnum' hdr' ∧ hdr.Precedes hdr' block offnum'

/-- The versions of a row, by offset number, and the line pointer that leads to the first one: its own, or a redirect
to it. -/
structure HotChain (page : Bytes) (block : Nat) where
  root : Nat
  first : Nat
  rest : List Nat
  start :
    (root = first ∧ ∃ hdr, HeaderAt page first hdr ∧ hdr.infomask2 &&& heapOnlyTuple = 0) ∨
      (∃ lp hdr, linePointer page root = .ok lp ∧ lp.flags = lpRedirect ∧ lp.off = first ∧
        HeaderAt page first hdr ∧ hdr.infomask2 &&& heapOnlyTuple ≠ 0)
  linked : (first :: rest).IsChain (Successor page block)

namespace HotChain

variable {page : Bytes} {block : Nat} (c : HotChain page block)

def members : List Nat := c.first :: c.rest

def last : Nat := c.members.getLast (List.cons_ne_nil _ _)

/-- A member is live. -/
def HasLive (log : Log) : Prop := ∃ m ∈ c.members, ∃ hdr, HeaderAt page m hdr ∧ log.Live hdr

end HotChain

/-- The line pointer is normal. -/
def NormalAt (page : Bytes) (offnum : Nat) (lp : LinePointer) : Prop :=
  offnum ∈ offnums page ∧ linePointer page offnum = .ok lp ∧ lp.flags = lpNormal

/-- A page whose normal tuples form HOT chains, with readable rows, under a log in which the members of a chain commit
in order. -/
structure HotPage (page : Bytes) (block : Nat) (log : Log) (z : Codecs) (desc : TableDesc) (toast : ToastCache)
    (chains : List (HotChain page block)) : Prop where
  length : page.length = pageSize
  pointers : ∀ off ∈ offnums page, ∃ lp, linePointer page off = .ok lp
  fits : ∀ off lp, NormalAt page off lp → sizeofHeapTupleHeader ≤ lp.len ∧ lp.off + lp.len ≤ pageSize
  disjoint : ∀ off lp off' lp', NormalAt page off lp → NormalAt page off' lp' → off ≠ off' →
    lp.off + lp.len ≤ lp'.off ∨ lp'.off + lp'.len ≤ lp.off
  /-- Every normal tuple is in one chain, once. -/
  nodup : (chains.flatMap HotChain.members).Nodup
  covered : ∀ off, off ∈ chains.flatMap HotChain.members ↔ ∃ lp, NormalAt page off lp
  roots : ∀ c ∈ chains, c.root ∈ offnums page
  redirects : ∀ off ∈ offnums page, ∀ lp, linePointer page off = .ok lp → lp.flags = lpRedirect →
    ∃ c ∈ chains, c.root = off
  xmin_ne : ∀ c ∈ chains, ∀ m ∈ c.members, ∀ hdr, HeaderAt page m hdr → hdr.xmin ≠ invalidXid
  /-- No multixact has an updater. -/
  plain : ∀ c ∈ chains, ∀ m ∈ c.members, ∀ hdr, HeaderAt page m hdr →
    hdr.xmax = invalidXid ∨ hdr.infomask &&& heapXmaxIsMulti = 0 ∨ hdr.infomask &&& heapXmaxLockOnly ≠ 0
  ordered : ∀ c ∈ chains, c.members.IsChain fun m m' => ∀ hdr hdr', HeaderAt page m hdr → HeaderAt page m' hdr' →
    log.DidCommit hdr'.xmin → log.DidCommit hdr.xmin
  decodable : ∀ c ∈ chains, ∀ m ∈ c.members, ∃ row attrs, decodeTupleFromPage z page m desc toast = .ok (row, attrs)

/-- The row of a live version, at the root of its chain. -/
def LiveRow (page : Bytes) (block : Nat) (log : Log) (z : Codecs) (desc : TableDesc) (toast : ToastCache)
    (chains : List (HotChain page block)) (r : FragmentRow) : Prop :=
  r.block = block ∧ ∃ c ∈ chains, c.root = r.offnum ∧ ∃ m ∈ c.members,
    (∃ hdr, HeaderAt page m hdr ∧ log.Live hdr) ∧
      ∃ attrs, decodeTupleFromPage z page m desc toast = .ok (r.row, attrs)

/-- The rows of the page are those of the live versions, each once and at its root, in the order of the roots. -/
def Collapses (page : Bytes) (block : Nat) (log : Log) (z : Codecs) (desc : TableDesc) (toast : ToastCache)
    (chains : List (HotChain page block)) : Prop :=
  ∃ rows, emitPage page block log.source z desc toast = .ok rows ∧ rows.Pairwise (·.offnum < ·.offnum) ∧
    ∀ r, r ∈ rows ↔ LiveRow page block log z desc toast chains r

/-! ## Walks that find nothing -/

section DeadEnd

variable (page : Bytes) (block : Nat) (clog : ClogSource)

/-- The walk from a line pointer on ends without a visible version, after so many line pointers. -/
inductive DeadEnd : Nat → Nat → Prop where
  | empty {off : Nat} {lp : LinePointer} :
    linePointer page off = .ok lp → lp.flags ≠ lpNormal → DeadEnd 1 off
  | stop {off : Nat} {hdr : TupleHdr} :
    HeaderAt page off hdr → clog.tupleVisible hdr.xmin hdr.xmax hdr.infomask = .ok false →
    ¬ hdr.LeadsOn block off → DeadEnd 1 off
  | link {off n : Nat} {hdr : TupleHdr} :
    HeaderAt page off hdr → clog.tupleVisible hdr.xmin hdr.xmax hdr.infomask = .ok false →
    hdr.LeadsOn block off → DeadEnd n hdr.ctidOff → DeadEnd (n + 1) off

variable {page block clog}

/-- One version of a walk. -/
theorem visibleFrom_succ {start n off : Nat} {hdr : TupleHdr} {visible : Bool} (hhdr : HeaderAt page off hdr)
    (hvisible : clog.tupleVisible hdr.xmin hdr.xmax hdr.infomask = .ok visible) :
    visibleFrom page block clog start (n + 1) off =
      if visible then .ok (some off)
      else if hdr.LeadsOn block off then visibleFrom page block clog start n hdr.ctidOff else .ok none := by
  obtain ⟨lp, hlp, hnormal, hread⟩ := hhdr
  simp only [visibleFrom, hlp, bind, Except.bind, hnormal, ne_eq, not_true_eq_false, if_false, hread, hvisible]
  rfl

theorem DeadEnd.visibleFrom {start n fuel off : Nat} (h : DeadEnd page block clog n off) (hn : n ≤ fuel) :
    visibleFrom page block clog start fuel off = .ok none := by
  induction h generalizing fuel with
  | empty hlp hflags =>
    obtain ⟨fuel, rfl⟩ := Nat.exists_eq_add_of_le' hn
    simp only [Ltap.visibleFrom, hlp, bind, Except.bind, if_pos hflags]
    rfl
  | stop hhdr hvisible hstop =>
    obtain ⟨fuel, rfl⟩ := Nat.exists_eq_add_of_le' hn
    rw [visibleFrom_succ hhdr hvisible, if_neg Bool.false_ne_true, if_neg hstop]
  | link hhdr hvisible hon _ ih =>
    obtain ⟨fuel, rfl⟩ := Nat.exists_eq_add_of_le' (show 1 ≤ fuel by omega)
    rw [visibleFrom_succ hhdr hvisible, if_neg Bool.false_ne_true, if_pos hon]
    exact ih (by omega)

/-- A walk that ends without a version has come to a dead end. -/
theorem exists_deadEnd {start fuel off : Nat} (h : visibleFrom page block clog start fuel off = .ok none) :
    ∃ n ≤ fuel, DeadEnd page block clog n off := by
  induction fuel generalizing off with
  | zero => cases h
  | succ fuel ih =>
    rw [visibleFrom] at h
    obtain ⟨lp, hlp, h⟩ := bind_eq_ok.mp h
    by_cases hnormal : lp.flags = lpNormal
    swap
    · exact ⟨1, by omega, .empty hlp hnormal⟩
    rw [if_neg (not_not.mpr hnormal)] at h
    obtain ⟨hdr, hread, h⟩ := bind_eq_ok.mp h
    obtain ⟨visible, hvisible, h⟩ := bind_eq_ok.mp h
    have hhdr : HeaderAt page off hdr := ⟨lp, hlp, hnormal, hread⟩
    cases visible with
    | true => cases h
    | false =>
      rw [if_neg Bool.false_ne_true] at h
      by_cases hon : hdr.LeadsOn block off
      · rw [if_pos hon] at h
        obtain ⟨n, hn, hdead⟩ := ih h
        exact ⟨n + 1, by omega, .link hhdr hvisible hon hdead⟩
      · exact ⟨1, by omega, .stop hhdr hvisible hon⟩

end DeadEnd

/-! ## Walks along a chain -/

/-- The last versions of a chain, from some version on. -/
structure Stretch (page : Bytes) (block : Nat) (log : Log) (ms : List Nat) : Prop where
  linked : ms.IsChain (Successor page block)
  ordered : ms.IsChain fun m m' => ∀ hdr hdr', HeaderAt page m hdr → HeaderAt page m' hdr' →
    log.DidCommit hdr'.xmin → log.DidCommit hdr.xmin
  nodup : ms.Nodup
  positive : ∀ m ∈ ms, m ≠ 0
  header : ∀ m ∈ ms, ∃ hdr, HeaderAt page m hdr
  xmin_ne : ∀ m ∈ ms, ∀ hdr, HeaderAt page m hdr → hdr.xmin ≠ invalidXid
  plain : ∀ m ∈ ms, ∀ hdr, HeaderAt page m hdr →
    hdr.xmax = invalidXid ∨ hdr.infomask &&& heapXmaxIsMulti = 0 ∨ hdr.infomask &&& heapXmaxLockOnly ≠ 0

namespace Stretch

variable {page : Bytes} {block : Nat} {log : Log} {m m' x : Nat} {rest ms : List Nat} {hdr hdr' : TupleHdr}

theorem tail (h : Stretch page block log (m :: rest)) : Stretch page block log rest where
  linked := h.linked.tail
  ordered := h.ordered.tail
  nodup := h.nodup.of_cons
  positive x hx := h.positive x (List.mem_cons_of_mem m hx)
  header x hx := h.header x (List.mem_cons_of_mem m hx)
  xmin_ne x hx := h.xmin_ne x (List.mem_cons_of_mem m hx)
  plain x hx := h.plain x (List.mem_cons_of_mem m hx)

/-- A version is visible exactly if it is live. -/
theorem visible (h : Stretch page block log ms) (hm : m ∈ ms) (hhdr : HeaderAt page m hdr) :
    ∃ visible, log.source.tupleVisible hdr.xmin hdr.xmax hdr.infomask = .ok visible ∧
      (visible = true ↔ log.Live hdr) :=
  log.tupleVisible_eq (h.xmin_ne m hm hdr hhdr) (h.plain m hm hdr hhdr)

theorem hidden (h : Stretch page block log ms) (hm : m ∈ ms) (hhdr : HeaderAt page m hdr) (hnot : ¬ log.Live hdr) :
    log.source.tupleVisible hdr.xmin hdr.xmax hdr.infomask = .ok false := by
  obtain ⟨visible, hvisible, hlive⟩ := h.visible hm hhdr
  rw [hvisible, Bool.eq_false_iff.mpr (mt hlive.mp hnot)]

theorem precedes (h : Stretch page block log (m :: m' :: rest)) (hhdr : HeaderAt page m hdr)
    (hhdr' : HeaderAt page m' hdr') : hdr.Precedes hdr' block m' := by
  obtain ⟨hdr₁, hdr₂, hhdr₁, hhdr₂, hprecedes⟩ := (List.isChain_cons_cons.mp h.linked).1
  obtain rfl := hhdr.unique hhdr₁
  obtain rfl := hhdr'.unique hhdr₂
  exact hprecedes

/-- The walk goes on from each version to the next. -/
theorem leadsOn (h : Stretch page block log (m :: m' :: rest)) (hhdr : HeaderAt page m hdr) :
    hdr.LeadsOn block m ∧ hdr.ctidOff = m' := by
  obtain ⟨hdr', hhdr'⟩ := h.header m' (by simp)
  have hprecedes := h.precedes hhdr hhdr'
  have hne : m ≠ m' := by
    rintro rfl
    exact (List.nodup_cons.mp h.nodup).1 List.mem_cons_self
  rw [TupleHdr.LeadsOn, hprecedes.ctidOff]
  exact ⟨⟨hprecedes.hotUpdated, hprecedes.ctidBlock, h.positive m' (by simp), hne.symm⟩, rfl⟩

/-- Versions commit in order. -/
theorem committed_first (h : Stretch page block log (m :: rest)) (hhdr : HeaderAt page m hdr) (hx : x ∈ m :: rest)
    (hhdr' : HeaderAt page x hdr') (hcommitted : log.DidCommit hdr'.xmin) : log.DidCommit hdr.xmin := by
  induction rest generalizing m hdr with
  | nil =>
    obtain rfl := List.mem_singleton.mp hx
    exact hhdr.unique hhdr' ▸ hcommitted
  | cons m' rest ih =>
    rcases List.mem_cons.mp hx with rfl | hx
    · exact hhdr.unique hhdr' ▸ hcommitted
    · obtain ⟨hdr₁, hhdr₁⟩ := h.header m' (by simp)
      exact (List.isChain_cons_cons.mp h.ordered).1 hdr hdr₁ hhdr hhdr₁ (ih h.tail hhdr₁ hx)

/-- Behind a live version no inserter has committed. -/
theorem not_live_behind (h : Stretch page block log (m :: rest)) (hhdr : HeaderAt page m hdr) (hlive : log.Live hdr)
    (hx : x ∈ rest) (hhdr' : HeaderAt page x hdr') : ¬ log.Live hdr' := by
  intro hlive'
  cases rest with
  | nil => cases hx
  | cons m' rest =>
    obtain ⟨hdr₁, hhdr₁⟩ := h.header m' (by simp)
    have hprecedes := h.precedes hhdr hhdr₁
    have hcommitted := h.tail.committed_first hhdr₁ hx hhdr' hlive'.1
    have hxmin := h.xmin_ne m' (by simp) hdr₁ hhdr₁
    rw [hprecedes.xmin] at hcommitted hxmin
    exact hlive.2 ⟨hxmin, hprecedes.notLockOnly, hcommitted⟩

/-- There is at most one live version. -/
theorem live_unique (h : Stretch page block log ms) (hm : m ∈ ms) (hhdr : HeaderAt page m hdr) (hlive : log.Live hdr)
    (hx : x ∈ ms) (hhdr' : HeaderAt page x hdr') (hlive' : log.Live hdr') : m = x := by
  induction ms with
  | nil => cases hm
  | cons first rest ih =>
    rcases List.mem_cons.mp hm with rfl | hm'
    · rcases List.mem_cons.mp hx with rfl | hx
      · rfl
      · exact absurd hlive' (h.not_live_behind hhdr hlive hx hhdr')
    · rcases List.mem_cons.mp hx with rfl | hx
      · exact absurd hlive (h.not_live_behind hhdr' hlive' hm' hhdr)
      · exact ih h.tail hm' hx

/-- The walk comes to the live version. -/
theorem visibleFrom_live {start fuel : Nat} (h : Stretch page block log (m :: rest)) (hx : x ∈ m :: rest)
    (hhdr' : HeaderAt page x hdr') (hlive : log.Live hdr') (hfuel : (m :: rest).length ≤ fuel) :
    visibleFrom page block log.source start fuel m = .ok (some x) := by
  induction rest generalizing m fuel with
  | nil =>
    obtain rfl := List.mem_singleton.mp hx
    obtain ⟨visible, hvisible, hiff⟩ := h.visible hx hhdr'
    obtain ⟨fuel, rfl⟩ := Nat.exists_eq_add_of_le' hfuel
    rw [List.length_singleton, visibleFrom_succ hhdr' hvisible, if_pos (hiff.mpr hlive)]
  | cons m' rest ih =>
    obtain ⟨hdr, hhdr⟩ := h.header m List.mem_cons_self
    obtain ⟨fuel, rfl⟩ : ∃ k, fuel = k + 1 := Nat.exists_eq_add_of_le' (by simp at hfuel; omega)
    by_cases hfirst : log.Live hdr
    · obtain ⟨visible, hvisible, hiff⟩ := h.visible List.mem_cons_self hhdr
      have hsame := h.live_unique List.mem_cons_self hhdr hfirst hx hhdr' hlive
      rw [visibleFrom_succ hhdr hvisible, if_pos (hiff.mpr hfirst), hsame]
    · obtain ⟨hon, hnext⟩ := h.leadsOn hhdr
      have hx' : x ∈ m' :: rest := by
        refine (List.mem_cons.mp hx).resolve_left ?_
        rintro rfl
        exact hfirst (hhdr.unique hhdr' ▸ hlive)
      rw [visibleFrom_succ hhdr (h.hidden List.mem_cons_self hhdr hfirst), if_neg Bool.false_ne_true, if_pos hon, hnext]
      exact ih h.tail hx' (by simpa using hfuel)

/-- Without a live version the walk comes to the end of the chain. -/
theorem deadEnd_iff {k : Nat} (h : Stretch page block log (m :: rest))
    (hnone : ∀ x ∈ m :: rest, ∀ hdr, HeaderAt page x hdr → ¬ log.Live hdr) :
    DeadEnd page block log.source k m ↔
      ∃ n, k = n + rest.length ∧ DeadEnd page block log.source n ((m :: rest).getLast (List.cons_ne_nil _ _)) := by
  induction rest generalizing m k with
  | nil => simp
  | cons m' rest ih =>
    obtain ⟨hdr, hhdr⟩ := h.header m List.mem_cons_self
    obtain ⟨hon, hnext⟩ := h.leadsOn hhdr
    have hhidden := h.hidden List.mem_cons_self hhdr (hnone m List.mem_cons_self hdr hhdr)
    have hrest : ∀ k, DeadEnd page block log.source k m' ↔ _ :=
      fun k => ih (k := k) h.tail fun x hx => hnone x (List.mem_cons_of_mem m hx)
    rw [List.getLast_cons (List.cons_ne_nil _ _), List.length_cons]
    constructor
    · intro hdead
      cases hdead with
      | empty hlp hflags =>
        obtain ⟨lp, hlp', hnormal, -⟩ := hhdr
        rw [hlp] at hlp'
        exact absurd (Except.ok.inj hlp' ▸ hnormal) hflags
      | stop hhdr' _ hstop => exact absurd (hhdr.unique hhdr' ▸ hon) hstop
      | link hhdr' _ _ hdead =>
        obtain rfl := hhdr.unique hhdr'
        rw [hnext] at hdead
        obtain ⟨n, rfl, hlast⟩ := (hrest _).mp hdead
        exact ⟨n, rfl, hlast⟩
    · rintro ⟨n, rfl, hlast⟩
      have hdead := (hrest _).mpr ⟨n, rfl, hlast⟩
      rw [← hnext] at hdead
      exact .link hhdr hhidden hon hdead

end Stretch

/-! ## Pages -/

namespace HotChain

variable {page : Bytes} {block : Nat} (c : HotChain page block)

theorem first_header : ∃ hdr, HeaderAt page c.first hdr := by
  rcases c.start with ⟨-, hdr, hhdr, -⟩ | ⟨-, hdr, -, -, -, hhdr, -⟩
  · exact ⟨hdr, hhdr⟩
  · exact ⟨hdr, hhdr⟩

theorem heapOnly_of_isChain {m x : Nat} {rest : List Nat} (h : (m :: rest).IsChain (Successor page block))
    (hx : x ∈ rest) : ∃ hdr, HeaderAt page x hdr ∧ hdr.infomask2 &&& heapOnlyTuple ≠ 0 := by
  induction rest generalizing m with
  | nil => cases hx
  | cons m' rest ih =>
    obtain ⟨⟨_, hdr, -, hhdr, hprecedes⟩, hrest⟩ := List.isChain_cons_cons.mp h
    rcases List.mem_cons.mp hx with rfl | hx
    · exact ⟨hdr, hhdr, hprecedes.heapOnly⟩
    · exact ih hrest hx

/-- Only a version that is its own root is not heap-only. -/
theorem heapOnly {m : Nat} (hm : m ∈ c.members) (hne : m ≠ c.root) :
    ∃ hdr, HeaderAt page m hdr ∧ hdr.infomask2 &&& heapOnlyTuple ≠ 0 := by
  rcases List.mem_cons.mp hm with rfl | hm
  · rcases c.start with ⟨hroot, -⟩ | ⟨-, hdr, -, -, -, hhdr, honly⟩
    · exact absurd hroot.symm hne
    · exact ⟨hdr, hhdr, honly⟩
  · exact heapOnly_of_isChain c.linked hm

theorem header {m : Nat} (hm : m ∈ c.members) : ∃ hdr, HeaderAt page m hdr := by
  rcases List.mem_cons.mp hm with rfl | hm
  · exact c.first_header
  · obtain ⟨hdr, hhdr, -⟩ := heapOnly_of_isChain c.linked hm
    exact ⟨hdr, hhdr⟩

/-- The root leads to the first version. -/
theorem chainRoot_root : chainRoot page c.root = .ok (some c.first) := by
  rcases c.start with ⟨hroot, hdr, ⟨lp, hlp, hnormal, hread⟩, hindexed⟩ | ⟨lp, hdr, hlp, hredirect, hfirst, -, -⟩
  · rw [hroot, chainRoot_normal hlp hnormal hread, if_neg (not_not.mpr hindexed)]
  · simp only [chainRoot, hlp, bind, Except.bind, if_pos hredirect, hfirst]
    rfl

theorem first_eq {c' : HotChain page block} (h : c.root = c'.root) : c.first = c'.first := by
  have hroot := c.chainRoot_root
  rw [h, c'.chainRoot_root] at hroot
  exact (Option.some.inj (Except.ok.inj hroot)).symm

end HotChain

theorem offnums_ne_zero {page : Bytes} {off : Nat} (h : off ∈ offnums page) : off ≠ 0 := by
  obtain ⟨k, -, rfl⟩ := List.mem_map.mp h
  exact Nat.succ_ne_zero k

theorem offnums_sorted (page : Bytes) : (offnums page).Pairwise (· < ·) :=
  List.pairwise_map.mpr (List.pairwise_lt_range.imp (Nat.succ_lt_succ ·))

theorem takeRow_eq {page : Bytes} {block : Nat} {z : Codecs} {desc : TableDesc} {toast : ToastCache} {off m : Nat}
    {r : FragmentRow} :
    takeRow page block z desc toast off m = .ok r ↔
      r.block = block ∧ r.offnum = off ∧ ∃ attrs, decodeTupleFromPage z page m desc toast = .ok (r.row, attrs) := by
  constructor
  · intro h
    obtain ⟨⟨row, attrs⟩, hrow, h⟩ := bind_eq_ok.mp h
    obtain rfl := Except.ok.inj h
    exact ⟨rfl, rfl, attrs, hrow⟩
  · rintro ⟨rfl, rfl, attrs, hrow⟩
    rw [takeRow, hrow]
    rfl

namespace HotPage

variable {page : Bytes} {block : Nat} {log : Log} {z : Codecs} {desc : TableDesc} {toast : ToastCache}
  {chains : List (HotChain page block)} {c c' : HotChain page block} {off m : Nat}

theorem normal (h : HotPage page block log z desc toast chains) (hc : c ∈ chains) (hm : m ∈ c.members) :
    ∃ lp, NormalAt page m lp :=
  (h.covered m).mp (List.mem_flatMap.mpr ⟨c, hc, hm⟩)

theorem stretch (h : HotPage page block log z desc toast chains) (hc : c ∈ chains) :
    Stretch page block log c.members where
  linked := c.linked
  ordered := h.ordered c hc
  nodup := (List.nodup_flatMap.mp h.nodup).1 c hc
  positive m hm := by
    obtain ⟨lp, hnormal⟩ := h.normal hc hm
    exact offnums_ne_zero hnormal.1
  header m hm := c.header hm
  xmin_ne := h.xmin_ne c hc
  plain := h.plain c hc

theorem chain_unique (h : HotPage page block log z desc toast chains) (hc : c ∈ chains) (hc' : c' ∈ chains)
    (hm : m ∈ c.members) (hm' : m ∈ c'.members) : c = c' := by
  by_contra hne
  have hsymm : Std.Symm (Function.onFun List.Disjoint (@HotChain.members page block)) :=
    ⟨fun _ _ hxy => hxy.symm⟩
  exact (List.nodup_flatMap.mp h.nodup).2.forall hc hc' hne hm hm'

theorem root_unique (h : HotPage page block log z desc toast chains) (hc : c ∈ chains) (hc' : c' ∈ chains)
    (hroot : c.root = c'.root) : c = c' :=
  h.chain_unique hc hc' List.mem_cons_self (c.first_eq hroot ▸ List.mem_cons_self)

/-- A line pointer that is no root leads nowhere. -/
theorem chainRoot_none (h : HotPage page block log z desc toast chains) (hoff : off ∈ offnums page)
    (hnone : ∀ c ∈ chains, c.root ≠ off) : chainRoot page off = .ok none := by
  obtain ⟨lp, hlp⟩ := h.pointers off hoff
  by_cases hredirect : lp.flags = lpRedirect
  · obtain ⟨c, hc, hroot⟩ := h.redirects off hoff lp hlp hredirect
    exact absurd hroot (hnone c hc)
  by_cases hnormal : lp.flags = lpNormal
  · obtain ⟨c, hc, hm⟩ := List.mem_flatMap.mp ((h.covered off).mpr ⟨lp, hoff, hlp, hnormal⟩)
    obtain ⟨hdr, ⟨lp', hlp', hnormal', hread⟩, honly⟩ := c.heapOnly hm (hnone c hc).symm
    rw [chainRoot_normal hlp' hnormal' hread, if_pos honly]
  · exact chainRoot_empty hlp hredirect hnormal

/-- A page has room for fewer tuples than the walk takes steps. -/
theorem members_length (h : HotPage page block log z desc toast chains) (hc : c ∈ chains) :
    c.members.length ≤ maxChain := by
  let offOf (m : Nat) : Nat := ((linePointer page m).toOption.map (·.off)).getD 0
  let span (m : Nat) : Finset Nat := Finset.Ico (offOf m) (offOf m + sizeofHeapTupleHeader)
  have hoffOf : ∀ m ∈ c.members, ∃ lp, NormalAt page m lp ∧ offOf m = lp.off := by
    intro m hm
    obtain ⟨lp, hnormal⟩ := h.normal hc hm
    refine ⟨lp, hnormal, ?_⟩
    simp only [offOf, hnormal.2.1]
    rfl
  have hdisjoint : ∀ m ∈ c.members.toFinset, ∀ m' ∈ c.members.toFinset, m ≠ m' → Disjoint (span m) (span m') := by
    intro m hm m' hm' hne
    obtain ⟨lp, hnormal, hlp⟩ := hoffOf m (List.mem_toFinset.mp hm)
    obtain ⟨lp', hnormal', hlp'⟩ := hoffOf m' (List.mem_toFinset.mp hm')
    have hlen := (h.fits m lp hnormal).1
    have hlen' := (h.fits m' lp' hnormal').1
    have happart := h.disjoint m lp m' lp' hnormal hnormal' hne
    rw [Finset.disjoint_left]
    simp only [span, hlp, hlp', Finset.mem_Ico]
    omega
  have hinside : c.members.toFinset.biUnion span ⊆ Finset.range pageSize := by
    refine Finset.biUnion_subset.mpr fun m hm => ?_
    obtain ⟨lp, hnormal, hlp⟩ := hoffOf m (List.mem_toFinset.mp hm)
    have hfits := h.fits m lp hnormal
    intro x hx
    simp only [span, hlp, Finset.mem_Ico] at hx
    exact Finset.mem_range.mpr (by omega)
  have hcount : c.members.toFinset.card * sizeofHeapTupleHeader ≤ pageSize := by
    calc c.members.toFinset.card * sizeofHeapTupleHeader
        = ∑ m ∈ c.members.toFinset, (span m).card := by simp [span]
      _ = (c.members.toFinset.biUnion span).card := (Finset.card_biUnion hdisjoint).symm
      _ ≤ pageSize := (Finset.card_le_card hinside).trans_eq (Finset.card_range _)
  rw [List.toFinset_card_of_nodup (h.stretch hc).nodup, sizeofHeapTupleHeader, pageSize] at hcount
  rw [maxChain]
  omega

theorem emitAt_live (h : HotPage page block log z desc toast chains) (hc : c ∈ chains) (hm : m ∈ c.members)
    {hdr : TupleHdr} (hhdr : HeaderAt page m hdr) (hlive : log.Live hdr) :
    emitAt page block log.source (takeRow page block z desc toast) c.root =
      some <$> takeRow page block z desc toast c.root m :=
  emitAt_eq c.chainRoot_root ((h.stretch hc).visibleFrom_live hm hhdr hlive (h.members_length hc))

/-- Without a live version nothing is emitted, and there is no error, exactly if the walk comes to a dead end behind
the last one. -/
theorem emitAt_none_iff (h : HotPage page block log z desc toast chains) (hc : c ∈ chains) (hnone : ¬ c.HasLive log) :
    emitAt page block log.source (takeRow page block z desc toast) c.root = .ok none ↔
      ∃ n, DeadEnd page block log.source n c.last ∧ c.members.length + n ≤ maxChain + 1 := by
  have hdead : ∀ {k}, DeadEnd page block log.source k c.first ↔
      ∃ n, k = n + c.rest.length ∧ DeadEnd page block log.source n c.last :=
    (h.stretch hc).deadEnd_iff fun x hx hdr hhdr hlive => hnone ⟨x, hx, hdr, hhdr, hlive⟩
  have hlen : c.members.length = c.rest.length + 1 := rfl
  constructor
  · intro hemit
    have hvisible : visibleFrom page block log.source c.first maxChain c.first = .ok none := by
      simp only [emitAt, c.chainRoot_root, bind, Except.bind] at hemit
      cases hvis : visibleVersion page block log.source c.first with
      | error e =>
        rw [hvis] at hemit
        cases hemit
      | ok vis =>
        cases vis with
        | none => exact hvis
        | some vis =>
          rw [hvis] at hemit
          obtain ⟨r, -, hr⟩ := bind_eq_ok.mp hemit
          cases hr
    obtain ⟨k, hk, hwalk⟩ := exists_deadEnd hvisible
    obtain ⟨n, rfl, hlast⟩ := hdead.mp hwalk
    exact ⟨n, hlast, by omega⟩
  · rintro ⟨n, hlast, hn⟩
    have hwalk : DeadEnd page block log.source (n + c.rest.length) c.first := hdead.mpr ⟨n, rfl, hlast⟩
    have hvisible : visibleVersion page block log.source c.first = .ok none := hwalk.visibleFrom (by omega)
    simp only [emitAt, c.chainRoot_root, hvisible, bind, Except.bind]
    rfl

theorem emitAt_no_chain (h : HotPage page block log z desc toast chains) (hoff : off ∈ offnums page)
    (hnone : ∀ c ∈ chains, c.root ≠ off) :
    emitAt page block log.source (takeRow page block z desc toast) off = .ok none := by
  simp only [emitAt, h.chainRoot_none hoff hnone, bind, Except.bind]
  rfl

/-- If all walks without a live version come to dead ends, every line pointer contributes what it should. -/
theorem emitAt_spec (h : HotPage page block log z desc toast chains)
    (hdead : ∀ c ∈ chains, ¬ c.HasLive log →
      ∃ n, DeadEnd page block log.source n c.last ∧ c.members.length + n ≤ maxChain + 1)
    (hoff : off ∈ offnums page) :
    ∃ a, emitAt page block log.source (takeRow page block z desc toast) off = .ok a ∧
      ∀ r, a = some r ↔ r.offnum = off ∧ LiveRow page block log z desc toast chains r := by
  by_cases hchain : ∃ c ∈ chains, c.root = off
  · obtain ⟨c, hc, rfl⟩ := hchain
    by_cases hlive : c.HasLive log
    · obtain ⟨m, hm, hdr, hhdr, hlive⟩ := hlive
      obtain ⟨row, attrs, hrow⟩ := h.decodable c hc m hm
      have htake : takeRow page block z desc toast c.root m = .ok { block, offnum := c.root, row } :=
        takeRow_eq.mpr ⟨rfl, rfl, attrs, hrow⟩
      refine ⟨_, (h.emitAt_live hc hm hhdr hlive).trans (by rw [htake]; rfl), ?_⟩
      intro r
      constructor
      · rintro hr
        obtain rfl := Option.some.inj hr
        exact ⟨rfl, rfl, c, hc, rfl, m, hm, ⟨hdr, hhdr, hlive⟩, attrs, hrow⟩
      · rintro ⟨hroot, hblock, c', hc', hroot', m', hm', ⟨hdr', hhdr', hlive'⟩, attrs', hrow'⟩
        obtain rfl := h.root_unique hc' hc (hroot'.trans hroot)
        obtain rfl := (h.stretch hc).live_unique hm hhdr hlive hm' hhdr' hlive'
        have htake' := takeRow_eq.mpr ⟨hblock, hroot, attrs', hrow'⟩
        rw [htake] at htake'
        rw [Except.ok.inj htake']
    · refine ⟨none, (h.emitAt_none_iff hc hlive).mpr (hdead c hc hlive), ?_⟩
      intro r
      constructor
      · exact nofun
      · rintro ⟨hroot, -, c', hc', hroot', m, hm, ⟨hdr, hhdr, hlive'⟩, -⟩
        obtain rfl := h.root_unique hc' hc (hroot'.trans hroot)
        exact absurd ⟨m, hm, hdr, hhdr, hlive'⟩ hlive
  · have hnone : ∀ c ∈ chains, c.root ≠ off := fun c hc hroot => hchain ⟨c, hc, hroot⟩
    refine ⟨none, h.emitAt_no_chain hoff hnone, ?_⟩
    intro r
    constructor
    · exact nofun
    · rintro ⟨hroot, -, c, hc, hroot', -⟩
      exact absurd (hroot'.trans hroot) (hnone c hc)

theorem collapses_of_deadEnds (h : HotPage page block log z desc toast chains)
    (hdead : ∀ c ∈ chains, ¬ c.HasLive log →
      ∃ n, DeadEnd page block log.source n c.last ∧ c.members.length + n ≤ maxChain + 1) :
    Collapses page block log z desc toast chains := by
  refine ⟨_, emitPageWith_ok_iff.mpr ⟨h.length, ?_, rfl⟩, ?_, ?_⟩
  · intro off hoff
    obtain ⟨a, ha, -⟩ := h.emitAt_spec hdead hoff
    exact ⟨a, ha⟩
  · refine (offnums_sorted page).filterMap _ ?_
    intro off off' hlt r hr r' hr'
    obtain ⟨_, _, -, -, htake⟩ := emitAt_some (toOption_join_eq_some.mp hr)
    obtain ⟨_, _, -, -, htake'⟩ := emitAt_some (toOption_join_eq_some.mp hr')
    rw [(takeRow_eq.mp htake).2.1, (takeRow_eq.mp htake').2.1]
    exact hlt
  · intro r
    rw [List.mem_filterMap]
    constructor
    · rintro ⟨off, hoff, hr⟩
      obtain ⟨a, ha, hiff⟩ := h.emitAt_spec hdead hoff
      rw [toOption_join_eq_some, ha] at hr
      exact ((hiff r).mp (Except.ok.inj hr)).2
    · intro hr
      have hoff : r.offnum ∈ offnums page := by
        obtain ⟨-, c, hc, hroot, -⟩ := hr
        exact hroot ▸ h.roots c hc
      obtain ⟨a, ha, hiff⟩ := h.emitAt_spec hdead hoff
      refine ⟨r.offnum, hoff, ?_⟩
      rw [toOption_join_eq_some, ha, (hiff r).mpr ⟨rfl, hr⟩]

theorem deadEnd_of_collapses (h : HotPage page block log z desc toast chains)
    (hcollapses : Collapses page block log z desc toast chains) (hc : c ∈ chains) (hnone : ¬ c.HasLive log) :
    ∃ n, DeadEnd page block log.source n c.last ∧ c.members.length + n ≤ maxChain + 1 := by
  obtain ⟨rows, hemit, -, hrows⟩ := hcollapses
  obtain ⟨-, hall, hrows'⟩ := emitPageWith_ok_iff.mp hemit
  have hoff := h.roots c hc
  obtain ⟨a, ha⟩ := hall c.root hoff
  refine (h.emitAt_none_iff hc hnone).mp ?_
  cases a with
  | none => exact ha
  | some r =>
    have hmem : r ∈ rows := by
      rw [hrows']
      exact List.mem_filterMap.mpr ⟨c.root, hoff, toOption_join_eq_some.mpr ha⟩
    obtain ⟨_, _, -, -, htake⟩ := emitAt_some ha
    obtain ⟨-, c', hc', hroot, m, hm, ⟨hdr, hhdr, hlive⟩, -⟩ := (hrows r).mp hmem
    obtain rfl := h.root_unique hc' hc (hroot.trans (takeRow_eq.mp htake).2.1)
    exact absurd ⟨m, hm, hdr, hhdr, hlive⟩ hnone

/-- A chain has at most one live version. The page is emitted as these versions exactly if, of every chain without
one, the walk behind the last version comes to a dead end. -/
theorem emitPage_collapses_iff (page : Bytes) (block : Nat) (log : Log) (z : Codecs) (desc : TableDesc)
    (toast : ToastCache) (chains : List (HotChain page block)) (h : HotPage page block log z desc toast chains) :
    (∀ c ∈ chains, ∀ m ∈ c.members, ∀ m' ∈ c.members, ∀ hdr hdr', HeaderAt page m hdr → log.Live hdr →
      HeaderAt page m' hdr' → log.Live hdr' → m = m') ∧
    (Collapses page block log z desc toast chains ↔
      ∀ c ∈ chains, ¬ c.HasLive log →
        ∃ n, DeadEnd page block log.source n c.last ∧ c.members.length + n ≤ maxChain + 1) := by
  constructor
  · intro c hc m hm m' hm' hdr hdr' hhdr hlive hhdr' hlive'
    exact (h.stretch hc).live_unique hm hhdr hlive hm' hhdr' hlive'
  · exact ⟨fun hcollapses c hc hnone => h.deadEnd_of_collapses hcollapses hc hnone, h.collapses_of_deadEnds⟩

end HotPage

/-! ## A stale link -/

/-- The tuples `(1)` and `(2)` in block 7. The first was HOT-updated in a subtransaction that was rolled back, and the
second has the place of the version that came of it. -/
def stalePage : Bytes :=
  List.replicate 12 0 ++ (toLe 2 32 ++ (List.replicate 10 0 ++ (toLe 4 (8160 + 1 * 2 ^ 15 + 28 * 2 ^ 17) ++
    (toLe 4 (8128 + 1 * 2 ^ 15 + 28 * 2 ^ 17) ++ (List.replicate 8096 0 ++
      ((tupleHead 100 0 7 2 ++ toLe 2 1 ++ toLe 2 0x0800 ++ [24, 0] ++ toLe 4 2) ++ (List.replicate 4 0 ++
        ((tupleHead 102 103 7 2 ++ toLe 2 0x4001 ++ toLe 2 0 ++ [24, 0] ++ toLe 4 1) ++
          List.replicate 4 0))))))))

/-- A log of the transactions from 100 on, two bits each. -/
def logFrom100 (bits : UInt8) : Log where
  pages _ := MultiXactSource.zerosWith 25 [bits]
  full _ := by
    have hfits : 25 + [bits].length ≤ (List.replicate pageSz (0 : UInt8)).length := by
      rw [List.length_singleton, List.length_replicate]
      decide
    rw [MultiXactSource.zerosWith, Splice.splice_length hfits, List.length_replicate]
    rfl

def staleDesc : TableDesc := {
  name := "t", oid := 16384, dbOid := 5, relNode := 16384, toastRelNode := none
  cols := [⟨"id", .int4⟩], phys := [.live ⟨"id", .int4⟩], hasFastDefaults := false, pk := ["id"] }

/-- The headers of the two tuples. -/
def staleHdr : TupleHdr :=
  { xmin := 102, xmax := 103, infomask := 0, infomask2 := 0x4001, ctidBlock := 7, ctidOff := 2 }

def rootHdr : TupleHdr := { xmin := 100, xmax := 0, infomask := 0x0800, infomask2 := 1, ctidBlock := 7, ctidOff := 2 }

/-- All that is read off the page, in one evaluation of its bytes. -/
theorem stalePage_reads :
    (offnums stalePage = [1, 2] ∧ linePointer stalePage 1 = .ok ⟨1, 8160, 28⟩ ∧
      linePointer stalePage 2 = .ok ⟨1, 8128, 28⟩) ∧
    (readHeader stalePage 8160 = .ok staleHdr ∧ readHeader stalePage 8128 = .ok rootHdr) ∧
    (decodeTupleFromPage .pglzOnly stalePage 1 staleDesc .empty = .ok ([some (.i32 1)], toLe 4 1) ∧
      decodeTupleFromPage .pglzOnly stalePage 2 staleDesc .empty = .ok ([some (.i32 2)], toLe 4 2)) ∧
    emitPage stalePage 7 (logFrom100 0x01).source .pglzOnly staleDesc .empty =
      .ok [⟨7, 1, [some (.i32 2)]⟩, ⟨7, 2, [some (.i32 2)]⟩] := by
  decide +kernel

theorem stalePage_offnums : offnums stalePage = [1, 2] := stalePage_reads.1.1

theorem stalePage_first : linePointer stalePage 1 = .ok ⟨1, 8160, 28⟩ := stalePage_reads.1.2.1

theorem stalePage_second : linePointer stalePage 2 = .ok ⟨1, 8128, 28⟩ := stalePage_reads.1.2.2

theorem staleHdr_at : HeaderAt stalePage 1 staleHdr := ⟨_, stalePage_first, rfl, stalePage_reads.2.1.1⟩

theorem rootHdr_at : HeaderAt stalePage 2 rootHdr := ⟨_, stalePage_second, rfl, stalePage_reads.2.1.2⟩

/-- Each tuple is a chain. -/
def staleChains : List (HotChain stalePage 7) :=
  [⟨1, 1, [], .inl ⟨rfl, _, staleHdr_at, by decide⟩, .singleton 1⟩,
    ⟨2, 2, [], .inl ⟨rfl, _, rootHdr_at, by decide⟩, .singleton 2⟩]

theorem stalePage_normal {off : Nat} {lp : LinePointer} :
    NormalAt stalePage off lp ↔ off = 1 ∧ lp = ⟨1, 8160, 28⟩ ∨ off = 2 ∧ lp = ⟨1, 8128, 28⟩ := by
  rw [NormalAt, stalePage_offnums]
  constructor
  · rintro ⟨hoff, hlp, -⟩
    rcases List.mem_pair.mp hoff with rfl | rfl
    · exact .inl ⟨rfl, Except.ok.inj (hlp.symm.trans stalePage_first)⟩
    · exact .inr ⟨rfl, Except.ok.inj (hlp.symm.trans stalePage_second)⟩
  · rintro (⟨rfl, rfl⟩ | ⟨rfl, rfl⟩)
    · exact ⟨by simp, stalePage_first, rfl⟩
    · exact ⟨by simp, stalePage_second, rfl⟩

theorem stalePage_hot (log : Log) : HotPage stalePage 7 log .pglzOnly staleDesc .empty staleChains where
  length := by
    simp only [stalePage, tupleHead, List.length_append, List.length_replicate, toLe_length, List.length_cons,
      List.length_nil]
    decide
  pointers off hoff := by
    rw [stalePage_offnums] at hoff
    rcases List.mem_pair.mp hoff with rfl | rfl
    · exact ⟨_, stalePage_first⟩
    · exact ⟨_, stalePage_second⟩
  fits off lp h := by
    rcases stalePage_normal.mp h with ⟨-, rfl⟩ | ⟨-, rfl⟩ <;> decide
  disjoint off lp off' lp' h h' hne := by
    rcases stalePage_normal.mp h with ⟨rfl, rfl⟩ | ⟨rfl, rfl⟩ <;>
      rcases stalePage_normal.mp h' with ⟨rfl, rfl⟩ | ⟨rfl, rfl⟩
    · exact absurd rfl hne
    · exact .inr (by decide)
    · exact .inl (by decide)
    · exact absurd rfl hne
  nodup := by decide
  covered off := by
    simp only [stalePage_normal, exists_or, exists_and_left, exists_eq, and_true]
    simp [staleChains, HotChain.members]
  roots c hc := by
    rw [stalePage_offnums]
    rcases List.mem_pair.mp hc with rfl | rfl <;> decide
  redirects off hoff lp hlp hredirect := by
    rw [stalePage_offnums] at hoff
    rcases List.mem_pair.mp hoff with rfl | rfl
    · exact ⟨_, .head _, rfl⟩
    · exact ⟨_, .tail _ (.head _), rfl⟩
  xmin_ne c hc m hm hdr hhdr := by
    rcases List.mem_pair.mp hc with rfl | rfl <;> obtain rfl := List.mem_singleton.mp hm
    · exact hhdr.unique staleHdr_at ▸ by decide
    · exact hhdr.unique rootHdr_at ▸ by decide
  plain c hc m hm hdr hhdr := by
    rcases List.mem_pair.mp hc with rfl | rfl <;> obtain rfl := List.mem_singleton.mp hm
    · exact hhdr.unique staleHdr_at ▸ by decide
    · exact hhdr.unique rootHdr_at ▸ by decide
  ordered c hc := by
    rcases List.mem_pair.mp hc with rfl | rfl <;> exact .singleton _
  decodable c hc m hm := by
    rcases List.mem_pair.mp hc with rfl | rfl <;> obtain rfl := List.mem_singleton.mp hm
    · exact ⟨_, _, stalePage_reads.2.2.1.1⟩
    · exact ⟨_, _, stalePage_reads.2.2.1.2⟩

/-- The first tuple is not committed, but the second one is emitted in its place. -/
theorem stale_link_followed :
    HotPage stalePage 7 (logFrom100 0x01) .pglzOnly staleDesc .empty staleChains ∧
      emitPage stalePage 7 (logFrom100 0x01).source .pglzOnly staleDesc .empty =
        .ok [⟨7, 1, [some (.i32 2)]⟩, ⟨7, 2, [some (.i32 2)]⟩] ∧
      ¬ Collapses stalePage 7 (logFrom100 0x01) .pglzOnly staleDesc .empty staleChains := by
  have hemit := stalePage_reads.2.2.2
  refine ⟨stalePage_hot _, hemit, ?_⟩
  rintro ⟨rows, hemit', -, hrows⟩
  obtain rfl := Except.ok.inj (hemit.symm.trans hemit')
  obtain ⟨-, c, hc, hroot, m, hm, ⟨hdr, hhdr, hlive⟩, -⟩ := (hrows ⟨7, 1, [some (.i32 2)]⟩).mp (.head _)
  rcases List.mem_pair.mp hc with rfl | rfl
  · obtain rfl := List.mem_singleton.mp hm
    obtain rfl := hhdr.unique staleHdr_at
    exact absurd hlive.1 (by
      rintro (h | h | h)
      · cases h
      · cases h
      · exact absurd h (by unfold Log.Says; decide +kernel))
  · cases hroot

/-- If the subtransaction alone was rolled back, the link is not followed. -/
theorem emitPage_collapses_iff_stale :
    Collapses stalePage 7 (logFrom100 0x11) .pglzOnly staleDesc .empty staleChains := by
  have hdid : ∀ xid ∈ [100, 102], (logFrom100 0x11).Says xid := by
    unfold Log.Says
    decide +kernel
  have hstale : (logFrom100 0x11).Live staleHdr := by
    refine ⟨.inr (.inr (hdid 102 (by decide))), ?_⟩
    rintro ⟨-, -, h | h | h⟩
    · cases h
    · cases h
    · exact absurd h (by unfold Log.Says; decide +kernel)
  have hroot : (logFrom100 0x11).Live rootHdr := ⟨.inr (.inr (hdid 100 (by decide))), fun h => h.1 rfl⟩
  refine (HotPage.emitPage_collapses_iff stalePage 7 _ .pglzOnly staleDesc .empty staleChains
    (stalePage_hot _)).2.mpr ?_
  intro c hc hnone
  rcases List.mem_pair.mp hc with rfl | rfl
  · exact absurd ⟨1, .head _, staleHdr, staleHdr_at, hstale⟩ hnone
  · exact absurd ⟨2, .head _, rootHdr, rootHdr_at, hroot⟩ hnone

end Ltap
