-- SUMMARY: The visible rows of a heap page at their index addresses (`fragment.rs`).
import OpenLtap.Page.Reconstruct

/-!
# Fragments of a page

Every line pointer an index may name leads to a chain of row versions. The visible version
of the chain is the row, under the line pointer the chain starts from.
-/

namespace Ltap

/-! ## Headers and chains -/

structure FragmentRow where
  block : Nat
  offnum : Nat
  row : Row
  deriving DecidableEq, Repr

/-- A row together with its bytes. -/
structure RawFragmentRow where
  block : Nat
  offnum : Nat
  row : Row
  raw : RawTuple
  deriving DecidableEq, Repr

structure TupleHdr where
  xmin : Xid
  xmax : Xid
  infomask : Nat
  infomask2 : Nat
  ctidBlock : Nat
  ctidOff : Nat
  deriving DecidableEq, Repr

def readHeader (page : Bytes) (off : Nat) : Except Fault TupleHdr :=
  match slice page off sizeofHeapTupleHeader with
  | none => bail s!"tuple header at {off} beyond page"
  | some t =>
    let biHi := fromLe ((t.drop 12).take 2)
    let biLo := fromLe ((t.drop 14).take 2)
    .ok {
      xmin := fromLe (t.take 4), xmax := fromLe ((t.drop 4).take 4)
      ctidBlock := biHi <<< 16 ||| biLo, ctidOff := fromLe ((t.drop 16).take 2)
      infomask2 := fromLe ((t.drop 18).take 2), infomask := fromLe ((t.drop 20).take 2) }

/-- The line pointer is normal, and leads to a tuple with this header. -/
def HeaderAt (page : Bytes) (offnum : Nat) (hdr : TupleHdr) : Prop :=
  ∃ lp, linePointer page offnum = .ok lp ∧ lp.flags = lpNormal ∧ readHeader page lp.off = .ok hdr

theorem HeaderAt.unique {page : Bytes} {offnum : Nat} {hdr hdr' : TupleHdr} (h : HeaderAt page offnum hdr)
    (h' : HeaderAt page offnum hdr') : hdr = hdr' := by
  obtain ⟨lp, hlp, -, hhdr⟩ := h
  obtain ⟨lp', hlp', -, hhdr'⟩ := h'
  rw [hlp] at hlp'
  obtain rfl := Except.ok.inj hlp'
  rw [hhdr] at hhdr'
  exact Except.ok.inj hhdr'

def maxChain : Nat := 1024

def checkPage (page : Bytes) : Except Fault Unit :=
  if page.length ≠ pageSize then bail s!"emit_page: expected an {pageSize}-byte page, got {page.length}"
  else .ok ()

/-- Where the chain of a line pointer starts. A version that is only reached through its
chain has no address of its own. -/
def chainRoot (page : Bytes) (offnum : Nat) : Except Fault (Option Nat) := do
  let lp ← linePointer page offnum
  if lp.flags = lpRedirect then return some lp.off
  else if lp.flags = lpNormal then
    let hdr ← readHeader page lp.off
    if hdr.infomask2 &&& heapOnlyTuple ≠ 0 then return none else return some offnum
  else return none

def chainRootsOf (page : Bytes) : List Nat → Except Fault (List (Nat × Nat))
  | [] => .ok []
  | offnum :: rest => do
    let start ← chainRoot page offnum
    let roots ← chainRootsOf page rest
    match start with
    | none => return roots
    | some start => return (offnum, start) :: roots

/-- The offset numbers of a page. -/
def offnums (page : Bytes) : List Nat :=
  let pdLower := fromLe ((page.drop 12).take 2)
  (List.range ((pdLower - 24) / 4)).map (· + 1)

/-- Line pointers that an index may name, each with the start of its chain. -/
def chainRoots (page : Bytes) : Except Fault (List (Nat × Nat)) := chainRootsOf page (offnums page)

section Emit

variable (page : Bytes) (block : Nat) (clog : ClogSource)

/-- The chain from `cur` on, for so many versions at most. -/
def visibleFrom (start : Nat) : Nat → Nat → Except Fault (Option Nat)
  | 0, _ => bail s!"emit_page: HOT chain from offnum {start} exceeds {maxChain} (cycle?)"
  | n + 1, cur => do
    let lp ← linePointer page cur
    if lp.flags ≠ lpNormal then return none
    else
      let hdr ← readHeader page lp.off
      let visible ← clog.tupleVisible hdr.xmin hdr.xmax hdr.infomask
      if visible then return some cur
      else if hdr.infomask2 &&& heapHotUpdated ≠ 0 ∧ hdr.ctidBlock = block ∧ hdr.ctidOff ≠ 0 ∧
          hdr.ctidOff ≠ cur then
        visibleFrom start n hdr.ctidOff
      else return none

/-- The visible version of a chain, if there is one. -/
def visibleVersion (start : Nat) : Except Fault (Option Nat) :=
  visibleFrom page block clog start maxChain start

/-- The visible version of every chain, taken with the address of the chain. -/
def emitRoots {α : Type} (take : Nat → Nat → Except Fault α) : List (Nat × Nat) → Except Fault (List α)
  | [] => .ok []
  | (indexOffnum, chainStart) :: rest => do
    match ← visibleVersion page block clog chainStart with
    | none => emitRoots take rest
    | some vis =>
      let a ← take indexOffnum vis
      let out ← emitRoots take rest
      return a :: out

def emitPageWith {α : Type} (take : Nat → Nat → Except Fault α) : Except Fault (List α) := do
  checkPage page
  let roots ← chainRoots page
  emitRoots page block clog take roots

variable (z : Codecs) (desc : TableDesc) (toast : ToastCache)

def takeRow (indexOffnum vis : Nat) : Except Fault FragmentRow := do
  let (row, _) ← decodeTupleFromPage z page vis desc toast
  return { block, offnum := indexOffnum, row }

def takeRaw (indexOffnum vis : Nat) : Except Fault RawFragmentRow := do
  let (row, _) ← decodeTupleFromPage z page vis desc toast
  let raw ← RawTuple.fromPage page vis
  return { block, offnum := indexOffnum, row, raw }

def emitPage : Except Fault (List FragmentRow) :=
  emitPageWith page block clog (takeRow page block z desc toast)

def emitPageRaw : Except Fault (List RawFragmentRow) :=
  emitPageWith page block clog (takeRaw page block z desc toast)

theorem mem_chainRootsOf {page : Bytes} {offs : List Nat} {roots : List (Nat × Nat)} {off start : Nat}
    (h : chainRootsOf page offs = .ok roots) :
    (off, start) ∈ roots ↔ off ∈ offs ∧ chainRoot page off = .ok (some start) := by
  induction offs generalizing roots with
  | nil =>
    obtain rfl := Except.ok.inj h
    simp
  | cons o offs ih =>
    obtain ⟨s, hs, h⟩ := bind_eq_ok.mp h
    obtain ⟨rest, hrest, h⟩ := bind_eq_ok.mp h
    have hmem := ih hrest
    cases s with
    | none =>
      obtain rfl := Except.ok.inj h
      rw [hmem, List.mem_cons]
      constructor
      · rintro ⟨hoff, hroot⟩
        exact ⟨.inr hoff, hroot⟩
      · rintro ⟨rfl | hoff, hroot⟩
        · rw [hs] at hroot
          cases hroot
        · exact ⟨hoff, hroot⟩
    | some s =>
      obtain rfl := Except.ok.inj h
      rw [List.mem_cons, hmem, List.mem_cons]
      constructor
      · rintro (heq | ⟨hoff, hroot⟩)
        · obtain ⟨rfl, rfl⟩ := Prod.ext_iff.mp heq
          exact ⟨.inl rfl, hs⟩
        · exact ⟨.inr hoff, hroot⟩
      · rintro ⟨rfl | hoff, hroot⟩
        · rw [hs] at hroot
          obtain rfl := Option.some.inj (Except.ok.inj hroot)
          exact .inl rfl
        · exact .inr ⟨hoff, hroot⟩

/-! ## One line pointer at a time -/

theorem toOption_join_eq_some {ε α : Type} {x : Except ε (Option α)} {a : α} :
    x.toOption.join = some a ↔ x = .ok (some a) := by
  cases x with
  | error e => simp [Except.toOption]
  | ok o => simp [Except.toOption]

/-- What a line pointer contributes. -/
def emitAt {α : Type} (take : Nat → Nat → Except Fault α) (offnum : Nat) : Except Fault (Option α) := do
  match ← chainRoot page offnum with
  | none => return none
  | some start =>
    match ← visibleVersion page block clog start with
    | none => return none
    | some vis =>
      let a ← take offnum vis
      return some a

variable {page block clog}

theorem emitRoots_cons_ok {α : Type} {take : Nat → Nat → Except Fault α} {off : Nat} {offs : List Nat}
    {rows : List α} :
    (chainRootsOf page (off :: offs) >>= emitRoots page block clog take) = .ok rows ↔
      ∃ a rest, emitAt page block clog take off = .ok a ∧
        (chainRootsOf page offs >>= emitRoots page block clog take) = .ok rest ∧ rows = a.toList ++ rest := by
  cases hroot : chainRoot page off with
  | error e => simp [chainRootsOf, emitAt, hroot, bind, Except.bind]
  | ok start =>
    cases hroots : chainRootsOf page offs with
    | error e => simp [chainRootsOf, hroot, hroots, bind, Except.bind]
    | ok roots =>
      cases start with
      | none =>
        simp [chainRootsOf, emitAt, hroot, hroots, bind, Except.bind, pure, Except.pure, eq_comm]
      | some start =>
        simp only [chainRootsOf, emitAt, hroot, hroots, bind, Except.bind, pure, Except.pure, emitRoots]
        cases hvis : visibleVersion page block clog start with
        | error e => simp
        | ok vis =>
          cases vis with
          | none => simp [eq_comm]
          | some vis =>
            cases htake : take off vis with
            | error e => simp [htake]
            | ok a =>
              cases hrest : emitRoots page block clog take roots with
              | error e => simp [htake]
              | ok rest => simp [htake, eq_comm]

/-- The line pointers are taken one by one. -/
theorem emitRoots_ok_iff {α : Type} {take : Nat → Nat → Except Fault α} {offs : List Nat} {rows : List α} :
    (chainRootsOf page offs >>= emitRoots page block clog take) = .ok rows ↔
      (∀ off ∈ offs, ∃ a, emitAt page block clog take off = .ok a) ∧
        rows = offs.filterMap fun off => (emitAt page block clog take off).toOption.join := by
  induction offs generalizing rows with
  | nil => simp [chainRootsOf, emitRoots, bind, Except.bind, eq_comm]
  | cons off offs ih =>
    rw [emitRoots_cons_ok]
    constructor
    · rintro ⟨a, rest, hat, hrest, rfl⟩
      obtain ⟨hall, rfl⟩ := ih.mp hrest
      refine ⟨?_, ?_⟩
      · intro o ho
        rcases List.mem_cons.mp ho with rfl | ho
        · exact ⟨a, hat⟩
        · exact hall o ho
      · cases a <;> simp [hat, Except.toOption]
    · rintro ⟨hall, rfl⟩
      obtain ⟨a, hat⟩ := hall off List.mem_cons_self
      have hrest := ih.mpr ⟨fun o ho => hall o (List.mem_cons_of_mem off ho), rfl⟩
      refine ⟨a, _, hat, hrest, ?_⟩
      cases a <;> simp [hat, Except.toOption]

theorem emitPageWith_ok_iff {α : Type} {take : Nat → Nat → Except Fault α} {rows : List α} :
    emitPageWith page block clog take = .ok rows ↔
      page.length = pageSize ∧ (∀ off ∈ offnums page, ∃ a, emitAt page block clog take off = .ok a) ∧
        rows = (offnums page).filterMap fun off => (emitAt page block clog take off).toOption.join := by
  rw [← emitRoots_ok_iff, emitPageWith, checkPage, chainRoots]
  by_cases hlen : page.length = pageSize
  · simp [hlen, bind, Except.bind]
  · simp [hlen, bind, Except.bind, bail]

variable {off : Nat} {lp : LinePointer} {hdr : TupleHdr}

/-- A line pointer without a tuple and without a target has no chain. -/
theorem chainRoot_empty (hlp : linePointer page off = .ok lp) (hredirect : lp.flags ≠ lpRedirect)
    (hnormal : lp.flags ≠ lpNormal) : chainRoot page off = .ok none := by
  simp only [chainRoot, hlp, bind, Except.bind, if_neg hredirect, if_neg hnormal]
  rfl

theorem chainRoot_normal (hlp : linePointer page off = .ok lp) (hnormal : lp.flags = lpNormal)
    (hhdr : readHeader page lp.off = .ok hdr) :
    chainRoot page off = .ok (if hdr.infomask2 &&& heapOnlyTuple ≠ 0 then none else some off) := by
  have hredirect : ¬ lpNormal = lpRedirect := by decide
  simp only [chainRoot, hlp, bind, Except.bind, hnormal, if_neg hredirect, if_true, hhdr]
  split <;> rfl

/-- One version of a chain. -/
theorem visibleVersion_step (hlp : linePointer page off = .ok lp) (hnormal : lp.flags = lpNormal)
    (hhdr : readHeader page lp.off = .ok hdr) :
    visibleVersion page block clog off = do
      let visible ← clog.tupleVisible hdr.xmin hdr.xmax hdr.infomask
      if visible then return some off
      else if hdr.infomask2 &&& heapHotUpdated ≠ 0 ∧ hdr.ctidBlock = block ∧ hdr.ctidOff ≠ 0 ∧
          hdr.ctidOff ≠ off then
        visibleFrom page block clog off (maxChain - 1) hdr.ctidOff
      else return none := by
  rw [visibleVersion, show maxChain = maxChain - 1 + 1 by rfl, visibleFrom]
  simp only [hlp, bind, Except.bind, hnormal, ne_eq, not_true_eq_false, if_false, hhdr]
  rfl

/-- Every offset number of a chain is one of `p` if its links stay there. -/
theorem visibleFrom_some {p : Nat → Prop} {start n cur vis : Nat}
    (hlink : ∀ cur hdr, p cur → HeaderAt page cur hdr → hdr.infomask2 &&& heapHotUpdated ≠ 0 → hdr.ctidBlock = block →
      p hdr.ctidOff)
    (hcur : p cur) (h : visibleFrom page block clog start n cur = .ok (some vis)) :
    p vis ∧ ∃ hdr, HeaderAt page vis hdr ∧ clog.tupleVisible hdr.xmin hdr.xmax hdr.infomask = .ok true := by
  induction n generalizing cur with
  | zero => cases h
  | succ n ih =>
    rw [visibleFrom] at h
    obtain ⟨lp, hlp, h⟩ := bind_eq_ok.mp h
    split at h
    · cases h
    rename_i hnormal
    obtain ⟨hdr, hhdr, h⟩ := bind_eq_ok.mp h
    obtain ⟨visible, hvisible, h⟩ := bind_eq_ok.mp h
    split at h
    · rename_i hyes
      obtain rfl := Option.some.inj (Except.ok.inj h)
      exact ⟨hcur, hdr, ⟨lp, hlp, not_not.mp hnormal, hhdr⟩, hyes ▸ hvisible⟩
    split at h
    · rename_i hhot
      exact ih (hlink cur hdr hcur ⟨lp, hlp, not_not.mp hnormal, hhdr⟩ hhot.1 hhot.2.1) h
    · cases h

/-- What a line pointer contributes comes from the visible version of its chain. -/
theorem emitAt_some {α : Type} {take : Nat → Nat → Except Fault α} {a : α}
    (h : emitAt page block clog take off = .ok (some a)) :
    ∃ start vis, chainRoot page off = .ok (some start) ∧ visibleVersion page block clog start = .ok (some vis) ∧
      take off vis = .ok a := by
  obtain ⟨start, hroot, h⟩ := bind_eq_ok.mp h
  cases start with
  | none => cases h
  | some start =>
    obtain ⟨vis, hvis, h⟩ := bind_eq_ok.mp h
    cases vis with
    | none => cases h
    | some vis =>
      obtain ⟨a', htake, h⟩ := bind_eq_ok.mp h
      obtain rfl := Option.some.inj (Except.ok.inj h)
      exact ⟨start, vis, hroot, hvis, htake⟩

theorem emitAt_eq {α : Type} {take : Nat → Nat → Except Fault α} {start vis : Nat}
    (hroot : chainRoot page off = .ok (some start)) (hvis : visibleVersion page block clog start = .ok (some vis)) :
    emitAt page block clog take off = some <$> take off vis := by
  simp only [emitAt, hroot, hvis, bind, Except.bind]
  cases take off vis <;> rfl

end Emit

/-! ## Reading a page -/

section Read

variable {page : Bytes}

theorem window_of_slice {data b : Bytes} {off n : Nat} (h : slice data off n = some b) :
    (data.drop off).take n = b := by
  unfold slice at h
  split at h
  · exact Option.some.inj h
  · cases h

theorem slice_prefix {data b : Bytes} {off n m : Nat} (h : slice data off n = some b) (hm : m ≤ n) :
    slice data off m = some (b.take m) := by
  have hwindow := window_of_slice h
  unfold slice at h ⊢
  split at h
  · rw [if_pos (by omega), ← hwindow, List.take_take, Nat.min_eq_left hm]
  · cases h

theorem offnums_of_slice {n : Nat} (h : slice page 12 2 = some (toLe 2 (pageHeaderSize + n * itemIdSize)))
    (hsize : pageHeaderSize + n * itemIdSize ≤ pageSize) : offnums page = (List.range n).map (· + 1) := by
  have hcount : (pageHeaderSize + n * itemIdSize - 24) / 4 = n := by
    unfold pageHeaderSize itemIdSize
    omega
  unfold pageSize at hsize
  rw [offnums, window_of_slice h, fromLe_toLe (by omega), hcount]

theorem linePointer_item {i off flags len : Nat} (hoff : off < 2 ^ 15) (hflags : flags < 4) (hlen : len < 2 ^ 15)
    (h : itemAt page i = some (toLe 4 (off + flags * 2 ^ 15 + len * 2 ^ 17))) :
    linePointer page (i + 1) = .ok { flags, off, len } := by
  obtain ⟨hlt, h₁, h₂, h₃⟩ := HeapTuple.itemid_fields hoff hflags hlen
  rw [linePointer, if_neg (Nat.succ_ne_zero i), Nat.add_sub_cancel]
  rw [itemAt] at h
  simp only [h, fromLe_toLe hlt, h₁, h₂, h₃]

theorem tupleHead_length (xmin xmax ctidBlock ctidOff : Nat) :
    (tupleHead xmin xmax ctidBlock ctidOff).length = 18 := by
  simp only [tupleHead, List.length_append, toLe_length, List.length_replicate]

/-- The readers of a placed tuple. -/
theorem TupleAt.read {i xmin xmax cblk coff : Nat} {t : HeapTuple} (hxmin : xmin < 2 ^ 32) (hxmax : xmax < 2 ^ 32)
    (h : TupleAt page i (t.pageData (tupleHead xmin xmax cblk coff))) :
    ∃ lp hdr, linePointer page (i + 1) = .ok lp ∧ lp.flags = lpNormal ∧ readHeader page lp.off = .ok hdr ∧
      hdr.xmin = xmin ∧ hdr.xmax = xmax ∧ hdr.infomask = t.infomask ∧ hdr.infomask2 = t.infomask2 ∧
      Nonempty (t.OnPage page (i + 1)) := by
  obtain ⟨off, hheader, hsize, hitem, hslice⟩ := h
  let tup := t.pageData (tupleHead xmin xmax cblk coff)
  have hlong : 23 ≤ tup.length := by
    simp only [tup, HeapTuple.pageData, List.length_append, tupleHead_length, toLe_length]
    omega
  have hlt : off < 2 ^ 15 ∧ tup.length < 2 ^ 15 := by
    simp only [tup]
    unfold pageSize at hsize
    omega
  have hlp := linePointer_item hlt.1 (show 1 < 4 by decide) hlt.2 hitem
  have hhead : slice page off sizeofHeapTupleHeader = some (tup.take 23) := slice_prefix hslice hlong
  have h₁ : (tup.take 23).take 4 = toLe 4 xmin := rfl
  have h₂ : ((tup.take 23).drop 4).take 4 = toLe 4 xmax := rfl
  have h₃ : ((tup.take 23).drop 18).take 2 = toLe 2 t.infomask2 := rfl
  have h₄ : ((tup.take 23).drop 20).take 2 = toLe 2 t.infomask := rfl
  refine ⟨_, _, hlp, rfl, by rw [readHeader, hhead], ?_, ?_, ?_, ?_, ⟨?_⟩⟩
  · exact (congrArg fromLe h₁).trans (fromLe_toLe hxmin)
  · exact (congrArg fromLe h₂).trans (fromLe_toLe hxmax)
  · exact (congrArg fromLe h₄).trans (fromLe_toLe t.infomask_lt)
  · exact (congrArg fromLe h₃).trans (fromLe_toLe t.infomask2_lt)
  · exact {
      lpOff := off, head := tupleHead xmin xmax cblk coff, offnum_ne := Nat.succ_ne_zero i
      lpOff_lt := hlt.1, len_lt := hlt.2, head_length := tupleHead_length xmin xmax cblk coff
      itemid := by
        rw [Nat.add_sub_cancel]
        exact hitem
      tuple := hslice }

end Read

end Ltap
