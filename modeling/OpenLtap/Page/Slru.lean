-- SUMMARY: Pages read from the segment files of a directory (`clog.rs`, `multixact.rs`).
import OpenLtap.Base.Keyed
import OpenLtap.Base.Packed
import OpenLtap.Page.MultiXact
import OpenLtap.Wal.InsertPaths

/-!
# Segment files

The tables of transactions and of multixacts are kept in directories of segment files, 32
pages a file. The name of a file is the number of its segment.
-/

namespace Ltap

def slruPagesPerSegment : Nat := 32

/-- What reading a path gives. -/
abbrev Files := String → Except Fault Bytes

/-- `Path::join` with a relative path. -/
def joinPath (dir name : String) : String :=
  if dir = "" ∨ dir.toList.getLast? = some '/' then dir ++ name else dir ++ "/" ++ name

/-- `{:04X}`. -/
def segmentName (segno : Nat) : String :=
  let digits := (Nat.toDigits 16 segno).map Char.toUpper
  String.ofList (List.replicate (4 - digits.length) '0' ++ digits)

example : segmentName 0 = "0000" := rfl

example : segmentName 4095 = "0FFF" := rfl

namespace Files

variable (files : Files)

def readSlruSegmentPage (dir : String) (pageno : Nat) : Except Fault Bytes := do
  let segno := pageno / slruPagesPerSegment
  let pageInSeg := pageno % slruPagesPerSegment
  let path := joinPath dir (segmentName segno)
  let bytes ← withContext s!"reading SLRU segment {path}" (files path)
  match slice bytes (pageInSeg * pageSz) pageSz with
  | none => bail s!"SLRU segment {path} has no page {pageInSeg}"
  | some page => return page

/-- `FileClogSource`. -/
def fileClogSource (dir : String) : ClogSource := files.readSlruSegmentPage dir

/-- `FileMultiXactSource`. -/
def fileMultiXactSource (pgMultixactDir : String) : MultiXactSource where
  offsetsPage := files.readSlruSegmentPage (joinPath pgMultixactDir "offsets")
  membersPage := files.readSlruSegmentPage (joinPath pgMultixactDir "members")

/-! ## Directories that hold a table -/

/-- The first segments of a table of pages are there. -/
def HoldsPages (dir : String) (pages : Nat → Bytes) (segs : Nat) : Prop :=
  ∀ segno < segs, files (joinPath dir (segmentName segno)) = .ok (Packed.block pages 32 segno).flatten

variable {files}

theorem HoldsPages.readSlruSegmentPage {dir : String} {pages : Nat → Bytes} {segs : Nat}
    (h : files.HoldsPages dir pages segs) (hfull : ∀ pageno, (pages pageno).length = 8192) {pageno : Nat}
    (hlt : pageno / 32 < segs) : files.readSlruSegmentPage dir pageno = .ok (pages pageno) := by
  obtain ⟨before, after, hsegment, hbefore⟩ := Packed.flatten_block_split hfull (by decide : 0 < 32) pageno
  have hread := h (pageno / 32) hlt
  rw [hsegment] at hread
  have hpage : slice (before ++ (pages pageno ++ after)) (pageno % slruPagesPerSegment * pageSz) pageSz =
      some (pages pageno) := slice_append hbefore (hfull pageno)
  unfold Files.readSlruSegmentPage
  simp only [show pageno / slruPagesPerSegment = pageno / 32 from rfl, hread, withContext, bind, Except.bind, hpage]
  rfl

/-- What the tables store can be read from their segments. -/
theorem fileMultiXactSource_stores {dir : String} {offsets members : Nat → Bytes} {multis : List MultiXact}
    (hoffsets : ∀ pageno, (offsets pageno).length = 8192) (hmembers : ∀ pageno, (members pageno).length = 8192)
    (ho : files.HoldsPages (joinPath dir "offsets") offsets 65536)
    (hm : files.HoldsPages (joinPath dir "members") members 82041)
    (h : (MultiXactSource.mk (fun pageno => .ok (offsets pageno)) fun pageno => .ok (members pageno)).Stores multis) :
    (files.fileMultiXactSource dir).Stores multis where
  chained := h.chained
  offsets := by
    intro m hmem
    obtain ⟨page, hpage, hentry⟩ := h.offsets m hmem
    obtain rfl := Except.ok.inj hpage
    refine ⟨_, ho.readSlruSegmentPage hoffsets ?_, hentry⟩
    have := m.id_lt
    omega
  unused := by
    obtain ⟨page, hpage, hentry⟩ := h.unused
    obtain rfl := Except.ok.inj hpage
    exact ⟨_, ho.readSlruSegmentPage hoffsets (by decide), hentry⟩
  members := by
    intro m hmem k member hk
    obtain ⟨page, hpage, hmember⟩ := h.members m hmem k member hk
    obtain rfl := Except.ok.inj hpage
    refine ⟨_, hm.readSlruSegmentPage hmembers ?_, hmember⟩
    unfold countOn
    omega

end Files

/-! ## Names of segments -/

theorem joinPath_injective (dir : String) : Function.Injective (joinPath dir) := by
  intro name name' h
  unfold joinPath at h
  split at h
  · exact (String.append_right_inj _).mp h
  · exact (String.append_right_inj _).mp h

def hexDigitValue (c : Char) : Nat := if c.toNat < 65 then c.toNat - 48 else c.toNat - 55

/-- The number that upper-case digits spell. -/
def hexValue (digits : List Char) : Nat := digits.foldl (fun n c => 16 * n + hexDigitValue c) 0

theorem hexDigitValue_toUpper {d : Nat} (h : d < 16) : hexDigitValue d.digitChar.toUpper = d := by
  revert d
  decide

theorem hexValue_toDigits (n : Nat) : hexValue ((Nat.toDigits 16 n).map Char.toUpper) = n := by
  induction n using Nat.strong_induction_on with
  | _ n ih =>
    by_cases h : n < 16
    · rw [Nat.toDigits_of_lt_base h]
      simpa [hexValue] using hexDigitValue_toUpper h
    · have hhigh := ih (n / 16) (by omega)
      rw [hexValue] at hhigh
      rw [Nat.toDigits_of_base_le (by decide) (by omega), List.map_append, hexValue, List.foldl_append, hhigh]
      simp only [List.map_cons, List.map_nil, List.foldl_cons, List.foldl_nil]
      rw [hexDigitValue_toUpper (Nat.mod_lt n (by decide)), Nat.div_add_mod]

theorem hexValue_zeros (k : Nat) (digits : List Char) : hexValue (List.replicate k '0' ++ digits) = hexValue digits := by
  induction k with
  | zero => rfl
  | succ k ih => exact ih

theorem segmentName_injective : Function.Injective segmentName := by
  intro n n' h
  have hdigits := congrArg hexValue (String.ofList_injective h)
  rwa [hexValue_zeros, hexValue_zeros, hexValue_toDigits, hexValue_toDigits] at hdigits

/-- A directory of the first segments of a table. -/
def segmentFiles (dir : String) (pages : Nat → Bytes) (segs : Nat) : Files := fun path =>
  match (List.range segs).find? fun segno => joinPath dir (segmentName segno) = path with
  | none => bail "No such file or directory (os error 2)"
  | some segno => .ok (Packed.block pages 32 segno).flatten

theorem segmentFiles_holds (dir : String) (pages : Nat → Bytes) (segs : Nat) :
    (segmentFiles dir pages segs).HoldsPages dir pages segs := by
  intro segno hlt
  have hone : Keyed.AtMostOne (fun n => decide (joinPath dir (segmentName n) = joinPath dir (segmentName segno)) = true)
      (List.range segs) := by
    intro n _ n' _ hn hn'
    have heq := (of_decide_eq_true hn).trans (of_decide_eq_true hn').symm
    exact segmentName_injective (joinPath_injective dir heq)
  have hfind := (Keyed.find?_eq_some_iff hone).mpr ⟨List.mem_range.mpr hlt, decide_eq_true rfl⟩
  rw [segmentFiles, hfind]

end Ltap
