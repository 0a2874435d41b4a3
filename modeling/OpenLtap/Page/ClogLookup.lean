-- SUMMARY: Looking a transaction up in the commit log gives the status that was packed there (`clog.rs`).
import OpenLtap.Page.Slru
import OpenLtap.Page.Visibility

/-!
# Lookups in the commit log

An assignment gives every transaction a status. The log packs it: two bits a transaction, four
transactions a byte with the first in the lowest bits, 32768 a page, 32 pages a segment.
-/

namespace Ltap

/-! ## Packing -/

def TxnStatus.code : TxnStatus → Nat
  | .inProgress => 0
  | .committed => 1
  | .aborted => 2
  | .subCommitted => 3

theorem TxnStatus.code_lt (status : TxnStatus) : status.code < 2 ^ 2 := by
  cases status <;> decide

section Packing

variable (σ : Xid → TxnStatus)

/-- The statuses of four transactions. -/
def clogByte (i : Nat) : UInt8 := UInt8.ofNat (Nat.ofDigits (2 ^ 2) (Packed.block (fun xid => (σ xid).code) 4 i))

/-- 8192 bytes hold 32768 transactions. -/
def clogPage (pageno : Nat) : Bytes := Packed.block (clogByte σ) 8192 pageno

theorem clogPage_length (pageno : Nat) : (clogPage σ pageno).length = 8192 := Packed.length_block

/-- The log of an assignment, page by page. -/
def packedLog : Log where
  pages := clogPage σ
  full := clogPage_length σ

@[simp] theorem packedLog_pages : (packedLog σ).pages = clogPage σ := by
  simp only [packedLog]

end Packing

/-- On a running server 760, 761 and 763 were committed, 762 was aborted. -/
def grounded : Xid → TxnStatus := fun xid => if xid = 762 then .aborted else .committed

example : clogByte grounded 190 = 0x65 := by decide

variable {σ : Xid → TxnStatus}

theorem clogByte_toNat (i : Nat) :
    (clogByte σ i).toNat = Nat.ofDigits (2 ^ 2) (Packed.block (fun xid => (σ xid).code) 4 i) := by
  have hlt : Nat.ofDigits (2 ^ 2) (Packed.block (fun xid => (σ xid).code) 4 i) < 2 ^ (2 * 4) :=
    Packed.ofDigits_block_lt (by decide) (fun xid => (σ xid).code_lt) i
  exact UInt8.toNat_ofNat_of_lt' hlt

/-- The two bits of a transaction, in its byte. -/
theorem clogByte_field (xid : Xid) : ((clogByte σ (xid / 4)).toNat >>> (xid % 4 * 2)) &&& 0x3 = (σ xid).code := by
  rw [clogByte_toNat]
  exact Packed.field_block (fun xid => (σ xid).code_lt) (by decide) xid

/-- The byte of a transaction, on its page. -/
theorem clogPage_getElem? (xid : Xid) :
    (clogPage σ (xid / 32768))[xid % 32768 / 4]? = some (clogByte σ (xid / 4)) := by
  have h : (clogPage σ (xid / 4 / 8192))[xid / 4 % 8192]? = some (clogByte σ (xid / 4)) :=
    Packed.getElem?_block_div (by decide) (xid / 4)
  rwa [Nat.div_div_eq_div_mul, ← Nat.mod_mul_right_div_self] at h

theorem statusInPage_clogPage (xid : Xid) : statusInPage (clogPage σ (xidToPage xid)) xid = .ok (σ xid) := by
  have hbyte : byteBit xid = (xid % 32768 / 4, xid % 32768 % 4 * 2) := rfl
  have hshift : xid % 32768 % 4 = xid % 4 := Nat.mod_mod_of_dvd xid (by decide)
  rw [statusInPage, hbyte, show xidToPage xid = xid / 32768 from rfl]
  simp only [clogPage_getElem?, hshift, clogByte_field]
  cases σ xid <;> rfl

/-- The log says of a transaction what was packed. -/
theorem packedLog_says (xid : Xid) : (packedLog σ).Says xid ↔ σ xid = .committed := by
  rw [Log.Says, packedLog_pages, statusInPage_clogPage]
  exact ⟨Except.ok.inj, congrArg _⟩

theorem packedLog_didCommit (xid : Xid) :
    (packedLog σ).DidCommit xid ↔ xid = bootstrapXid ∨ xid = frozenXid ∨ σ xid = .committed := by
  rw [Log.DidCommit, packedLog_says]

/-! ## Sources -/

/-- The source answers with the pages of the log for every 32-bit transaction, or reads them from a
directory that holds its segments. -/
inductive ClogSource.Holds (σ : Xid → TxnStatus) : ClogSource → Prop
  | pages {src : ClogSource} (h : ∀ pageno < 131072, src pageno = .ok (clogPage σ pageno)) : Holds σ src
  | segments {files : Files} {dir : String} (h : files.HoldsPages dir (clogPage σ) 4096) :
      Holds σ (files.fileClogSource dir)

namespace ClogSource

variable {src : ClogSource}

theorem Holds.page (h : src.Holds σ) {pageno : Nat} (hlt : pageno < 131072) :
    src pageno = .ok (clogPage σ pageno) := by
  cases h with
  | pages h => exact h pageno hlt
  | segments h => exact h.readSlruSegmentPage (clogPage_length σ) (by omega)

theorem Holds.resolve (h : src.Holds σ) {xid : Xid} (hord : frozenXid < xid) (hlt : xid < 2 ^ 32) :
    src.resolve xid = .ok (σ xid) := by
  have hfrozen : xid ≠ frozenXid := (Nat.ne_of_lt hord).symm
  have hboot : xid ≠ bootstrapXid := (Nat.ne_of_lt (Nat.lt_trans (by decide) hord)).symm
  have hvalid : xid ≠ invalidXid := (Nat.ne_of_lt (Nat.lt_trans (by decide) hord)).symm
  have hpage : src (xidToPage xid) = .ok (clogPage σ (xidToPage xid)) := h.page (Nat.div_lt_of_lt_mul hlt)
  rw [ClogSource.resolve, if_neg (not_or.mpr ⟨hboot, hfrozen⟩), if_neg hvalid, hpage]
  simp only [bind, Except.bind]
  exact statusInPage_clogPage xid

/-- Nothing is looked up for the transactions before the ordinary ones. -/
theorem resolve_old (src src' : ClogSource) {xid : Nat} (h : xid < 3) : src.resolve xid = src'.resolve xid := by
  obtain rfl | rfl | rfl : xid = 0 ∨ xid = 1 ∨ xid = 2 := by omega
  · rfl
  · rfl
  · rfl

/-- A directory of segments and a server of pages are the same to every reader. -/
theorem Holds.resolve_eq (h : src.Holds σ) {src' : ClogSource} (h' : src'.Holds σ) {xid : Xid} (hlt : xid < 2 ^ 32) :
    src.resolve xid = src'.resolve xid := by
  rcases Nat.lt_or_ge frozenXid xid with hord | hold
  · rw [h.resolve hord hlt, h'.resolve hord hlt]
  · exact resolve_old src src' (Nat.lt_succ_of_le hold)

theorem Holds.tupleVisible_congr (h : src.Holds σ) {src' : ClogSource} (h' : src'.Holds σ) {xmin xmax : Xid}
    (hmin : xmin < 2 ^ 32) (hmax : xmax < 2 ^ 32) (infomask : Nat) :
    src.tupleVisible xmin xmax infomask = src'.tupleVisible xmin xmax infomask := by
  simp only [ClogSource.tupleVisible, h.resolve_eq h' hmin, h.resolve_eq h' hmax]

theorem packedLog_holds (σ : Xid → TxnStatus) : (packedLog σ).source.Holds σ :=
  .pages fun pageno _ => by simp only [Log.source, packedLog_pages]

theorem segmentFiles_fileClogSource (dir : String) (σ : Xid → TxnStatus) :
    ((segmentFiles dir (clogPage σ) 4096).fileClogSource dir).Holds σ :=
  .segments (segmentFiles_holds dir (clogPage σ) 4096)

/-- A version is visible if its inserter was assigned a commit, or is older than the log, and nobody of whom
this holds removed it. -/
theorem Holds.visible_iff (h : src.Holds σ) {xmin xmax : Xid} {infomask : Nat} (hxmin : xmin ≠ invalidXid)
    (hmin : xmin < 2 ^ 32) (hmax : xmax < 2 ^ 32)
    (hplain : xmax = invalidXid ∨ infomask &&& heapXmaxIsMulti = 0 ∨ infomask &&& heapXmaxLockOnly ≠ 0) :
    src.tupleVisible xmin xmax infomask = .ok true ↔
      (packedLog σ).DidCommit xmin ∧ ¬ (packedLog σ).Removed xmax infomask := by
  obtain ⟨visible, hresult, hiff⟩ := (packedLog σ).tupleVisible_eq hxmin hplain
  rw [h.tupleVisible_congr (packedLog_holds σ) hmin hmax, hresult, ← hiff]
  exact ⟨Except.ok.inj, congrArg _⟩

/-- Whatever is assigned, every ordinary transaction is answered with it and the two older ones are
committed. Another status of one transaction is another answer for this one only. -/
theorem resolve_assigned (σ : Xid → TxnStatus) (src : ClogSource) (h : src.Holds σ) :
    (∀ xid, frozenXid < xid → xid < 2 ^ 32 → src.resolve xid = .ok (σ xid)) ∧
      src.resolve bootstrapXid = .ok .committed ∧ src.resolve frozenXid = .ok .committed ∧
      ∀ (x : Xid) (status : TxnStatus) (src' : ClogSource), src'.Holds (Function.update σ x status) →
        (frozenXid < x → x < 2 ^ 32 → src'.resolve x = .ok status) ∧
          ∀ y < 2 ^ 32, y ≠ x → src'.resolve y = src.resolve y := by
  refine ⟨fun _ hord hlt => h.resolve hord hlt, rfl, rfl, fun x status src' h' => ⟨?_, ?_⟩⟩
  · intro hord hlt
    rw [h'.resolve hord hlt, Function.update_self]
  · intro y hlt hne
    rcases Nat.lt_or_ge frozenXid y with hord | hold
    · rw [h'.resolve hord hlt, h.resolve hord hlt, Function.update_of_ne hne]
    · exact resolve_old src' src (Nat.lt_succ_of_le hold)

theorem resolve_assigned_last :
    ((segmentFiles "pg_xact" (clogPage grounded) 4096).fileClogSource "pg_xact").resolve 762 = .ok .aborted ∧
      (packedLog (Function.update grounded 4294967295 .inProgress)).source.resolve 4294967295 = .ok .inProgress ∧
      (packedLog (Function.update grounded 4294967295 .inProgress)).source.resolve 4294967294 =
        ((segmentFiles "pg_xact" (clogPage grounded) 4096).fileClogSource "pg_xact").resolve 4294967294 := by
  obtain ⟨hall, -, -, hchange⟩ := resolve_assigned grounded _ (segmentFiles_fileClogSource "pg_xact" grounded)
  obtain ⟨hself, hother⟩ := hchange 4294967295 .inProgress _ (packedLog_holds _)
  exact ⟨hall 762 (by decide) (by decide), hself (by decide) (by decide), hother _ (by decide) (by decide)⟩

end ClogSource

end Ltap
