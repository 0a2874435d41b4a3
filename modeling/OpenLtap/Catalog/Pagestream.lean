-- SUMMARY: The catalog of a database read over the wire is the catalog on the pages of the server (`catalog.rs`).
import OpenLtap.Catalog.Rows
import OpenLtap.Wire.PageAnswers

/-!
# The catalog over the pagestream

Which pages are asked for depends on the answers before: the number of blocks of a relation,
and the filenode of `pg_index`. A program that asks a server in this way comes to what it would
come to with the pages at hand.
-/

namespace Ltap

open Incremental Wire

/-! ## Programs that ask -/

section Answered

variable {α β : Type} {ps : Pageserver} {notices : List WireFrame}

theorem served_append (reqid : Nat) (calls calls' : List PageCall) :
    served ps notices reqid (calls ++ calls') =
      served ps notices reqid calls ++ served ps notices (calls.foldl (fun n _ => (n + 1) % 2 ^ 64) reqid) calls' := by
  induction calls generalizing reqid with
  | nil => rfl
  | cons call calls ih => simp only [List.cons_append, served, ih, List.foldl_cons]

theorem requestMsgs_append (reqid : Nat) (calls calls' : List PageCall) :
    requestMsgs reqid (calls ++ calls') =
      requestMsgs reqid calls ++ requestMsgs (calls.foldl (fun n _ => (n + 1) % 2 ^ 64) reqid) calls' := by
  induction calls generalizing reqid with
  | nil => rfl
  | cons call calls ih => simp only [List.cons_append, requestMsgs, ih, List.foldl_cons]

/-- On a connection whose server answers in turn, the program makes some calls, takes just their
answers and comes to `r`. -/
def Answered (ps : Pageserver) (notices : List WireFrame) (p : Wire α) (r : Except Fault α) : Prop :=
  ∀ reqid, ∃ calls : List PageCall, (∀ call ∈ calls, call.Fits) ∧ ∀ rest w,
    p ⟨[], served ps notices reqid calls ++ rest, w, reqid⟩ =
      (r, ⟨[], rest, w ++ requestMsgs reqid calls, calls.foldl (fun n _ => (n + 1) % 2 ^ 64) reqid⟩)

theorem Answered.pure (a : α) : Answered ps notices (pure a) (.ok a) := fun _ =>
  ⟨[], by simp, fun rest w => by simp [served, requestMsgs]⟩

theorem Answered.lift (r : Except Fault α) : Answered ps notices (lift r) r := fun _ =>
  ⟨[], by simp, fun rest w => by simp [served, requestMsgs]⟩

theorem Answered.bind {p : Wire α} {r : Except Fault α} {f : α → Wire β} {g : α → Except Fault β}
    (hp : Answered ps notices p r) (hf : ∀ a, r = .ok a → Answered ps notices (f a) (g a)) :
    Answered ps notices (p >>= f) (r >>= g) := by
  intro reqid
  obtain ⟨calls, hfits, hrun⟩ := hp reqid
  cases r with
  | error e => exact ⟨calls, hfits, fun rest w => by rw [bind_apply, hrun]; rfl⟩
  | ok a =>
    obtain ⟨calls', hfits', hrun'⟩ := hf a rfl (calls.foldl (fun n _ => (n + 1) % 2 ^ 64) reqid)
    refine ⟨calls ++ calls', fun call hcall => (List.mem_append.mp hcall).elim (hfits call) (hfits' call),
      fun rest w => ?_⟩
    rw [served_append, requestMsgs_append, List.append_assoc, bind_ok (hrun _ w), hrun', List.foldl_append,
      List.append_assoc]
    rfl

/-- What comes out wrapped came out. -/
theorem Answered.of_map {f : α → β} (hf : Function.Injective f) {p : Wire α} {r : Except Fault α}
    (h : Answered ps notices (p >>= fun a => Pure.pure (f a)) (r.map f)) : Answered ps notices p r := by
  intro reqid
  obtain ⟨calls, hfits, hrun⟩ := h reqid
  refine ⟨calls, hfits, fun rest w => ?_⟩
  have hwrapped := hrun rest w
  rw [bind_apply] at hwrapped
  rcases hp : p ⟨[], served ps notices reqid calls ++ rest, w, reqid⟩ with ⟨_ | a, c'⟩
  · rw [hp] at hwrapped
    cases r with
    | error e =>
      cases hwrapped
      rfl
    | ok b => cases hwrapped
  · rw [hp] at hwrapped
    cases r with
    | error e => cases hwrapped
    | ok b =>
      obtain ⟨hvalue, hconn⟩ := Prod.mk.inj hwrapped
      rw [hf (Except.ok.inj hvalue), hconn]

theorem Answered.call (hnotices : ∀ f ∈ notices, f.tag = 0x4E) {call : PageCall} (hfits : call.Fits) :
    Answered ps notices call.run (ps.answer call) := fun reqid =>
  ⟨[call], by simpa using hfits, fun rest w => run_answered hnotices hfits rest w reqid⟩

end Answered

/-! ## Pages -/

/-- `catalog::PagestreamSource`, behind the connection. -/
structure PagestreamSource where
  spc : Oid
  db : Oid
  lsn : Nat

namespace PagestreamSource

def rel (src : PagestreamSource) (filenode : Oid) : ForkTag := ⟨src.spc, src.db, filenode, 0⟩

def blocks (src : PagestreamSource) (filenode : Oid) : List Nat → Wire (List Bytes)
  | [] => return []
  | blk :: blks => do
    let page ← getPage (src.rel filenode) blk src.lsn
    let pages ← src.blocks filenode blks
    return page :: pages

def relPages (src : PagestreamSource) (filenode : Oid) : Wire (List Bytes) := do
  let n ← relNblocks (src.rel filenode) src.lsn
  src.blocks filenode (List.range n)

def scan (src : PagestreamSource) (clog : ClogSource) (filenode : Oid) : Wire (List Bytes) := do
  let pages ← src.relPages filenode
  lift (visibleTuples clog (pages.flatMap pageTuples))

/-- `Catalog::load` from the pagestream. -/
def load (src : PagestreamSource) (clog : ClogSource) (mapped : MappedRels) : Wire PageCatalog := do
  let classRows := (← src.scan clog mapped.pgClass).filterMap parsePgClass
  let attRows := (← src.scan clog mapped.pgAttribute).filterMap parsePgAttribute
  let indexNode := mapped.pgIndex.or
    (((classRows.find? (·.oid = pgIndexOid)).map (·.filenode)).filter (· ≠ 0))
  match indexNode with
  | some node =>
    let indexRows := (← src.scan clog node).filterMap parsePgIndex
    return { db := src.db, classRows, attRows, indexRows }
  | none => return { db := src.db, classRows, attRows, indexRows := [] }

end PagestreamSource

/-- The pages of the server, as one who has them at hand would read them. -/
def Pageserver.source (ps : Pageserver) (src : PagestreamSource) : PageSource where
  db := src.db
  relNblocks filenode :=
    match ps.relNblocks (src.rel filenode) src.lsn with
    | .ok n => .ok n.val
    | .error e => bail s!"Nblocks: pageserver error: {e.text}"
  getPage filenode blk :=
    match ps.page (src.rel filenode) blk src.lsn with
    | .ok p => .ok p.val
    | .error e => bail s!"GetPage: pageserver error: {e.text}"

namespace PagestreamSource

variable {ps : Pageserver} {notices : List WireFrame} {src : PagestreamSource} {clog : ClogSource}

/-- The numbers of the source fit their fields. -/
structure Fits (src : PagestreamSource) : Prop where
  spc : src.spc < 2 ^ 32
  db : src.db < 2 ^ 32
  lsn : src.lsn < 2 ^ 64

theorem rel_fits (hsrc : src.Fits) {filenode : Oid} (h : filenode < 2 ^ 32) : (src.rel filenode).Fits :=
  ⟨hsrc.spc, hsrc.db, h⟩

theorem relNblocks_answered (hnotices : ∀ f ∈ notices, f.tag = 0x4E) (hsrc : src.Fits) {filenode : Oid}
    (h : filenode < 2 ^ 32) :
    Answered ps notices (relNblocks (src.rel filenode) src.lsn) ((ps.source src).relNblocks filenode) := by
  refine .of_map (f := PageResult.nblocks) (fun _ _ => PageResult.nblocks.inj) ?_
  have hcall : Answered ps notices (PageCall.run (.nblocks (src.rel filenode) src.lsn)) _ :=
    .call hnotices ⟨rel_fits hsrc h, hsrc.lsn⟩
  have hanswer : ps.answer (.nblocks (src.rel filenode) src.lsn) =
      ((ps.source src).relNblocks filenode).map PageResult.nblocks := by
    simp only [Pageserver.answer, Pageserver.source]
    cases ps.relNblocks (src.rel filenode) src.lsn <;> rfl
  rw [hanswer] at hcall
  exact hcall

theorem getPage_answered (hnotices : ∀ f ∈ notices, f.tag = 0x4E) (hsrc : src.Fits) {filenode : Oid}
    (h : filenode < 2 ^ 32) {blk : Nat} (hblk : blk < 2 ^ 32) :
    Answered ps notices (getPage (src.rel filenode) blk src.lsn) ((ps.source src).getPage filenode blk) := by
  refine .of_map (f := PageResult.page) (fun _ _ => PageResult.page.inj) ?_
  have hcall : Answered ps notices (PageCall.run (.page (src.rel filenode) blk src.lsn)) _ :=
    .call hnotices ⟨rel_fits hsrc h, hblk, hsrc.lsn⟩
  have hanswer : ps.answer (.page (src.rel filenode) blk src.lsn) =
      ((ps.source src).getPage filenode blk).map PageResult.page := by
    simp only [Pageserver.answer, Pageserver.source]
    cases ps.page (src.rel filenode) blk src.lsn <;> rfl
  rw [hanswer] at hcall
  exact hcall

theorem blocks_answered (hnotices : ∀ f ∈ notices, f.tag = 0x4E) (hsrc : src.Fits) {filenode : Oid}
    (h : filenode < 2 ^ 32) {blks : List Nat} (hblks : ∀ blk ∈ blks, blk < 2 ^ 32) :
    Answered ps notices (src.blocks filenode blks) (blks.mapM ((ps.source src).getPage filenode)) := by
  induction blks with
  | nil => exact .pure []
  | cons blk blks ih =>
    rw [List.mapM_cons]
    refine .bind (getPage_answered hnotices hsrc h (hblks blk List.mem_cons_self)) fun page _ => ?_
    exact .bind (ih fun b hb => hblks b (List.mem_cons_of_mem blk hb)) fun pages _ => .pure _

theorem relPages_answered (hnotices : ∀ f ∈ notices, f.tag = 0x4E) (hsrc : src.Fits) {filenode : Oid}
    (h : filenode < 2 ^ 32) :
    Answered ps notices (src.relPages filenode) ((ps.source src).relPages filenode) := by
  refine .bind (relNblocks_answered hnotices hsrc h) fun n hn => blocks_answered hnotices hsrc h fun blk hblk => ?_
  have hcount : n < 2 ^ 32 := by
    dsimp only at hn
    split at hn
    · rename_i m _
      cases hn
      exact m.isLt
    · cases hn
  exact lt_trans (List.mem_range.mp hblk) hcount

theorem scan_answered (hnotices : ∀ f ∈ notices, f.tag = 0x4E) (hsrc : src.Fits) {filenode : Oid}
    (h : filenode < 2 ^ 32) :
    Answered ps notices (src.scan clog filenode) (Ltap.scan (ps.source src) clog filenode) :=
  .bind (relPages_answered hnotices hsrc h) fun _ _ => .lift _

theorem leAt_lt {a : Bytes} {off n v : Nat} (h : leAt a off n = some v) : v < 256 ^ n := by
  obtain ⟨bs, hslice, rfl⟩ := Option.map_eq_some_iff.mp h
  unfold slice at hslice
  split at hslice
  · cases hslice
    refine lt_of_lt_of_le (fromLe_lt _) (Nat.pow_le_pow_right (by decide) ?_)
    exact List.length_take_le _ _
  · cases hslice

theorem parsePgClass_filenode {a : Bytes} {c : ClassRow} (h : parsePgClass a = some c) : c.filenode < 2 ^ 32 := by
  simp only [parsePgClass, Option.bind_eq_bind, Option.bind_eq_some_iff, Option.pure_def, Option.some.injEq] at h
  obtain ⟨_, -, _, -, _, -, filenode, hfilenode, _, -, _, -, _, -, rfl⟩ := h
  exact leAt_lt hfilenode

/-- A database read over the wire, one request after another, gives the catalog that is on the pages
of the server, or fails where reading these pages fails. -/
theorem load_answered (hnotices : ∀ f ∈ notices, f.tag = 0x4E) (hsrc : src.Fits) {mapped : MappedRels}
    (hclass : mapped.pgClass < 2 ^ 32) (hattribute : mapped.pgAttribute < 2 ^ 32)
    (hindex : ∀ node ∈ mapped.pgIndex, node < 2 ^ 32) :
    Answered ps notices (src.load clog mapped) (PageCatalog.load (ps.source src) clog mapped) := by
  refine .bind (scan_answered hnotices hsrc hclass) fun classes _ =>
    .bind (scan_answered hnotices hsrc hattribute) fun atts _ => ?_
  dsimp only
  generalize hnode : Option.or _ _ = indexNode
  cases indexNode with
  | none => exact .pure _
  | some node =>
    have hsmall : node < 2 ^ 32 := by
      rcases Option.or_eq_some_iff.mp hnode with h | ⟨-, h⟩
      · exact hindex node h
      · obtain ⟨h, -⟩ := Option.filter_eq_some_iff.mp h
        obtain ⟨c, hfind, rfl⟩ := Option.map_eq_some_iff.mp h
        obtain ⟨a, -, hparse⟩ := List.mem_filterMap.mp (List.mem_of_find?_eq_some hfind)
        exact parsePgClass_filenode hparse
    exact .bind (scan_answered hnotices hsrc hsmall) fun _ _ => .pure _

end PagestreamSource

/-- A relation of two blocks, and an empty one. -/
theorem PagestreamSource.load_answered_two :
    Answered Sample.pageserver [] (load ⟨1663, 5, 7⟩ (fun _ => .ok []) ⟨16384, 2, none⟩)
      (PageCatalog.load (Sample.pageserver.source ⟨1663, 5, 7⟩) (fun _ => .ok []) ⟨16384, 2, none⟩) :=
  load_answered (by simp) ⟨by decide, by decide, by decide⟩ (by decide) (by decide) (by simp)

end Ltap
