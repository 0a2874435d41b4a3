-- SUMMARY: The index of a layer file (`examples/layerscan.rs`): the walk ends exactly on finite trees of whole blocks.
import OpenLtap.Base.PointerTree
import OpenLtap.Layer.Summary

/-!
# The index of a layer file

The index is a tree of blocks with keys of one width: the keys of a block share a prefix, and the
values of an inner block are the numbers of its children.
-/

namespace Ltap

/-! ## Blocks of the index -/

/-- The first `k` pieces of `n` bytes. -/
def pieces (n : Nat) : Nat → Bytes → List Bytes
  | 0, _ => []
  | k + 1, b => b.take n :: pieces n k (b.drop n)

/-- One block of the index, with keys of `width` bytes. The sum of the block numbers is one of 32 bits
with an overflow check. -/
def readNode (file : Bytes) (width indexStartBlk nodeBlk : Nat) : Except Fault (PointerTree.Node (Bytes × Nat)) :=
  if 2 ^ 32 ≤ indexStartBlk + nodeBlk then .error .panic
  else
    match slice file ((indexStartBlk + nodeBlk) * pageSize) pageSize with
    | none => bail "btree node beyond file"
    | some b =>
      let num := fromBe (b.take 2)
      let level := fromBe ((b.drop 2).take 1)
      let plen := fromBe ((b.drop 3).take 1)
      let slen := fromBe ((b.drop 4).take 1)
      if plen + slen ≠ width then bail s!"btree node key width {plen + slen} != {width}"
      else if b.length < 5 + plen + num * slen + num * 5 then .error .panic
      else
        let shared := (b.drop 5).take plen
        let keys := pieces slen num (b.drop (5 + plen))
        let vals := pieces 5 num (b.drop (5 + plen + num * slen))
        if 0 < level then .ok (.inner (vals.map fun v => fromBe ((v.drop 1).take 4)))
        else .ok (.leaf (List.zipWith (fun k v => (shared ++ k, fromBe v)) keys vals))

/-- The keys below a block, each with its value. -/
def walkBtree (file : Bytes) (width indexStartBlk fuel nodeBlk : Nat) : Option (Except Fault (List (Bytes × Nat))) :=
  PointerTree.walk (readNode file width indexStartBlk) fuel nodeBlk

/-! ## Pieces -/

section Pieces

variable {n k : Nat} {b : Bytes}

theorem pieces_length (n k : Nat) (b : Bytes) : (pieces n k b).length = k := by
  induction k generalizing b with
  | zero => rfl
  | succ k ih => rw [pieces, List.length_cons, ih]

theorem length_of_mem_pieces (h : k * n ≤ b.length) {x : Bytes} (hx : x ∈ pieces n k b) : x.length = n := by
  induction k generalizing b with
  | zero => cases hx
  | succ k ih =>
    rw [Nat.succ_mul] at h
    rcases List.mem_cons.mp hx with rfl | hx
    · rw [List.length_take]
      omega
    · exact ih (by rw [List.length_drop]; omega) hx

theorem length_flatten_of_forall {xs : List Bytes} (h : ∀ x ∈ xs, x.length = n) :
    xs.flatten.length = xs.length * n := by
  rw [List.length_flatten, List.map_eq_replicate_iff.mpr h, List.sum_replicate, smul_eq_mul]

theorem flatten_pieces (n k : Nat) (b : Bytes) : (pieces n k b).flatten = b.take (k * n) := by
  induction k generalizing b with
  | zero => rw [Nat.zero_mul, List.take_zero, pieces, List.flatten_nil]
  | succ k ih =>
    rw [pieces, List.flatten_cons, ih, Nat.succ_mul, Nat.add_comm, List.take_add]

theorem pieces_flatten {xs : List Bytes} (h : ∀ x ∈ xs, x.length = n) (rest : Bytes) :
    pieces n xs.length (xs.flatten ++ rest) = xs := by
  induction xs with
  | nil => rfl
  | cons x xs ih =>
    obtain ⟨hx, hxs⟩ := List.forall_mem_cons.mp h
    rw [List.flatten_cons, List.append_assoc, List.length_cons, pieces, List.take_left' hx, List.drop_left' hx, ih hxs]

end Pieces

theorem fromBe_singleton (b : UInt8) : fromBe [b] = b.toNat := by simp [fromBe, fromLe]

/-! ## Well-formed blocks -/

/-- A block of the index, with keys of `width` bytes: what its keys share, and the rest of each with a value. -/
structure NodePage (width : Nat) where
  level : UInt8
  shared : Bytes
  items : List (Bytes × Bytes)
  pad : Bytes
  shared_le : shared.length ≤ width
  suffixes : ∀ p ∈ items, p.1.length = width - shared.length
  values : ∀ p ∈ items, p.2.length = 5
  few : items.length < 2 ^ 16
  fills : 5 + shared.length + items.length * (width - shared.length) + items.length * 5 + pad.length = pageSize

namespace NodePage

variable {width : Nat} (page : NodePage width)

def bytes : Bytes :=
  toBe 2 page.items.length ++ (page.level :: UInt8.ofNat page.shared.length ::
    UInt8.ofNat (width - page.shared.length) :: (page.shared ++ ((page.items.map (·.1)).flatten ++
      ((page.items.map (·.2)).flatten ++ page.pad))))

/-- The children of an inner block: numbers behind a marker. -/
def children : List Nat := page.items.map fun p => fromBe ((p.2.drop 1).take 4)

/-- The keys of a leaf, with their values. -/
def entries : List (Bytes × Nat) := page.items.map fun p => (page.shared ++ p.1, fromBe p.2)

def node : PointerTree.Node (Bytes × Nat) := if 0 < page.level.toNat then .inner page.children else .leaf page.entries

theorem node_eq : page.node =
    if 0 < page.level.toNat then .inner ((page.items.map (·.2)).map fun v => fromBe ((v.drop 1).take 4))
    else .leaf
      (List.zipWith (fun k v => (page.shared ++ k, fromBe v)) (page.items.map (·.1)) (page.items.map (·.2))) := by
  rw [node, children, entries, List.map_map, List.zipWith_map, List.zipWith_self]
  rfl

end NodePage

/-- The block of this number is a well-formed one. -/
def PageAt (file : Bytes) {width : Nat} (blk : Nat) (page : NodePage width) : Prop :=
  blk < 2 ^ 32 ∧ slice file (blk * pageSize) pageSize = some page.bytes

section Fields

variable {width : Nat} (page : NodePage width)

theorem NodePage.keys_length : ∀ x ∈ page.items.map (·.1), x.length = width - page.shared.length :=
  List.forall_mem_map.mpr page.suffixes

theorem NodePage.vals_length : ∀ x ∈ page.items.map (·.2), x.length = 5 := List.forall_mem_map.mpr page.values

theorem NodePage.bytes_take : page.bytes.take 2 = toBe 2 page.items.length :=
  List.take_left' (toBe_length 2 _)

theorem NodePage.bytes_drop (k : Nat) :
    page.bytes.drop (2 + k) = (page.level :: UInt8.ofNat page.shared.length ::
      UInt8.ofNat (width - page.shared.length) :: (page.shared ++ ((page.items.map (·.1)).flatten ++
        ((page.items.map (·.2)).flatten ++ page.pad)))).drop k := by
  rw [← List.drop_drop, NodePage.bytes, List.drop_left' (toBe_length 2 _)]

theorem NodePage.bytes_length : page.bytes.length = pageSize := by
  have hkeys := length_flatten_of_forall page.keys_length
  have hvals := length_flatten_of_forall page.vals_length
  have hfills := page.fills
  rw [List.length_map] at hkeys hvals
  simp only [NodePage.bytes, List.length_append, List.length_cons, toBe_length, hkeys, hvals]
  omega

end Fields

theorem readNode_pageAt {file : Bytes} {width start nodeBlk : Nat} {page : NodePage width} (hwidth : width < 256)
    (h : PageAt file (start + nodeBlk) page) : readNode file width start nodeBlk = .ok page.node := by
  obtain ⟨hblk, hslice⟩ := h
  have hshared := page.shared_le
  have hbyte : ∀ n, n < 256 → fromBe [UInt8.ofNat n] = n := by
    intro n hn
    rw [fromBe_singleton, UInt8.toNat_ofNat', Nat.mod_eq_of_lt hn]
  have hnum : fromBe (page.bytes.take 2) = page.items.length := by
    rw [page.bytes_take, fromBe_toBe page.few]
  have hlevel : fromBe ((page.bytes.drop 2).take 1) = page.level.toNat := by
    rw [page.bytes_drop 0]
    exact fromBe_singleton _
  have hplen : fromBe ((page.bytes.drop 3).take 1) = page.shared.length := by
    rw [page.bytes_drop 1]
    exact hbyte _ (lt_of_le_of_lt hshared hwidth)
  have hslen : fromBe ((page.bytes.drop 4).take 1) = width - page.shared.length := by
    rw [page.bytes_drop 2]
    exact hbyte _ (by omega)
  have hbody : page.bytes.drop 5 = page.shared ++ ((page.items.map (·.1)).flatten ++
      ((page.items.map (·.2)).flatten ++ page.pad)) := page.bytes_drop 3
  have hkeys : pieces (width - page.shared.length) page.items.length (page.bytes.drop (5 + page.shared.length)) =
      page.items.map (·.1) := by
    have hpieces := pieces_flatten page.keys_length ((page.items.map (·.2)).flatten ++ page.pad)
    rw [List.length_map] at hpieces
    rw [← List.drop_drop, hbody, List.drop_left, hpieces]
  have hvals : pieces 5 page.items.length
      (page.bytes.drop (5 + page.shared.length + page.items.length * (width - page.shared.length))) =
        page.items.map (·.2) := by
    have hpieces := pieces_flatten page.vals_length page.pad
    have hlen := length_flatten_of_forall page.keys_length
    rw [List.length_map] at hpieces hlen
    rw [← List.drop_drop, ← List.drop_drop, hbody, List.drop_left, List.drop_left' hlen, hpieces]
  have hfills := page.fills
  have hlong : ¬ page.bytes.length < 5 + page.shared.length + page.items.length * (width - page.shared.length) +
      page.items.length * 5 := by
    rw [page.bytes_length]
    omega
  simp only [readNode, if_neg (not_le.mpr hblk), hslice, hnum, hlevel, hplen, hslen,
    Nat.add_sub_cancel' hshared, ne_eq, not_true, if_false, if_neg hlong, hkeys, hvals, hbody, List.take_left,
    page.node_eq]
  split <;> rfl

/-- The well-formed block that a block with these fields is. -/
theorem exists_nodePage {width num : Nat} {lv pl sl : UInt8} {head body : Bytes} (hhead : head.length = 2)
    (hnum : fromBe head = num) (hwidth : pl.toNat + sl.toNat = width)
    (hlen : (head ++ lv :: pl :: sl :: body).length = pageSize)
    (hfits : pl.toNat + num * sl.toNat + num * 5 ≤ body.length) :
    ∃ page : NodePage width, page.bytes = head ++ lv :: pl :: sl :: body ∧ page.level = lv ∧
      page.shared = body.take pl.toNat ∧ page.items.map (·.1) = pieces sl.toNat num (body.drop pl.toNat) ∧
      page.items.map (·.2) = pieces 5 num (body.drop (pl.toNat + num * sl.toNat)) := by
  have hkeys := flatten_pieces sl.toNat num (body.drop pl.toNat)
  have hvals := flatten_pieces 5 num (body.drop (pl.toNat + num * sl.toNat))
  have hkeysLength := pieces_length sl.toNat num (body.drop pl.toNat)
  have hvalsLength := pieces_length 5 num (body.drop (pl.toNat + num * sl.toNat))
  have hkey := fun x hx => length_of_mem_pieces (n := sl.toNat) (k := num) (b := body.drop pl.toNat)
    (by rw [List.length_drop]; omega) (x := x) hx
  have hval := fun x hx => length_of_mem_pieces (n := 5) (k := num) (b := body.drop (pl.toNat + num * sl.toNat))
    (by rw [List.length_drop]; omega) (x := x) hx
  generalize pieces sl.toNat num (body.drop pl.toNat) = keys at *
  generalize pieces 5 num (body.drop (pl.toNat + num * sl.toNat)) = vals at *
  have hfst : (List.zip keys vals).map (·.1) = keys := List.map_fst_zip (by omega)
  have hsnd : (List.zip keys vals).map (·.2) = vals := List.map_snd_zip (by omega)
  have hitems : (List.zip keys vals).length = num := by rw [List.length_zip]; omega
  have hshared : (body.take pl.toNat).length = pl.toNat := by rw [List.length_take]; omega
  have hslen : width - pl.toNat = sl.toNat := by omega
  have hsmall : num < 2 ^ 16 := by
    have hlt := fromLe_lt head.reverse
    rw [List.length_reverse, hhead] at hlt
    rw [← hnum, fromBe]
    exact hlt
  have hpad := List.take_append_drop (num * 5) (body.drop (pl.toNat + num * sl.toNat))
  have hrest := List.take_append_drop (num * sl.toNat) (body.drop pl.toNat)
  rw [List.drop_drop] at hpad hrest
  simp only [List.length_append, List.length_cons, hhead] at hlen
  refine ⟨⟨lv, body.take pl.toNat, List.zip keys vals, body.drop (pl.toNat + num * sl.toNat + num * 5), by omega, ?_,
    ?_, by omega, ?_⟩, ?_, rfl, rfl, hfst, hsnd⟩
  · rw [hshared, hslen]
    exact fun p hp => hkey _ (List.of_mem_zip hp).1
  · exact fun p hp => hval _ (List.of_mem_zip hp).2
  · rw [hshared, hslen, hitems, List.length_drop]
    omega
  · rw [NodePage.bytes]
    dsimp only
    rw [hitems, hfst, hsnd, hkeys, hvals, hpad, hrest, List.take_append_drop, hshared, hslen, UInt8.ofNat_toNat,
      UInt8.ofNat_toNat, ← hnum, ← hhead, toBe_fromBe]

theorem readNode_ok {file : Bytes} {width start nodeBlk : Nat} {node : PointerTree.Node (Bytes × Nat)}
    (h : readNode file width start nodeBlk = .ok node) :
    ∃ page : NodePage width, PageAt file (start + nodeBlk) page ∧ node = page.node := by
  rw [readNode] at h
  split at h
  · cases h
  rename_i hblk
  cases hslice : slice file ((start + nodeBlk) * pageSize) pageSize with
  | none =>
    rw [hslice] at h
    cases h
  | some b =>
    have hlen := slice_length hslice
    simp only [hslice] at h
    rcases b with _ | ⟨b₀, _ | ⟨b₁, _ | ⟨lv, _ | ⟨pl, _ | ⟨sl, body⟩⟩⟩⟩⟩ <;> try cases hlen
    have hdrop : ∀ k, (b₀ :: b₁ :: lv :: pl :: sl :: body).drop (5 + k) = body.drop k := by
      intro k
      rw [← List.drop_drop]
      rfl
    simp only [Nat.add_assoc 5, hdrop, List.drop_succ_cons, List.drop_zero, List.take_succ_cons, List.take_zero,
      fromBe_singleton, List.length_cons] at h
    split at h
    · cases h
    rename_i hwidth
    split at h
    · cases h
    rename_i hfits
    have hbytes : (([b₀, b₁] : Bytes) ++ lv :: pl :: sl :: body).length = pageSize := hlen
    obtain ⟨page, hbytes, hlevel, hshared, hkeys, hvals⟩ :=
      exists_nodePage rfl rfl (not_not.mp hwidth) hbytes (by omega)
    refine ⟨page, ⟨not_le.mp hblk, by rw [hslice, hbytes]; rfl⟩, ?_⟩
    rw [page.node_eq, hkeys, hvals, hlevel, hshared]
    split at h
    · rename_i hinner
      rw [if_pos hinner]
      exact (Except.ok.inj h).symm
    · rename_i hleaf
      rw [if_neg hleaf]
      exact (Except.ok.inj h).symm

/-! ## Well-formed trees -/

section Tree

variable {file : Bytes} {width start : Nat}

/-- Some blocks are the roots of finite trees of well-formed blocks, with these keys and values in order. -/
inductive IndexAt (file : Bytes) (width start : Nat) : List Nat → List (Bytes × Nat) → Prop
  | nil : IndexAt file width start [] []
  | leaf {b : Nat} {bs : List Nat} {rest : List (Bytes × Nat)} (page : NodePage width) :
      PageAt file (start + b) page → page.level.toNat = 0 → IndexAt file width start bs rest →
      IndexAt file width start (b :: bs) (page.entries ++ rest)
  | inner {b : Nat} {bs : List Nat} {entries rest : List (Bytes × Nat)} (page : NodePage width) :
      PageAt file (start + b) page → 0 < page.level.toNat → IndexAt file width start page.children entries →
      IndexAt file width start bs rest → IndexAt file width start (b :: bs) (entries ++ rest)

theorem indexAt_of_below {bs : List Nat} {entries : List (Bytes × Nat)}
    (h : PointerTree.Below (readNode file width start) bs entries) : IndexAt file width start bs entries := by
  induction h with
  | nil => exact .nil
  | leaf hread hrest ih =>
    obtain ⟨page, hpage, hnode⟩ := readNode_ok hread
    unfold NodePage.node at hnode
    split at hnode
    · cases hnode
    · rename_i hlevel
      cases hnode
      exact .leaf page hpage (Nat.eq_zero_of_not_pos hlevel) ih
  | inner hread hchildren hrest ihc ih =>
    obtain ⟨page, hpage, hnode⟩ := readNode_ok hread
    unfold NodePage.node at hnode
    split at hnode
    · rename_i hlevel
      cases hnode
      exact .inner page hpage hlevel ihc ih
    · cases hnode

theorem below_of_indexAt (hwidth : width < 256) {bs : List Nat} {entries : List (Bytes × Nat)}
    (h : IndexAt file width start bs entries) : PointerTree.Below (readNode file width start) bs entries := by
  induction h with
  | nil => exact .nil
  | leaf page hpage hlevel hrest ih =>
    have hread := readNode_pageAt hwidth hpage
    rw [NodePage.node, if_neg (by omega)] at hread
    exact .leaf hread ih
  | inner page hpage hlevel hchildren hrest ihc ih =>
    have hread := readNode_pageAt hwidth hpage
    rw [NodePage.node, if_pos hlevel] at hread
    exact .inner hread ihc ih

/-- A walk ends exactly on a finite tree of well-formed blocks, with its keys in order. -/
theorem walkBtree_ok_iff (hwidth : width < 256) {root : Nat} {entries : List (Bytes × Nat)} :
    (∃ fuel, walkBtree file width start fuel root = some (.ok entries)) ↔ IndexAt file width start [root] entries :=
  PointerTree.walk_ok_iff.trans ⟨indexAt_of_below, below_of_indexAt hwidth⟩

end Tree

/-- A leaf of one key. -/
def Sample.leaf : NodePage keySize where
  level := 0
  shared := [0]
  items := [(List.replicate 17 7, [0, 0, 0, 32, 1])]
  pad := List.replicate 8164 0
  shared_le := by decide
  suffixes := by decide
  values := by decide
  few := by decide
  fills := by rw [List.length_replicate]; decide

/-- An inner block over the blocks 1 and 2. -/
def Sample.root : NodePage keySize where
  level := 1
  shared := []
  items := [(List.replicate 18 0, [0, 0, 0, 0, 1]), (List.replicate 18 8, [0, 0, 0, 0, 2])]
  pad := List.replicate 8141 0
  shared_le := by decide
  suffixes := by decide
  values := by decide
  few := by decide
  fills := by rw [List.length_replicate]; decide

def Sample.tree : Bytes := [] ++ (root.bytes ++ (leaf.bytes ++ (leaf.bytes ++ [])))

theorem walkBtree_ok_iff_leaf :
    ∃ fuel, walkBtree Sample.tree keySize 0 fuel 0 =
      some (.ok [(0 :: List.replicate 17 7, 8193), (0 :: List.replicate 17 7, 8193)]) := by
  have hroot := Sample.root.bytes_length
  have hleaf := Sample.leaf.bytes_length
  have hfirst : slice Sample.tree 0 pageSize = some Sample.root.bytes := slice_append List.length_nil hroot
  have hsecond : slice Sample.tree (1 * pageSize) pageSize = some Sample.leaf.bytes := by
    rw [Sample.tree, List.nil_append]
    exact slice_append (by rw [hroot, Nat.one_mul]) hleaf
  have hthird : slice Sample.tree (2 * pageSize) pageSize = some Sample.leaf.bytes := by
    rw [Sample.tree, List.nil_append, ← List.append_assoc]
    exact slice_append (by rw [List.length_append, hroot, hleaf, Nat.two_mul]) hleaf
  have hleaves : IndexAt Sample.tree keySize 0 [1, 2] (Sample.leaf.entries ++ (Sample.leaf.entries ++ [])) :=
    .leaf Sample.leaf ⟨by decide, hsecond⟩ rfl (.leaf Sample.leaf ⟨by decide, hthird⟩ rfl .nil)
  have htree : IndexAt Sample.tree keySize 0 [0] (Sample.leaf.entries ++ (Sample.leaf.entries ++ []) ++ []) :=
    .inner Sample.root ⟨by decide, hfirst⟩ (by decide) hleaves .nil
  exact (walkBtree_ok_iff (by decide)).mpr htree

end Ltap
