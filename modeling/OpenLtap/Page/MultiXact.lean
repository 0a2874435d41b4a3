-- SUMMARY: The updater of a multixact, read from the offsets and the members (`multixact.rs`).
import OpenLtap.Base.Splice
import OpenLtap.Page.Clog

/-!
# Multixacts

A multixact is a numbered list of transactions, each a locker or an updater. One table says
where the members of each number start, the other holds the members. How many there are is
told by where the next one starts.
-/

namespace Ltap

/-! ## Reading the two tables -/

def pageSz : Nat := 8192
def offsetSz : Nat := 4
def offsetsPerPage : Nat := pageSz / offsetSz
def flagbytesPerGroup : Nat := 4
def membersPerMembergroup : Nat := flagbytesPerGroup
def membergroupSize : Nat := flagbytesPerGroup + membersPerMembergroup * 4
def membergroupsPerPage : Nat := pageSz / membergroupSize
def membersPerPage : Nat := membergroupsPerPage * membersPerMembergroup

/-- Members of a status above this one update or delete, the others lock. -/
def statusForUpdate : Nat := 0x03

/-- Where pages of offsets and of members come from, by page number. -/
structure MultiXactSource where
  offsetsPage : Nat → Except Fault Bytes
  membersPage : Nat → Except Fault Bytes

def offsetPageEntry (multi : Nat) : Nat × Nat := (multi / offsetsPerPage, multi % offsetsPerPage * offsetSz)

/-- The page of a member, the position of its group there, and its place in the group. -/
def memberLocation (offset : Nat) : Nat × Nat × Nat :=
  let page := offset / membersPerPage
  let memberInPage := offset % membersPerPage
  let groupOnPage := memberInPage / membersPerMembergroup % membergroupsPerPage
  let memberInGroup := memberInPage % membersPerMembergroup
  (page, groupOnPage * membergroupSize, memberInGroup)

namespace MultiXactSource

variable (src : MultiXactSource)

def readOffset (multi : Nat) : Except Fault Nat := do
  let (pageno, byteoff) := offsetPageEntry multi
  let page ← src.offsetsPage pageno
  match slice page byteoff offsetSz with
  | none => bail "multixact offsets page too short"
  | some b => return fromLe b

def readMember (offset : Nat) : Except Fault (Xid × Nat) := do
  let (pageno, groupOff, memberInGroup) := memberLocation offset
  let page ← src.membersPage pageno
  match page[groupOff + memberInGroup]? with
  | none => bail "multixact members page too short (flags)"
  | some status =>
    match slice page (groupOff + flagbytesPerGroup + memberInGroup * 4) 4 with
    | none => bail "multixact members page too short (xid)"
    | some xid => return (fromLe xid, status.toNat)

/-- The first updater among so many members from an offset on. -/
def updaterAmong : Nat → Nat → Except Fault (Option Xid)
  | 0, _ => .ok none
  | n + 1, off => do
    let (xid, status) ← src.readMember off
    if status > statusForUpdate then return some xid else updaterAmong n (off + 1)

def resolveUpdater (multi : Nat) : Except Fault (Option Xid) := do
  let start ← src.readOffset multi
  let end_ ← src.readOffset ((multi + 1) % 2 ^ 32)
  if end_ ≤ start then
    bail s!"multixact {multi}'s member count can't be determined from disk alone — it looks like the most recently created multixact cluster-wide, so no newer offsets entry exists yet to bound its member list (would need live nextMXact/nextOffset state)"
  else src.updaterAmong (end_ - start) start

end MultiXactSource

/-! ## What Postgres writes

Numbers of multixacts and of members count modulo `2 ^ 32`, and neither uses zero. -/

/-- The number that comes `k` later, zero left out. -/
def countOn (n k : Nat) : Nat := (n - 1 + k) % (2 ^ 32 - 1) + 1

structure Member where
  xid : Xid
  status : Nat
  xid_lt : xid < 2 ^ 32
  status_lt : status < 2 ^ 8
  deriving DecidableEq, Repr

structure MultiXact where
  id : Nat
  offset : Nat
  members : List Member
  id_pos : 0 < id
  id_lt : id < 2 ^ 32
  offset_pos : 0 < offset
  offset_lt : offset < 2 ^ 32
  members_pos : 0 < members.length
  members_lt : members.length < 2 ^ 32
  deriving DecidableEq, Repr

/-- The transaction that updated or deleted the row. -/
def MultiXact.updater (m : MultiXact) : Option Xid := (m.members.find? (·.status > statusForUpdate)).map (·.xid)

namespace MultiXactSource

variable (src : MultiXactSource)

/-- The entry of a multixact, one of 2048 of a page. -/
def OffsetAt (multi offset : Nat) : Prop :=
  ∃ page, src.offsetsPage (multi / 2048) = .ok page ∧ slice page (multi % 2048 * 4) 4 = some (toLe 4 offset)

/-- A member, one of 1636 of a page: a flag byte at the head of its group of four, and its
transaction behind the flag bytes. The group is one of 409 of the page. -/
def MemberAt (offset : Nat) (member : Member) : Prop :=
  ∃ page, src.membersPage (offset / 1636) = .ok page ∧
    (page[offset / 4 % 409 * 20 + offset % 4]?).map UInt8.toNat = some member.status ∧
    slice page (offset / 4 % 409 * 20 + 4 + offset % 4 * 4) 4 = some (toLe 4 member.xid)

/-- The two tables hold these multixacts, one after the other. -/
structure Stores (multis : List MultiXact) : Prop where
  chained : multis.IsChain fun m m' => m'.id = countOn m.id 1 ∧ m'.offset = countOn m.offset m.members.length
  offsets : ∀ m ∈ multis, src.OffsetAt m.id m.offset
  /-- Nothing is written for zero, and pages start out as zeros. -/
  unused : src.OffsetAt 0 0
  members : ∀ m ∈ multis, ∀ (k : Nat) (member : Member), m.members[k]? = some member →
    src.MemberAt (countOn m.offset k) member

/-! ## Reading what is written -/

variable {src}

theorem OffsetAt.readOffset {multi offset : Nat} (hlt : offset < 2 ^ 32) (h : src.OffsetAt multi offset) :
    src.readOffset multi = .ok offset := by
  obtain ⟨page, hpage, hentry⟩ := h
  have hpage' : src.offsetsPage (multi / offsetsPerPage) = .ok page := hpage
  have hentry' : slice page (multi % offsetsPerPage * offsetSz) offsetSz = some (toLe 4 offset) := hentry
  have hvalue : fromLe (toLe 4 offset) = offset := fromLe_toLe hlt
  simp only [MultiXactSource.readOffset, offsetPageEntry, hpage', bind, Except.bind, hentry', hvalue]
  rfl

/-- A group lies on one page, so its place can be counted there or from the first page on. -/
theorem memberLocation_eq (offset : Nat) :
    memberLocation offset = (offset / 1636, offset / 4 % 409 * 20, offset % 4) := by
  have hgroup : offset % 1636 / 4 % 409 = offset / 4 % 409 := by
    rw [show (1636 : Nat) = 4 * 409 by rfl, Nat.mod_mul_right_div_self, Nat.mod_mod]
  have hplace : offset % 1636 % 4 = offset % 4 := Nat.mod_mod_of_dvd offset (by decide)
  have hdef : memberLocation offset = (offset / 1636, offset % 1636 / 4 % 409 * 20, offset % 1636 % 4) := rfl
  rw [hdef, hgroup, hplace]

theorem MemberAt.readMember {offset : Nat} {member : Member} (h : src.MemberAt offset member) :
    src.readMember offset = .ok (member.xid, member.status) := by
  obtain ⟨page, hpage, hflag, hxid⟩ := h
  obtain ⟨status, hstatus, hto⟩ := Option.map_eq_some_iff.mp hflag
  have hfour : flagbytesPerGroup = 4 := rfl
  have hvalue : fromLe (toLe 4 member.xid) = member.xid := fromLe_toLe member.xid_lt
  simp only [MultiXactSource.readMember, memberLocation_eq, hpage, bind, Except.bind, hstatus, hfour, hxid, hto, hvalue]
  rfl

/-- The members from an offset on are tried in order. -/
theorem updaterAmong_members {members : List Member} {off : Nat}
    (h : ∀ (k : Nat) (member : Member), members[k]? = some member → src.MemberAt (off + k) member) :
    src.updaterAmong members.length off = .ok ((members.find? (·.status > statusForUpdate)).map (·.xid)) := by
  induction members generalizing off with
  | nil => rfl
  | cons member members ih =>
    have hfirst := (h 0 member rfl).readMember
    have hrest : src.updaterAmong members.length (off + 1) =
        .ok ((members.find? (·.status > statusForUpdate)).map (·.xid)) := by
      apply ih
      intro k m hm
      have hat := h (k + 1) m hm
      rwa [show off + (k + 1) = off + 1 + k by omega] at hat
    rw [Nat.add_zero] at hfirst
    rw [List.length_cons, updaterAmong, hfirst]
    simp only [bind, Except.bind]
    by_cases hup : member.status > statusForUpdate
    · rw [if_pos hup, List.find?_cons_of_pos (by simpa using hup)]
      rfl
    · rw [if_neg hup, hrest, List.find?_cons_of_neg (by simpa using hup)]

end MultiXactSource

theorem countOn_of_lt {n k : Nat} (hpos : 0 < n) (h : n + k < 2 ^ 32) : countOn n k = n + k := by
  rw [countOn, Nat.mod_eq_of_lt (by omega)]
  omega

/-- Behind the last number the count starts over at one. -/
theorem countOn_of_ge {n k : Nat} (hlt : n < 2 ^ 32) (hk : k < 2 ^ 32) (h : 2 ^ 32 ≤ n + k) :
    countOn n k = n + k - (2 ^ 32 - 1) := by
  have hmod : (n - 1 + k) % (2 ^ 32 - 1) = n - 1 + k - (2 ^ 32 - 1) := by
    rw [Nat.mod_eq_sub_mod (by omega), Nat.mod_eq_of_lt (by omega)]
  rw [countOn, hmod]
  omega

namespace MultiXactSource

variable {src : MultiXactSource}

/-- A bound that is not above the start is refused. -/
theorem resolveUpdater_bails {multi start end_ : Nat} (hstart : src.readOffset multi = .ok start)
    (hend : src.readOffset ((multi + 1) % 2 ^ 32) = .ok end_) (hle : end_ ≤ start) (found : Option Xid) :
    src.resolveUpdater multi ≠ .ok found := by
  simp only [resolveUpdater, hstart, hend, bind, Except.bind, if_pos hle]
  intro h
  cases h

theorem Stores.successor {multis before rest : List MultiXact} {m next : MultiXact} (h : src.Stores multis)
    (hm : multis = before ++ m :: next :: rest) :
    next.id = countOn m.id 1 ∧ next.offset = countOn m.offset m.members.length := by
  have hchained := h.chained
  rw [hm] at hchained
  exact (List.isChain_cons_cons.mp (List.isChain_append.mp hchained).2.1).1

/-! ## The end of the count -/

/-- A page of zeros with bytes written over it. -/
def zerosWith (off : Nat) (bytes : Bytes) : Bytes := Splice.splice (List.replicate pageSz 0) off bytes

theorem slice_zerosWith (off k n : Nat) (bytes : Bytes) (hfits : off + bytes.length ≤ pageSz)
    (hin : k + n ≤ bytes.length) : slice (zerosWith off bytes) (off + k) n = some ((bytes.drop k).take n) := by
  have hlen : (List.replicate pageSz (0 : UInt8)).length = pageSz := List.length_replicate
  rw [slice, zerosWith, Splice.splice_length (by omega), if_pos (by omega), Splice.window_within (by omega) hin]

theorem zerosWith_getElem? (off k : Nat) (bytes : Bytes) (hfits : off + bytes.length ≤ pageSz) (hin : k < bytes.length) :
    (zerosWith off bytes)[off + k]? = bytes[k]? := by
  have hlen : (List.replicate pageSz (0 : UInt8)).length = pageSz := List.length_replicate
  have hwindow := @Splice.window_within _ (List.replicate pageSz (0 : UInt8)) bytes off k 1 (by omega) hin
  have hhead := congrArg (·[0]?) hwindow
  simpa [List.getElem?_take, zerosWith] using hhead

/-- The last number there is, and the first two after it. -/
def last : MultiXact where
  id := 4294967295
  offset := 1
  members := [⟨768, 0, by decide, by decide⟩, ⟨769, 4, by decide, by decide⟩]
  id_pos := by decide
  id_lt := by decide
  offset_pos := by decide
  offset_lt := by decide
  members_pos := by decide
  members_lt := by decide

def first : MultiXact where
  id := 1
  offset := 3
  members := [⟨770, 0, by decide, by decide⟩, ⟨771, 5, by decide, by decide⟩]
  id_pos := by decide
  id_lt := by decide
  offset_pos := by decide
  offset_lt := by decide
  members_pos := by decide
  members_lt := by decide

def second : MultiXact where
  id := 2
  offset := 5
  members := [⟨772, 1, by decide, by decide⟩]
  id_pos := by decide
  id_lt := by decide
  offset_pos := by decide
  offset_lt := by decide
  members_pos := by decide
  members_lt := by decide

def wrapped : MultiXactSource where
  offsetsPage pageno :=
    .ok (if pageno = 0 then zerosWith 4 (toLe 4 3 ++ toLe 4 5) else zerosWith 8188 (toLe 4 1))
  membersPage _ :=
    .ok (zerosWith 0 ([0, 0, 4, 0] ++ [0, 768, 769, 770].flatMap (toLe 4) ++ [5, 1, 0, 0] ++ [771, 772].flatMap (toLe 4)))

theorem wrapped_stores : wrapped.Stores [last, first, second] where
  chained := by
    simp only [List.isChain_cons_cons, List.isChain_singleton]
    decide
  offsets := by
    intro m hm
    simp only [List.mem_cons, List.not_mem_nil, or_false] at hm
    rcases hm with rfl | rfl | rfl
    · exact ⟨_, rfl, slice_zerosWith 8188 0 4 (toLe 4 1) (by decide) (by decide)⟩
    · exact ⟨_, rfl, slice_zerosWith 4 0 4 (toLe 4 3 ++ toLe 4 5) (by decide) (by decide)⟩
    · exact ⟨_, rfl, slice_zerosWith 4 4 4 (toLe 4 3 ++ toLe 4 5) (by decide) (by decide)⟩
  unused := ⟨zerosWith 4 (toLe 4 3 ++ toLe 4 5), rfl, by decide +kernel⟩
  members := by
    intro m hm k member hk
    simp only [List.mem_cons, List.not_mem_nil, or_false] at hm
    rcases hm with rfl | rfl | rfl
    · rcases k with _ | _ | k
      · obtain rfl := Option.some.inj hk
        exact ⟨_, rfl, congrArg (Option.map UInt8.toNat) (zerosWith_getElem? 0 1 _ (by decide) (by decide)),
          slice_zerosWith 0 8 4 _ (by decide) (by decide)⟩
      · obtain rfl := Option.some.inj hk
        exact ⟨_, rfl, congrArg (Option.map UInt8.toNat) (zerosWith_getElem? 0 2 _ (by decide) (by decide)),
          slice_zerosWith 0 12 4 _ (by decide) (by decide)⟩
      · cases hk
    · rcases k with _ | _ | k
      · obtain rfl := Option.some.inj hk
        exact ⟨_, rfl, congrArg (Option.map UInt8.toNat) (zerosWith_getElem? 0 3 _ (by decide) (by decide)),
          slice_zerosWith 0 16 4 _ (by decide) (by decide)⟩
      · obtain rfl := Option.some.inj hk
        exact ⟨_, rfl, congrArg (Option.map UInt8.toNat) (zerosWith_getElem? 0 20 _ (by decide) (by decide)),
          slice_zerosWith 0 24 4 _ (by decide) (by decide)⟩
      · cases hk
    · rcases k with _ | k
      · obtain rfl := Option.some.inj hk
        exact ⟨_, rfl, congrArg (Option.map UInt8.toNat) (zerosWith_getElem? 0 21 _ (by decide) (by decide)),
          slice_zerosWith 0 28 4 _ (by decide) (by decide)⟩
      · cases hk

theorem wrapped_not_found :
    wrapped.Stores [last, first, second] ∧ last.updater = some 769 ∧
      ¬ wrapped.resolveUpdater last.id = .ok last.updater :=
  ⟨wrapped_stores, by decide, by decide +kernel⟩

/-- A multixact that is not the newest is found unless its successor's number or its members pass the end
of the count. -/
theorem resolveUpdater_iff (src : MultiXactSource) (multis before rest : List MultiXact) (m next : MultiXact)
    (h : src.Stores multis) (hm : multis = before ++ m :: next :: rest) :
    src.resolveUpdater m.id = .ok m.updater ↔ m.id ≠ 2 ^ 32 - 1 ∧ m.offset + m.members.length < 2 ^ 32 := by
  have hmem : m ∈ multis := by simp [hm]
  have hmem' : next ∈ multis := by simp [hm]
  obtain ⟨hid, hoffset⟩ := h.successor hm
  have hpos := m.id_pos
  have hlt := m.id_lt
  have hstart := (h.offsets m hmem).readOffset m.offset_lt
  have hend := (h.offsets next hmem').readOffset next.offset_lt
  by_cases hlast : m.id = 2 ^ 32 - 1
  · have hzero := h.unused.readOffset (by decide)
    rw [show 0 = (m.id + 1) % 2 ^ 32 by omega] at hzero
    refine iff_of_false (resolveUpdater_bails hstart hzero ?_ _) fun hwraps => hwraps.1 hlast
    omega
  have hsucc : (m.id + 1) % 2 ^ 32 = next.id := by
    rw [hid, countOn_of_lt hpos (by omega)]
    omega
  rw [← hsucc] at hend
  by_cases hfits : m.offset + m.members.length < 2 ^ 32
  · rw [countOn_of_lt m.offset_pos hfits] at hoffset
    have hnot : ¬ next.offset ≤ m.offset := by
      have := m.members_pos
      omega
    have hall : src.updaterAmong m.members.length m.offset =
        .ok ((m.members.find? (·.status > statusForUpdate)).map (·.xid)) := by
      apply updaterAmong_members
      intro k member hk
      have hat := h.members m hmem k member hk
      have hbound := (List.getElem?_eq_some_iff.mp hk).1
      rwa [countOn_of_lt m.offset_pos (by omega)] at hat
    refine iff_of_true ?_ ⟨hlast, hfits⟩
    simp only [resolveUpdater, hstart, hend, bind, Except.bind, if_neg hnot]
    rw [hoffset, Nat.add_sub_cancel_left]
    exact hall
  · have hwrap := countOn_of_ge m.offset_lt m.members_lt (by omega)
    refine iff_of_false (resolveUpdater_bails hstart hend ?_ _) fun hfit => hfits hfit.2
    have := m.members_lt
    omega

theorem resolveUpdater_iff_first : wrapped.resolveUpdater 1 = .ok (some 771) :=
  (resolveUpdater_iff wrapped [last, first, second] [last] [] first second wrapped_stores rfl).mpr (by decide)

end MultiXactSource

end Ltap
