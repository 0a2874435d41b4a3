-- SUMMARY: How records are laid into WAL pages, with page headers, padding, and zero-filled gaps.
import OpenLtap.Wal.Reader

/-!
# Framing

A WAL stream is its content, byte by byte, with a page header in front of every byte
that falls on a page boundary. The content of a record is its bytes and padding up to
the next multiple of eight. A segment switch leaves a gap: the rest of the page is
zero-filled, and so are any number of further pages, and the next record starts on a
page of its own.
-/

namespace Ltap

/-- Length of the page header at a page boundary. -/
def hdrLen (pos : Lsn) : Nat := if pos % walSegSize = 0 then longPageHdr else shortPageHdr

/-- Page headers by position and `xlp_rem_len`. Their other fields are free. -/
structure PageHeaders where
  bytes : Lsn → Nat → Bytes
  length : ∀ pos rem, (bytes pos rem).length = hdrLen pos
  magic : ∀ pos rem, fromLe ((bytes pos rem).take 2) ∈ xlogPageMagics
  remLen : ∀ pos rem, rem < 2 ^ 32 → fromLe (((bytes pos rem).drop 16).take 4) = rem

/-- A record to be framed, with the gap in front of it. -/
structure WalFrame where
  /-- With `some n` the rest of the page and `n` further pages are zero-filled. -/
  gap : Option Nat
  bytes : Bytes
  hdr_le : recHdrLen ≤ bytes.length
  totLen : fromLe (bytes.take 4) = bytes.length

/-! ## Content -/

/-- A byte of content, and what `xlp_rem_len` is if a page begins with it. -/
structure Cell where
  byte : UInt8
  rem : Nat

/-- Bytes of a record that was begun before. -/
def bodyCells : Bytes → List Cell
  | [] => []
  | b :: bs => ⟨b, bs.length + 1⟩ :: bodyCells bs

def zeroCells (n : Nat) : List Cell := List.replicate n ⟨0, 0⟩

/-- The bytes of a record, without its padding. -/
def startCells : Bytes → List Cell
  | [] => []
  | b :: bs => ⟨b, 0⟩ :: bodyCells bs

def padLen (n : Nat) : Nat := maxalign n - n

/-- Where the content byte at a position goes: after the header on a page boundary. -/
def contentPos (pos : Lsn) : Lsn := if pos % xlogPageSize = 0 then pos + hdrLen pos else pos

/-- The position after `n` content bytes. -/
def after : Nat → Lsn → Lsn
  | 0, pos => pos
  | n + 1, pos => after n (contentPos pos + 1)

/-- The stream from a position on. -/
def PageHeaders.lay (hdr : PageHeaders) : Lsn → List Cell → Bytes
  | _, [] => []
  | pos, c :: cs =>
    (if pos % xlogPageSize = 0 then hdr.bytes pos c.rem else []) ++
      c.byte :: hdr.lay (contentPos pos + 1) cs

/-! ## Gaps -/

/-- What is left of the page. -/
def fillLen (pos : Lsn) : Nat :=
  if pos % xlogPageSize = 0 then 0 else xlogPageSize - pos % xlogPageSize

def zeroPages : Nat → Lsn → List Cell
  | 0, _ => []
  | n + 1, pos => zeroCells (xlogPageSize - hdrLen pos) ++ zeroPages n (pos + xlogPageSize)

def gapCells (pos : Lsn) : Option Nat → List Cell
  | none => []
  | some n => zeroCells (fillLen pos) ++ zeroPages n (pos + fillLen pos)

def gapEnd (pos : Lsn) : Option Nat → Lsn
  | none => pos
  | some n => pos + fillLen pos + n * xlogPageSize

/-- The zero-filled parts of pages, each from its first zero to the end of its page. -/
def pageTails : Nat → Lsn → List (Lsn × Lsn)
  | 0, _ => []
  | n + 1, pos => (pos + hdrLen pos, pos + xlogPageSize) :: pageTails n (pos + xlogPageSize)

def gapTails (pos : Lsn) : Option Nat → List (Lsn × Lsn)
  | none => []
  | some n =>
    (if fillLen pos = 0 then [] else [(pos, pos + fillLen pos)]) ++ pageTails n (pos + fillLen pos)

/-! ## Streams -/

/-- Where the frame after this one begins. -/
def WalFrame.next (f : WalFrame) (pos : Lsn) : Lsn :=
  after (maxalign f.bytes.length) (gapEnd pos f.gap)

def frameCells : Lsn → List WalFrame → List Cell
  | _, [] => []
  | pos, f :: fs =>
    gapCells pos f.gap ++ (startCells f.bytes ++ zeroCells (padLen f.bytes.length) ++
      frameCells (f.next pos) fs)

/-- The records of a stream with their start LSNs. -/
def framedRecords : Lsn → List WalFrame → List (Lsn × Bytes)
  | _, [] => []
  | pos, f :: fs => (contentPos (gapEnd pos f.gap), f.bytes) :: framedRecords (f.next pos) fs

/-- Where the bytes of a record end, without its padding. -/
def recordEnd (e : Lsn × Bytes) : Lsn := after e.2.length e.1

def zeroTails : Lsn → List WalFrame → List (Lsn × Lsn)
  | _, [] => []
  | pos, f :: fs => gapTails pos f.gap ++ zeroTails (f.next pos) fs

/-- The WAL from `pos` on. -/
def PageHeaders.stream (hdr : PageHeaders) (pos : Lsn) (fs : List WalFrame) : Bytes :=
  hdr.lay pos (frameCells pos fs)

/-! ## Positions -/

theorem hdrLen_mod (pos : Lsn) : hdrLen pos % 8 = 0 := by
  unfold hdrLen
  split <;> rfl

theorem hdrLen_pos (pos : Lsn) : 0 < hdrLen pos := by
  unfold hdrLen
  split <;> decide

theorem hdrLen_le (pos : Lsn) : hdrLen pos ≤ 40 := by
  unfold hdrLen
  split <;> decide

theorem mod_eight_of_boundary {pos : Lsn} (h : pos % xlogPageSize = 0) : pos % 8 = 0 := by
  unfold xlogPageSize at h
  lia

theorem contentPos_boundary {pos : Lsn} (h : pos % xlogPageSize = 0) :
    contentPos pos = pos + hdrLen pos := if_pos h

theorem contentPos_inside {pos : Lsn} (h : pos % xlogPageSize ≠ 0) : contentPos pos = pos := if_neg h

theorem le_contentPos (pos : Lsn) : pos ≤ contentPos pos := by
  unfold contentPos
  split
  · exact Nat.le_add_right _ _
  · exact le_rfl

/-- A header leaves room on its page. -/
theorem boundary_add_hdrLen {pos : Lsn} (h : pos % xlogPageSize = 0) :
    (pos + hdrLen pos) % xlogPageSize = hdrLen pos := by
  have hle := hdrLen_le pos
  unfold xlogPageSize at h ⊢
  lia

theorem contentPos_mod (pos : Lsn) : contentPos pos % xlogPageSize ≠ 0 := by
  unfold contentPos
  split
  · rw [boundary_add_hdrLen ‹_›]
    exact (hdrLen_pos pos).ne'
  · assumption

theorem contentPos_mod_eight (pos : Lsn) : contentPos pos % 8 = pos % 8 := by
  have hlen := hdrLen_mod pos
  unfold contentPos
  split
  · lia
  · rfl

theorem after_add (n m : Nat) (pos : Lsn) : after (n + m) pos = after m (after n pos) := by
  induction n generalizing pos with
  | zero => simp [after]
  | succ n ih => rw [Nat.add_right_comm, after, ih, after]

theorem after_mod_eight (n : Nat) (pos : Lsn) : after n pos % 8 = (pos + n) % 8 := by
  induction n generalizing pos with
  | zero => rfl
  | succ n ih =>
    have hmod := contentPos_mod_eight pos
    rw [after, ih]
    lia

/-- Within a page, positions count bytes. -/
theorem after_inside {n : Nat} {pos : Lsn} (h : pos % xlogPageSize ≠ 0)
    (hn : n ≤ xlogPageSize - pos % xlogPageSize) : after n pos = pos + n := by
  induction n generalizing pos with
  | zero => rfl
  | succ n ih =>
    rw [after, contentPos_inside h]
    cases n with
    | zero => rfl
    | succ n =>
      have hne : (pos + 1) % xlogPageSize ≠ 0 := by
        unfold xlogPageSize at h hn ⊢
        lia
      rw [ih hne (by unfold xlogPageSize at h hn ⊢; lia)]
      lia

theorem contentPos_header {pos : Lsn} (h : pos % xlogPageSize = 0) :
    contentPos (pos + hdrLen pos) = contentPos pos := by
  rw [contentPos_boundary h, ← contentPos_boundary h, contentPos_inside (contentPos_mod pos)]

/-- Content goes on from where its next byte goes. -/
theorem after_congr {n : Nat} {pos pos' : Lsn} (hn : 0 < n) (h : contentPos pos = contentPos pos') :
    after n pos = after n pos' := by
  obtain ⟨m, rfl⟩ := Nat.exists_eq_succ_of_ne_zero hn.ne'
  rw [after, after, h]

/-- The header of the page counts with the first content byte on it. -/
theorem after_header {n : Nat} {pos : Lsn} (h : pos % xlogPageSize = 0) (hn : 0 < n) :
    after n (pos + hdrLen pos) = after n pos := after_congr hn (contentPos_header h)

theorem contentPos_lt_after {n : Nat} (hn : 0 < n) (pos : Lsn) : contentPos pos < after n pos := by
  induction n generalizing pos with
  | zero => exact absurd hn (lt_irrefl 0)
  | succ n ih =>
    rw [after]
    cases n with
    | zero => exact Nat.lt_succ_self _
    | succ n =>
      have hlt := ih (Nat.succ_pos n) (contentPos pos + 1)
      have hle := le_contentPos (contentPos pos + 1)
      exact lt_trans (lt_of_lt_of_le (Nat.lt_succ_self _) hle) hlt

theorem le_after (n : Nat) (pos : Lsn) : pos ≤ after n pos := by
  cases n with
  | zero => exact le_rfl
  | succ n =>
    exact le_trans (le_contentPos pos) (le_of_lt (contentPos_lt_after (Nat.succ_pos n) pos))

theorem add_le_after (n : Nat) (pos : Lsn) : pos + n ≤ after n pos := by
  induction n generalizing pos with
  | zero => exact le_rfl
  | succ n ih =>
    have hle := le_contentPos pos
    have hrest := ih (contentPos pos + 1)
    rw [after]
    lia

theorem contentPos_le_after (n : Nat) (pos : Lsn) : contentPos pos ≤ contentPos (after n pos) := by
  rcases Nat.eq_zero_or_pos n with rfl | hn
  · exact le_rfl
  · exact le_trans (le_of_lt (contentPos_lt_after hn pos)) (le_contentPos _)

/-- The content of a whole page. -/
theorem after_page {pos : Lsn} (h : pos % xlogPageSize = 0) :
    after (xlogPageSize - hdrLen pos) pos = pos + xlogPageSize := by
  have hle := hdrLen_le pos
  have hlt := hdrLen_pos pos
  have hmod := boundary_add_hdrLen h
  rw [← after_header h (by unfold xlogPageSize; lia), after_inside (by lia) (by lia)]
  unfold xlogPageSize
  lia

/-- A stream passes through every page boundary. -/
theorem exists_after_eq {n : Nat} {pos p : Lsn} (hp : p % xlogPageSize = 0) (hle : pos ≤ p)
    (hlt : p < after n pos) : ∃ k < n, after k pos = p := by
  induction n generalizing pos with
  | zero => exact absurd hle (not_le.mpr hlt)
  | succ n ih =>
    rcases eq_or_lt_of_le hle with rfl | hpos
    · exact ⟨0, Nat.succ_pos n, rfl⟩
    · have hnext : contentPos pos + 1 ≤ p := by
        have hlen := hdrLen_le pos
        unfold contentPos
        unfold xlogPageSize at hp ⊢
        split <;> lia
      obtain ⟨k, hk, heq⟩ := ih hnext hlt
      exact ⟨k + 1, Nat.succ_lt_succ hk, heq⟩

theorem maxalign_add_padLen (n : Nat) : n + padLen n = maxalign n := by
  unfold padLen maxalign
  lia

theorem maxalign_mod (n : Nat) : maxalign n % 8 = 0 := by
  unfold maxalign
  lia

/-- The padding of a record is what aligns the position after it. -/
theorem maxalign_sub_after {n : Nat} {pos : Lsn} (h : pos % 8 = 0) :
    maxalign (after n pos) - after n pos = padLen n := by
  have hmod := after_mod_eight n pos
  unfold padLen maxalign
  lia

theorem maxalign_sub_aligned {pos : Lsn} (h : pos % 8 = 0) : maxalign pos - pos = 0 := by
  unfold maxalign
  lia

theorem gapEnd_mod_eight {pos : Lsn} (h : pos % 8 = 0) (gap : Option Nat) :
    gapEnd pos gap % 8 = 0 := by
  cases gap with
  | none => exact h
  | some n =>
    simp only [gapEnd, fillLen]
    unfold xlogPageSize
    split <;> lia

theorem WalFrame.next_mod_eight (f : WalFrame) {pos : Lsn} (h : pos % 8 = 0) : f.next pos % 8 = 0 := by
  have hmod := maxalign_mod f.bytes.length
  have hend := gapEnd_mod_eight h f.gap
  rw [WalFrame.next, after_mod_eight]
  lia

theorem fromLe_lt (bs : Bytes) : fromLe bs < 256 ^ bs.length := by
  induction bs with
  | nil => decide
  | cons b bs ih =>
    have hb := b.toNat_lt
    rw [fromLe, List.length_cons, Nat.pow_succ]
    omega

theorem length_lt_of_totLen {bytes : Bytes} (h : fromLe (bytes.take 4) = bytes.length) :
    bytes.length < 2 ^ 32 := by
  have hlt := fromLe_lt (bytes.take 4)
  rw [h] at hlt
  refine lt_of_lt_of_le hlt ?_
  calc 256 ^ (bytes.take 4).length ≤ 256 ^ 4 :=
        Nat.pow_le_pow_right (by decide) (by simp)
    _ = 2 ^ 32 := by decide

theorem zeroTails_eq_nil {fs : List WalFrame} (hgap : ∀ f ∈ fs, f.gap = none) (pos : Lsn) :
    zeroTails pos fs = [] := by
  induction fs generalizing pos with
  | nil => rfl
  | cons f fs ih =>
    have hf := hgap f (by simp)
    simp [zeroTails, hf, gapTails, ih fun g hg => hgap g (by simp [hg])]

/-! ## Laying out -/

@[simp] theorem bodyCells_length (bs : Bytes) : (bodyCells bs).length = bs.length := by
  induction bs with
  | nil => rfl
  | cons b bs ih => simp [bodyCells, ih]

@[simp] theorem bodyCells_bytes (bs : Bytes) : (bodyCells bs).map (·.byte) = bs := by
  induction bs with
  | nil => rfl
  | cons b bs ih => simp [bodyCells, ih]

theorem bodyCells_drop (bs : Bytes) (k : Nat) : (bodyCells bs).drop k = bodyCells (bs.drop k) := by
  induction bs generalizing k with
  | nil => simp [bodyCells]
  | cons b bs ih =>
    cases k with
    | zero => rfl
    | succ k => simp [bodyCells, ih]

@[simp] theorem startCells_length (bs : Bytes) : (startCells bs).length = bs.length := by
  cases bs <;> simp [startCells]

@[simp] theorem startCells_bytes (bs : Bytes) : (startCells bs).map (·.byte) = bs := by
  cases bs <;> simp [startCells]

theorem startCells_drop (bs : Bytes) {k : Nat} (hk : 0 < k) :
    (startCells bs).drop k = bodyCells (bs.drop k) := by
  obtain ⟨k, rfl⟩ := Nat.exists_eq_succ_of_ne_zero hk.ne'
  cases bs with
  | nil => simp [startCells, bodyCells]
  | cons b bs => simp [startCells, bodyCells_drop]

@[simp] theorem zeroCells_length (n : Nat) : (zeroCells n).length = n := by simp [zeroCells]

@[simp] theorem zeroCells_bytes (n : Nat) : (zeroCells n).map (·.byte) = List.replicate n 0 := by
  simp [zeroCells]

theorem zeroCells_drop (n k : Nat) : (zeroCells n).drop k = zeroCells (n - k) := by
  simp [zeroCells]

namespace PageHeaders

variable (hdr : PageHeaders)

theorem lay_append (pos : Lsn) (cs ds : List Cell) :
    hdr.lay pos (cs ++ ds) = hdr.lay pos cs ++ hdr.lay (after cs.length pos) ds := by
  induction cs generalizing pos with
  | nil => rfl
  | cons c cs ih => simp [lay, ih, after]

theorem lay_length (pos : Lsn) (cs : List Cell) :
    pos + (hdr.lay pos cs).length = after cs.length pos := by
  induction cs generalizing pos with
  | nil => rfl
  | cons c cs ih =>
    have ih := ih (contentPos pos + 1)
    rw [List.length_cons, after, ← ih]
    simp only [lay, List.length_append, List.length_cons, contentPos]
    split
    · rw [hdr.length]
      lia
    · rw [List.length_nil]
      lia

/-- Within a page, the stream is its content. -/
theorem lay_inside {pos : Lsn} {cs : List Cell} (h : pos % xlogPageSize ≠ 0)
    (hlen : cs.length ≤ xlogPageSize - pos % xlogPageSize) :
    hdr.lay pos cs = cs.map (·.byte) := by
  induction cs generalizing pos with
  | nil => rfl
  | cons c cs ih =>
    rw [lay, if_neg h, contentPos_inside h, List.nil_append, List.map_cons]
    cases cs with
    | nil => rfl
    | cons d cs =>
      have hne : (pos + 1) % xlogPageSize ≠ 0 := by
        simp only [List.length_cons] at hlen
        unfold xlogPageSize at h hlen ⊢
        lia
      rw [ih hne (by simp only [List.length_cons] at hlen ⊢; unfold xlogPageSize at *; lia)]

/-- The first content bytes on a page. -/
theorem lay_take {pos : Lsn} {cs : List Cell} {n : Nat} (h : pos % xlogPageSize ≠ 0)
    (hn : n ≤ xlogPageSize - pos % xlogPageSize) (hlen : n ≤ cs.length) :
    hdr.lay pos cs = (cs.take n).map (·.byte) ++ hdr.lay (pos + n) (cs.drop n) := by
  have hlen' : (cs.take n).length = n := List.length_take_of_le hlen
  conv_lhs => rw [← List.take_append_drop n cs]
  rw [lay_append, hlen', after_inside h hn, lay_inside hdr h (by rw [hlen']; exact hn)]

theorem lay_header {pos : Lsn} {c : Cell} {cs : List Cell} (h : pos % xlogPageSize = 0) :
    hdr.lay pos (c :: cs) = hdr.bytes pos c.rem ++ hdr.lay (pos + hdrLen pos) (c :: cs) := by
  have hinside := contentPos_mod pos
  rw [contentPos_boundary h] at hinside
  rw [lay, lay, if_pos h, if_neg hinside, contentPos_inside hinside, contentPos_boundary h,
    List.nil_append]

theorem lay_eq_nil {pos : Lsn} {cs : List Cell} : hdr.lay pos cs = [] ↔ cs = [] := by
  cases cs with
  | nil => simp [lay]
  | cons c cs => simp [lay]

end PageHeaders

/-! ## Between two records -/

/-- The stream between two records or inside a gap: the content, the records, and the
zero-filled page tails to come. -/
inductive Between : Lsn → List Cell → List (Lsn × Bytes) → List (Lsn × Lsn) → Prop where
  | done {pos : Lsn} : Between pos [] [] []
  | record {pos : Lsn} {cs : List Cell} {out : List (Lsn × Bytes)} {tails : List (Lsn × Lsn)}
      (bytes : Bytes) :
    recHdrLen ≤ bytes.length → fromLe (bytes.take 4) = bytes.length → pos % 8 = 0 →
    Between (after (maxalign bytes.length) pos) cs out tails →
    Between pos (startCells bytes ++ (zeroCells (padLen bytes.length) ++ cs))
      ((contentPos pos, bytes) :: out) tails
  | zeros {pos : Lsn} {cs : List Cell} {out : List (Lsn × Bytes)} {tails : List (Lsn × Lsn)}
      (z : Nat) :
    0 < z → pos % xlogPageSize ≠ 0 → pos % xlogPageSize + z = xlogPageSize → out ≠ [] →
    Between (pos + z) cs out tails →
    Between pos (zeroCells z ++ cs) out ((pos, pos + z) :: tails)
  | zeroPage {pos : Lsn} {cs : List Cell} {out : List (Lsn × Bytes)} {tails : List (Lsn × Lsn)} :
    pos % xlogPageSize = 0 → out ≠ [] → Between (pos + xlogPageSize) cs out tails →
    Between pos (zeroCells (xlogPageSize - hdrLen pos) ++ cs) out
      ((pos + hdrLen pos, pos + xlogPageSize) :: tails)

namespace Between

variable {pos : Lsn} {cs : List Cell} {out : List (Lsn × Bytes)} {tails : List (Lsn × Lsn)}

theorem zeroPages (n : Nat) {p : Lsn} (hp : p % xlogPageSize = 0) (hout : out ≠ [])
    (h : Between (p + n * xlogPageSize) cs out tails) :
    Between p (Ltap.zeroPages n p ++ cs) out (pageTails n p ++ tails) := by
  induction n generalizing p with
  | zero => simpa [Ltap.zeroPages, pageTails] using h
  | succ n ih =>
    have hnext : p + (n + 1) * xlogPageSize = p + xlogPageSize + n * xlogPageSize := by
      unfold xlogPageSize
      lia
    rw [hnext] at h
    have hp' : (p + xlogPageSize) % xlogPageSize = 0 := by simpa using hp
    simpa [Ltap.zeroPages, pageTails] using zeroPage hp hout (ih hp' h)

theorem gap (g : Option Nat) (hout : out ≠ []) (h : Between (gapEnd pos g) cs out tails) :
    Between pos (gapCells pos g ++ cs) out (gapTails pos g ++ tails) := by
  cases g with
  | none => exact h
  | some n =>
    by_cases hpos : pos % xlogPageSize = 0
    · have hfill : fillLen pos = 0 := if_pos hpos
      simp only [gapEnd, hfill, Nat.add_zero] at h
      simpa [gapCells, gapTails, hfill, zeroCells] using zeroPages n hpos hout h
    · have hfill : fillLen pos = xlogPageSize - pos % xlogPageSize := if_neg hpos
      have hlt : pos % xlogPageSize < xlogPageSize := Nat.mod_lt _ (by decide)
      have hend : (pos + fillLen pos) % xlogPageSize = 0 := by
        rw [hfill]
        unfold xlogPageSize
        lia
      have hz := zeros (fillLen pos) (by lia) hpos (by lia) hout (zeroPages n hend hout h)
      have hne : fillLen pos ≠ 0 := by lia
      simpa [gapCells, gapTails, hne] using hz

/-- A framed stream begins between two records. -/
theorem frames {fs : List WalFrame} {pos : Lsn} (hpos : pos % 8 = 0) :
    Between pos (frameCells pos fs) (framedRecords pos fs) (zeroTails pos fs) := by
  induction fs generalizing pos with
  | nil => exact done
  | cons f fs ih =>
    simp only [frameCells, framedRecords, zeroTails, List.append_assoc]
    exact gap f.gap (by simp) (record f.bytes f.hdr_le f.totLen (gapEnd_mod_eight hpos f.gap)
      (ih (f.next_mod_eight hpos)))

/-- The first content byte is not in the middle of a record. -/
theorem head_rem {c : Cell} (h : Between pos (c :: cs) out tails) : c.rem = 0 := by
  generalize hcs : c :: cs = ds at h
  cases h with
  | done => cases hcs
  | record bytes hlen =>
    cases bytes with
    | nil => simp [recHdrLen] at hlen
    | cons b bs =>
      simp only [startCells, List.cons_append, List.cons.injEq] at hcs
      rw [hcs.1]
  | zeros z hz =>
    obtain ⟨n, rfl⟩ := Nat.exists_eq_succ_of_ne_zero hz.ne'
    simp only [zeroCells, List.replicate_succ, List.cons_append, List.cons.injEq] at hcs
    rw [hcs.1]
  | zeroPage hpos =>
    have hle := hdrLen_le pos
    obtain ⟨n, hn⟩ := Nat.exists_eq_succ_of_ne_zero (n := xlogPageSize - hdrLen pos)
      (by unfold xlogPageSize; lia)
    simp only [hn, zeroCells, List.replicate_succ, List.cons_append, List.cons.injEq] at hcs
    rw [hcs.1]

/-- Stripping a page header. -/
theorem header (hpos : pos % xlogPageSize = 0) (h : Between pos cs out tails) :
    Between (pos + hdrLen pos) cs out tails := by
  cases h with
  | done => exact done
  | record bytes hlen htot hmod hrest =>
    have hmod' : (pos + hdrLen pos) % 8 = 0 := by
      have := hdrLen_mod pos
      lia
    have hlen' : 0 < maxalign bytes.length := by
      unfold maxalign
      unfold recHdrLen at hlen
      lia
    rw [← contentPos_header hpos]
    exact record bytes hlen htot hmod' (after_header hpos hlen' ▸ hrest)
  | zeros z hz hne => exact absurd hpos hne
  | zeroPage _ hout hrest =>
    have hmod := boundary_add_hdrLen hpos
    have hle := hdrLen_le pos
    have hlt := hdrLen_pos pos
    have hend : pos + hdrLen pos + (xlogPageSize - hdrLen pos) = pos + xlogPageSize := by
      unfold xlogPageSize
      lia
    rw [← hend]
    exact zeros _ (by unfold xlogPageSize; lia) (by lia) (by unfold xlogPageSize at *; lia) hout
      (hend ▸ hrest)

theorem contentPos_le_tail (h : Between pos cs out tails) {t : Lsn × Lsn} (ht : t ∈ tails) :
    contentPos pos ≤ t.1 := by
  induction h with
  | done => cases ht
  | @record pos _ _ _ bytes _ _ _ _ ih => exact le_trans (contentPos_le_after _ pos) (ih ht)
  | @zeros pos _ _ _ z _ hne hz _ _ ih =>
    rcases List.mem_cons.mp ht with rfl | ht
    · rw [contentPos_inside hne]
    · rw [← after_inside hne (by lia)] at ih
      exact le_trans (contentPos_le_after z pos) (ih ht)
  | @zeroPage pos _ _ _ hpos _ _ ih =>
    rcases List.mem_cons.mp ht with rfl | ht
    · rw [contentPos_boundary hpos]
    · rw [← after_page hpos] at ih
      exact le_trans (contentPos_le_after _ pos) (ih ht)

/-- The records to come lie behind the position, each with a whole record header. -/
theorem contentPos_le_record (h : Between pos cs out tails) {e : Lsn × Bytes} (he : e ∈ out) :
    contentPos pos ≤ e.1 ∧ recHdrLen ≤ e.2.length := by
  induction h with
  | done => cases he
  | @record pos _ _ _ bytes hhdr _ _ _ ih =>
    rcases List.mem_cons.mp he with rfl | he
    · exact ⟨le_rfl, hhdr⟩
    · exact (ih he).imp_left (le_trans (contentPos_le_after _ pos))
  | @zeros pos _ _ _ z _ hne hz _ _ ih =>
    rw [← after_inside hne (by lia)] at ih
    exact (ih he).imp_left (le_trans (contentPos_le_after z pos))
  | @zeroPage pos _ _ _ hpos _ _ ih =>
    rw [← after_page hpos] at ih
    exact (ih he).imp_left (le_trans (contentPos_le_after _ pos))

theorem le_recordEnd (h : Between pos cs out tails) {e : Lsn × Bytes} (he : e ∈ out) :
    contentPos pos + recHdrLen ≤ recordEnd e := by
  obtain ⟨hstart, hlen⟩ := h.contentPos_le_record he
  exact le_trans (Nat.add_le_add hstart hlen) (add_le_after _ _)

/-- Everything lies behind a position that the stream has passed. -/
theorem filter_eq (h : Between pos cs out tails) {p : Lsn} (hle : p ≤ contentPos pos) :
    out.filter (fun e => p ≤ e.1) = out ∧ tails.filter (fun t => p ≤ t.1) = tails := by
  constructor <;> rw [List.filter_eq_self]
  · intro e he
    exact decide_eq_true (le_trans hle (h.contentPos_le_record he).1)
  · intro t ht
    exact decide_eq_true (le_trans hle (h.contentPos_le_tail ht))

theorem nil (h : Between pos [] out tails) : out = [] ∧ tails = [] := by
  generalize hcs : ([] : List Cell) = ds at h
  cases h with
  | done => exact ⟨rfl, rfl⟩
  | record bytes hlen =>
    have := congrArg List.length hcs
    simp only [List.length_nil, List.length_append, startCells_length] at this
    unfold recHdrLen at hlen
    lia
  | zeros z hz =>
    have := congrArg List.length hcs
    simp only [List.length_nil, List.length_append, zeroCells_length] at this
    lia
  | zeroPage hpos =>
    have := congrArg List.length hcs
    have hle := hdrLen_le pos
    simp only [List.length_nil, List.length_append, zeroCells_length] at this
    unfold xlogPageSize at this
    lia

/-- Records start at multiples of eight. -/
theorem aligned (h : Between pos cs out tails) {e : Lsn × Bytes} (he : e ∈ out) : e.1 % 8 = 0 := by
  induction h with
  | done => cases he
  | @record pos cs out tails bytes _ _ hmod _ ih =>
    rcases List.mem_cons.mp he with rfl | he
    · exact (contentPos_mod_eight pos).trans hmod
    · exact ih he
  | zeros _ _ _ _ _ _ ih => exact ih he
  | zeroPage _ _ _ ih => exact ih he

/-- Zero fill ends where content goes on. -/
theorem tail_le_after (h : Between pos cs out tails) {t : Lsn × Lsn} (ht : t ∈ tails) :
    t.2 ≤ after cs.length pos := by
  induction h with
  | done => cases ht
  | @record pos cs out tails bytes _ _ _ _ ih =>
    have hlen : (startCells bytes ++ (zeroCells (padLen bytes.length) ++ cs)).length =
        maxalign bytes.length + cs.length := by
      simp only [List.length_append, startCells_length, zeroCells_length, ← maxalign_add_padLen]
      lia
    rw [hlen, after_add]
    exact ih ht
  | @zeros pos cs out tails z _ hne hz _ _ ih =>
    rw [List.length_append, zeroCells_length, after_add, after_inside hne (by lia)]
    rcases List.mem_cons.mp ht with rfl | ht
    · exact le_after _ _
    · exact ih ht
  | @zeroPage pos cs out tails hpos _ _ ih =>
    rw [List.length_append, zeroCells_length, after_add, after_page hpos]
    rcases List.mem_cons.mp ht with rfl | ht
    · exact le_after _ _
    · exact ih ht

/-- The cells behind the first `xs.length`. -/
theorem drop_behind (pos : Lsn) {xs : List Cell} {k : Nat} (hk : xs.length ≤ k) (hle : k ≤ (xs ++ cs).length) :
    (xs ++ cs).drop k = cs.drop (k - xs.length) ∧ k - xs.length ≤ cs.length ∧
      after k pos = after (k - xs.length) (after xs.length pos) := by
  refine ⟨?_, ?_, ?_⟩
  · rw [List.drop_append, List.drop_eq_nil_of_le hk, List.nil_append]
  · rw [List.length_append] at hle
    omega
  · rw [← after_add, Nat.add_sub_cancel' hk]

/-- What follows a page boundary inside the stream: the rest of a record that was begun before,
its padding, and then what lies between two records. -/
theorem join {pos p : Lsn} {cs : List Cell} {out : List (Lsn × Bytes)} {tails : List (Lsn × Lsn)} {k : Nat}
    (h : Between pos cs out tails) (hp : p % xlogPageSize = 0)
    (hk : k ≤ cs.length) (hafter : after k pos = p) :
    ∃ bs pad ds, cs.drop k = bodyCells bs ++ (pad ++ ds) ∧ bs.length < 2 ^ 32 ∧
      pad.length = padLen bs.length ∧
      Between (after pad.length (after bs.length p)) ds (out.filter fun e => p ≤ e.1)
        (tails.filter fun t => p ≤ t.1) := by
  rcases Nat.eq_zero_or_pos k with rfl | hk0
  · obtain rfl : pos = p := hafter
    obtain ⟨hout, htails⟩ := h.filter_eq (le_contentPos pos)
    exact ⟨[], [], cs, rfl, by decide, rfl, by rw [hout, htails]; exact h⟩
  have hpast : contentPos pos < p := hafter ▸ contentPos_lt_after hk0 pos
  cases h with
  | done => exact absurd hk0 (by simpa using hk)
  | @record _ cs out tails bytes hhdr htot hmod hrest =>
    have halign := maxalign_add_padLen bytes.length
    rw [List.filter_cons_of_neg (by simpa using hpast)]
    by_cases hin : k < maxalign bytes.length
    · -- The boundary is inside the record: it is a multiple of eight, so not in the padding.
      have hmod8 : k % 8 = 0 := by
        have := after_mod_eight k pos
        have := mod_eight_of_boundary hp
        lia
      have hkf : k < bytes.length := by
        unfold maxalign at hin
        omega
      have hpad : padLen bytes.length = padLen (bytes.drop k).length := by
        rw [List.length_drop]
        unfold padLen maxalign
        omega
      have hend : after (maxalign bytes.length) pos =
          after (padLen bytes.length) (after (bytes.drop k).length p) := by
        rw [← hafter, ← after_add, ← after_add, List.length_drop]
        congr 1
        omega
      obtain ⟨hout, htails⟩ := hrest.filter_eq (p := p) (by
        rw [hend]
        exact le_trans (le_trans (le_after _ _) (le_after _ _)) (le_contentPos _))
      refine ⟨bytes.drop k, zeroCells (padLen bytes.length), cs, ?_, ?_, ?_, ?_⟩
      · rw [List.drop_append_of_le_length (by rw [startCells_length]; omega), startCells_drop _ hk0]
      · have hlt := length_lt_of_totLen htot
        rw [List.length_drop]
        omega
      · rw [zeroCells_length, hpad]
      · rw [hout, htails, zeroCells_length, ← hend]
        exact hrest
    · have hlen : (startCells bytes ++ zeroCells (padLen bytes.length)).length =
          maxalign bytes.length := by
        simp [halign]
      rw [← List.append_assoc] at hk ⊢
      obtain ⟨hdrop, hk', hafter'⟩ := drop_behind pos (hlen.symm ▸ not_lt.mp hin) hk
      rw [hdrop]
      rw [hafter', hlen] at hafter
      rw [hlen] at hk' ⊢
      exact join hrest hp hk' hafter
  | @zeros _ cs _ tails z hz hne hend hout hrest =>
    have hzk : z ≤ k := by
      by_contra hlt
      rw [after_inside hne (by lia)] at hafter
      unfold xlogPageSize at hp hend
      lia
    rw [List.filter_cons_of_neg (by simpa [contentPos_inside hne] using hpast)]
    obtain ⟨hdrop, hk', hafter'⟩ := drop_behind pos (by rwa [zeroCells_length]) hk
    rw [zeroCells_length] at hdrop hk' hafter'
    rw [← after_inside hne (by lia)] at hrest
    rw [hdrop]
    exact join hrest hp hk' (hafter' ▸ hafter)
  | @zeroPage _ cs _ tails hboundary hout hrest =>
    have hzk : xlogPageSize - hdrLen pos ≤ k := by
      by_contra hlt
      have hmod := boundary_add_hdrLen hboundary
      rw [← after_header hboundary hk0, after_inside (by have := hdrLen_pos pos; lia) (by lia)] at hafter
      have hle := hdrLen_le pos
      unfold xlogPageSize at hp hboundary hlt
      lia
    rw [List.filter_cons_of_neg (by simpa [contentPos_boundary hboundary] using hpast)]
    obtain ⟨hdrop, hk', hafter'⟩ := drop_behind pos (by rwa [zeroCells_length]) hk
    rw [zeroCells_length] at hdrop hk' hafter'
    rw [← after_page hboundary] at hrest
    rw [hdrop]
    exact join hrest hp hk' (hafter' ▸ hafter)
termination_by k
decreasing_by
  · unfold maxalign at *
    unfold recHdrLen at hhdr
    omega
  · omega
  · have := hdrLen_le pos
    unfold xlogPageSize at *
    omega

end Between

/-! ## Headers of server version 17 -/

/-- Little-endian bytes of a value. -/
def toLe : Nat → Nat → Bytes
  | 0, _ => []
  | n + 1, v => UInt8.ofNat (v % 256) :: toLe n (v / 256)

theorem toLe_length (n v : Nat) : (toLe n v).length = n := by
  induction n generalizing v with
  | zero => rfl
  | succ n ih => simp [toLe, ih]

theorem fromLe_toLe {n v : Nat} (h : v < 256 ^ n) : fromLe (toLe n v) = v := by
  induction n generalizing v with
  | zero =>
    rw [Nat.pow_zero, Nat.lt_one_iff] at h
    rw [h, toLe, fromLe]
  | succ n ih =>
    have hbyte : (UInt8.ofNat (v % 256)).toNat = v % 256 := by simp
    rw [Nat.pow_succ] at h
    rw [toLe, fromLe, ih (by omega), hbyte]
    omega

/-- `push_page_header`: magic, info, timeline, page address, and `xlp_rem_len`. -/
def pushPageHeader (pos : Lsn) (remLen : Nat) : Bytes :=
  toLe 2 0xD116 ++ (toLe 2 (if pos % walSegSize = 0 then 2 else 0) ++ (toLe 4 1 ++ (toLe 8 pos ++
    (toLe 4 remLen ++ List.replicate (hdrLen pos - 20) 0))))

def pg17Headers : PageHeaders where
  bytes := pushPageHeader
  length pos rem := by
    have hge : 24 ≤ hdrLen pos := by
      unfold hdrLen
      split <;> decide
    simp only [pushPageHeader, List.length_append, toLe_length, List.length_replicate]
    omega
  magic pos rem := by
    rw [pushPageHeader, List.take_left' (toLe_length 2 _)]
    decide
  remLen pos rem hrem := by
    have hskip : (pushPageHeader pos rem).drop 16 =
        toLe 4 rem ++ List.replicate (hdrLen pos - 20) 0 := by
      simp [pushPageHeader, toLe]
    rw [hskip, List.take_left' (toLe_length 4 rem), fromLe_toLe hrem]

/-- The shortest record. -/
def minimal (gap : Option Nat) : WalFrame where
  gap := gap
  bytes := toLe 4 24 ++ List.replicate 20 0
  hdr_le := by decide
  totLen := by decide

/-- A record that does not fit on a page. -/
def spanning : WalFrame where
  gap := none
  bytes := toLe 4 8160 ++ List.replicate 8156 0
  hdr_le := by decide +kernel
  totLen := by decide +kernel

/-- Two records with a segment switch between them. -/
def switched : Bytes := pg17Headers.stream 0 [minimal none, minimal (some 0)]

end Ltap
