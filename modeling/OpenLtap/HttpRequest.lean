-- SUMMARY: The requests of readers, and that a request for a tail is read from any chunks (`serve.rs`).
import OpenLtap.Base.Utf8
import OpenLtap.Wal.NumericText
import OpenLtap.Wire.Lsn

/-!
# Requests

A connection is read until a blank line is among the bytes. The first line names a method and a
target; everything behind it is ignored.
-/

namespace Ltap

/-! ## Reading a request -/

/-- `b"\r\n\r\n"`. -/
def blankLine : Bytes := [0x0D, 0x0A, 0x0D, 0x0A]

/-- The bytes up to the blank line, with what else came along. Nothing when the connection is closed
before. -/
def readHead : Bytes → List Bytes → Except Fault (Option Bytes)
  | buf, [] =>
    if blankLine <:+: buf then .ok (some buf)
    else if 8192 < buf.length then bail "request too large"
    else .ok none
  | buf, chunk :: reads =>
    if blankLine <:+: buf then .ok (some buf)
    else if 8192 < buf.length then bail "request too large"
    else if chunk = [] then .ok none
    else readHead (buf ++ chunk) reads

/-- `split_whitespace`. -/
def splitWhitespace (cs : List Char) : List (List Char) := (cs.splitOnP isWhitespace).filter (· ≠ [])

/-- The first of the `lines`. -/
def firstLine (cs : List Char) : List Char :=
  let line := cs.takeWhile (· ≠ '\n')
  if (cs.dropWhile (· ≠ '\n')) ≠ [] ∧ line.getLast? = some '\r' then line.dropLast else line

/-- `split_once`. -/
def splitOnce (c : Char) (cs : List Char) : Option (List Char × List Char) :=
  match cs.span (· ≠ c) with
  | (_, []) => none
  | (before, _ :: after) => some (before, after)

structure HttpRequest where
  method : String
  path : List Char
  params : List (String × String)

/-- The value of a parameter: the last one given. -/
def HttpRequest.param (r : HttpRequest) (name : String) : Option String :=
  (r.params.reverse.find? (·.1 = name)).map (·.2)

def parseRequest (buf : Bytes) : HttpRequest :=
  let parts := splitWhitespace (firstLine (Utf8.lossy buf).toList)
  let target := parts[1]?.getD []
  let (path, query) := (splitOnce '?' target).getD (target, [])
  { method := String.ofList (parts[0]?.getD [])
    path
    params := (query.splitOn '&').filterMap fun kv =>
      (splitOnce '=' kv).map fun p => (String.ofList p.1, String.ofList p.2) }

/-- The table that a path asks for. -/
def tailTable (path : List Char) : Option String :=
  match path.dropPrefix? "/tail/".toList with
  | none => none
  | some rest => (rest.dropSuffix? ".parquet".toList).map String.ofList

/-! ## A request for a tail -/

/-- The first line of a request for a tail. -/
def tailRequest (table : String) (minLsn : Lsn) (timeoutMs : Nat) : String :=
  s!"GET /tail/{table}.parquet?min_lsn={minLsn}&timeout_ms={timeoutMs} HTTP/1.1"

/-- What that line asks for. -/
def HttpRequest.tail (table : String) (minLsn : Lsn) (timeoutMs : Nat) : HttpRequest :=
  { method := "GET"
    path := "/tail/".toList ++ table.toList ++ ".parquet".toList
    params := [("min_lsn", minLsn.repr), ("timeout_ms", timeoutMs.repr)] }

/-- A table name that a target can hold. -/
def Addressable (table : String) : Prop := ∀ c ∈ table.toList, ¬ isWhitespace c ∧ c ≠ '?'

theorem readHead_reads {head more : Bytes} (hblank : blankLine <:+ head) (hlen : head.length ≤ 8193)
    {reads : List Bytes} (hreads : ∀ r ∈ reads, r ≠ []) {buf : Bytes} (h : buf ++ reads.flatten = head ++ more) :
    ∃ buf', readHead buf reads = .ok (some buf') ∧ buf' <+: head ++ more ∧ blankLine <:+: buf' := by
  induction reads generalizing buf with
  | nil =>
    rw [List.flatten_nil, List.append_nil] at h
    subst h
    have hfound : blankLine <:+: head ++ more := hblank.isInfix.trans (List.prefix_append head more).isInfix
    exact ⟨_, by rw [readHead, if_pos hfound], List.prefix_refl _, hfound⟩
  | cons chunk reads ih =>
    simp only [List.mem_cons, forall_eq_or_imp] at hreads
    have hbegins : buf <+: head ++ more := h ▸ List.prefix_append buf _
    by_cases hfound : blankLine <:+: buf
    · exact ⟨buf, by rw [readHead, if_pos hfound], hbegins, hfound⟩
    · have hshort : buf.length < head.length := by
        by_contra hge
        have hhead := List.prefix_of_prefix_length_le (List.prefix_append head more) hbegins (not_lt.mp hge)
        exact hfound (hblank.isInfix.trans hhead.isInfix)
      rw [readHead, if_neg hfound, if_neg (by omega), if_neg hreads.1]
      refine ih hreads.2 ?_
      rw [List.append_assoc]
      exact h

/-- The blank line is behind the first line. -/
theorem firstLine_read {line : String} (hline : '\r' ∉ line.toList) {rest buf : Bytes}
    (hbegins : buf <+: Utf8.encode (line ++ "\r\n") ++ rest) (hblank : blankLine <:+: buf) :
    ∃ more, buf = Utf8.encode (line ++ "\r\n") ++ more := by
  rcases List.prefix_or_prefix_of_prefix (List.prefix_append (Utf8.encode (line ++ "\r\n")) rest) hbegins with h | h
  · exact ⟨_, (List.prefix_iff_eq_append.mp h).symm⟩
  · exfalso
    obtain ⟨before, after, rfl⟩ := hblank
    obtain ⟨more, h⟩ := h
    have hencode : Utf8.encode (line ++ "\r\n") = Utf8.encode line ++ [0x0D, 0x0A] := by
      simp [Utf8.encode, String.utf8EncodeChar]
    rw [hencode] at h
    have hlen := congrArg List.length h
    simp only [List.length_append, blankLine, List.length_cons, List.length_nil] at hlen
    have hmem : (0x0D : UInt8) ∈ Utf8.encode line := by
      have hat : (before ++ blankLine ++ after ++ more)[before.length]? = (Utf8.encode line)[before.length]? := by
        rw [h, List.getElem?_append_left (by omega)]
      refine List.mem_of_getElem? (i := before.length) (hat.symm.trans ?_)
      simp [blankLine]
    exact hline (Utf8.mem_encode_ascii hmem (by decide))

theorem firstLine_append {line : List Char} (hline : '\n' ∉ line) (cs : List Char) :
    firstLine (line ++ '\r' :: '\n' :: cs) = line := by
  have hall : ∀ c ∈ line ++ ['\r'], decide (c ≠ '\n') = true := by
    intro c hc
    rcases List.mem_append.mp hc with hc | hc
    · exact decide_eq_true fun heq => hline (heq ▸ hc)
    · rw [List.mem_singleton.mp hc]
      rfl
  have hsplit : line ++ '\r' :: '\n' :: cs = (line ++ ['\r']) ++ '\n' :: cs := by simp
  rw [firstLine, hsplit, List.takeWhile_append_of_pos hall, List.dropWhile_append_of_pos hall]
  simp

theorem splitOnce_append {c : Char} {before : List Char} (h : c ∉ before) (after : List Char) :
    splitOnce c (before ++ c :: after) = some (before, after) := by
  have hall : ∀ d ∈ before, decide (d ≠ c) = true := fun d hd => decide_eq_true fun heq => h (heq ▸ hd)
  rw [splitOnce, List.span_eq_takeWhile_dropWhile, List.takeWhile_append_of_pos hall,
    List.dropWhile_append_of_pos hall]
  simp

theorem isDigit_of_mem_repr {n : Nat} {c : Char} (hc : c ∈ n.repr.toList) : c.isDigit = true := by
  rw [Nat.repr_eq_ofList_toDigits, String.toList_ofList] at hc
  exact Nat.isDigit_of_mem_toDigits (by decide) (by decide) hc

theorem not_mem_repr (n : Nat) {c : Char} (hc : c.isDigit = false) : c ∉ n.repr.toList := by
  intro hmem
  rw [isDigit_of_mem_repr hmem] at hc
  cases hc

theorem isWhitespace_repr {n : Nat} {c : Char} (hc : c ∈ n.repr.toList) : isWhitespace c = false :=
  not_isWhitespace_of_isDigit (isDigit_of_mem_repr hc)

theorem isWhitespace_word {word : List Char} (h : word.any isWhitespace = false) :
    ∀ c ∈ word, isWhitespace c = false :=
  fun c hc => Bool.eq_false_of_not_eq_true (List.any_eq_false.mp h c hc)

/-- A target without whitespace is the second word of its line. -/
theorem splitWhitespace_line {target : List Char} (hne : target ≠ []) (h : ∀ c ∈ target, isWhitespace c = false) :
    splitWhitespace ("GET".toList ++ ' ' :: (target ++ ' ' :: "HTTP/1.1".toList)) =
      ["GET".toList, target, "HTTP/1.1".toList] := by
  rw [splitWhitespace, List.splitOnP_append_cons_of_forall_mem (isWhitespace_word (by decide)) ' ' (by decide),
    List.splitOnP_append_cons_of_forall_mem h ' ' (by decide),
    List.splitOnP_eq_singleton (isWhitespace_word (by decide))]
  simp [hne]

section TailRequest

variable {table : String} (minLsn : Lsn) (timeoutMs : Nat)

/-- The second word of the line. -/
def tailTarget (table : String) (minLsn : Lsn) (timeoutMs : Nat) : List Char :=
  "/tail/".toList ++ table.toList ++ ".parquet".toList ++ '?' ::
    ("min_lsn".toList ++ '=' :: minLsn.repr.toList ++ '&' :: ("timeout_ms".toList ++ '=' :: timeoutMs.repr.toList))

theorem tailRequest_toList (table : String) :
    (tailRequest table minLsn timeoutMs).toList =
      "GET".toList ++ ' ' :: (tailTarget table minLsn timeoutMs ++ ' ' :: "HTTP/1.1".toList) := by
  unfold tailTarget
  simp [tailRequest, toString]

theorem isWhitespace_tailTarget (htable : Addressable table) :
    ∀ c ∈ tailTarget table minLsn timeoutMs, isWhitespace c = false := by
  unfold tailTarget
  simp only [List.forall_mem_append, List.forall_mem_cons]
  have hname : ∀ c ∈ table.toList, isWhitespace c = false := fun c hc => by simpa using (htable c hc).1
  refine ⟨⟨⟨isWhitespace_word (by decide), hname⟩, isWhitespace_word (by decide)⟩, by decide, ?_⟩
  exact ⟨⟨isWhitespace_word (by decide), by decide, fun _ => isWhitespace_repr⟩, by decide,
    isWhitespace_word (by decide), by decide, fun _ => isWhitespace_repr⟩

/-- The only whitespace of the line is its two blanks. -/
theorem not_mem_tailRequest (htable : Addressable table) {c : Char} (hc : isWhitespace c = true) (hblank : c ≠ ' ') :
    c ∉ (tailRequest table minLsn timeoutMs).toList := by
  rw [tailRequest_toList]
  simp only [List.mem_append, List.mem_cons, not_or]
  have hword : ∀ word : List Char, (∀ d ∈ word, isWhitespace d = false) → c ∉ word := by
    intro word hword hmem
    rw [hword c hmem] at hc
    cases hc
  exact ⟨hword _ (isWhitespace_word (by decide)), hblank,
    hword _ (isWhitespace_tailTarget minLsn timeoutMs htable), hblank, hword _ (isWhitespace_word (by decide))⟩

theorem parseRequest_tail (htable : Addressable table) {buf more : Bytes}
    (hbuf : buf = Utf8.encode (tailRequest table minLsn timeoutMs ++ "\r\n") ++ more) :
    parseRequest buf = .tail table minLsn timeoutMs := by
  obtain ⟨cs, hcs⟩ := Utf8.lossy_encode_append (tailRequest table minLsn timeoutMs ++ "\r\n") more
  have hfirst : firstLine (Utf8.lossy buf).toList = (tailRequest table minLsn timeoutMs).toList := by
    rw [hbuf, hcs, String.toList_ofList, String.toList_append, List.append_assoc]
    exact firstLine_append (not_mem_tailRequest minLsn timeoutMs htable (by decide) (by decide)) cs
  have hmark : '?' ∉ "/tail/".toList ++ table.toList ++ ".parquet".toList := by
    simp only [List.mem_append, not_or]
    exact ⟨⟨by decide, fun hmem => (htable '?' hmem).2 rfl⟩, by decide⟩
  have hparam : ∀ name : List Char, '&' ∉ name →
      ∀ n : Nat, ∀ c ∈ name ++ '=' :: n.repr.toList, (c == '&') = false := by
    intro name hname n
    simp only [List.forall_mem_append, List.forall_mem_cons]
    exact ⟨fun c hc => beq_false_of_ne fun heq => hname (heq ▸ hc), by decide,
      fun c hc => beq_false_of_ne fun heq => not_mem_repr n (by decide) (heq ▸ hc)⟩
  unfold parseRequest
  have hne : tailTarget table minLsn timeoutMs ≠ [] := List.append_ne_nil_of_right_ne_nil _ (List.cons_ne_nil _ _)
  rw [hfirst, tailRequest_toList, splitWhitespace_line hne (isWhitespace_tailTarget minLsn timeoutMs htable)]
  unfold tailTarget
  simp only [List.getElem?_cons_succ, List.getElem?_cons_zero, Option.getD_some, splitOnce_append hmark,
    String.ofList_toList]
  rw [List.splitOn_eq_splitOnP,
    List.splitOnP_append_cons_of_forall_mem (hparam _ (by decide) minLsn) '&' (by decide),
    List.splitOnP_eq_singleton (hparam _ (by decide) timeoutMs)]
  simp only [List.filterMap_cons, List.filterMap_nil, splitOnce_append (by decide : '=' ∉ "min_lsn".toList),
    splitOnce_append (by decide : '=' ∉ "timeout_ms".toList), Option.map_some, String.ofList_toList, HttpRequest.tail]

/-- However a request for a tail is cut into chunks, and whatever stands behind its first line. -/
theorem readHead_tail (htable : Addressable table) {headers more : Bytes} {reads : List Bytes}
    (hreads : ∀ r ∈ reads, r ≠ [])
    (hblank : blankLine <:+ Utf8.encode (tailRequest table minLsn timeoutMs ++ "\r\n") ++ headers)
    (hlen : (Utf8.encode (tailRequest table minLsn timeoutMs ++ "\r\n") ++ headers).length ≤ 8193)
    (hstream : reads.flatten = Utf8.encode (tailRequest table minLsn timeoutMs ++ "\r\n") ++ headers ++ more) :
    ∃ buf, readHead [] reads = .ok (some buf) ∧ parseRequest buf = .tail table minLsn timeoutMs := by
  obtain ⟨buf, hbuf, hbegins, hfound⟩ := readHead_reads hblank hlen hreads (show [] ++ reads.flatten = _ from hstream)
  rw [List.append_assoc] at hbegins
  have hcr := not_mem_tailRequest minLsn timeoutMs htable (c := '\r') (by decide) (by decide)
  obtain ⟨more', hmore⟩ := firstLine_read hcr hbegins hfound
  exact ⟨buf, hbuf, parseRequest_tail minLsn timeoutMs htable hmore⟩

theorem tailTable_path (table : String) :
    tailTable ("/tail/".toList ++ table.toList ++ ".parquet".toList) = some table := by
  have hstripped : ("/tail/".toList ++ table.toList ++ ".parquet".toList).dropPrefix? "/tail/".toList =
      some (table.toList ++ ".parquet".toList) := by
    rw [List.append_assoc]
    exact List.dropPrefix?_append_of_beq _ (beq_self_eq_true _)
  have hsuffix : (table.toList ++ ".parquet".toList).dropSuffix? ".parquet".toList = some table.toList :=
    List.dropSuffix?_eq_some_iff.mpr ⟨_, rfl, beq_self_eq_true _⟩
  simp only [tailTable, hstripped, hsuffix, Option.map_some, String.ofList_toList]

theorem HttpRequest.tail_minLsn (table : String) (hfits : minLsn < 2 ^ 64) :
    ((HttpRequest.tail table minLsn timeoutMs).param "min_lsn").bind
      (fun v => (fromStrRadix 10 64 v).toOption) = some minLsn := by
  have hparam : (HttpRequest.tail table minLsn timeoutMs).param "min_lsn" = some minLsn.repr := by
    simp [HttpRequest.tail, HttpRequest.param]
  rw [hparam, Option.bind_some, fromStrRadix_repr hfits]
  rfl

theorem HttpRequest.tail_timeoutMs (table : String) (hfits : timeoutMs < 2 ^ 64) :
    ((HttpRequest.tail table minLsn timeoutMs).param "timeout_ms").bind
      (fun v => (fromStrRadix 10 64 v).toOption) = some timeoutMs := by
  have hparam : (HttpRequest.tail table minLsn timeoutMs).param "timeout_ms" = some timeoutMs.repr := by
    simp [HttpRequest.tail, HttpRequest.param]
  rw [hparam, Option.bind_some, fromStrRadix_repr hfits]
  rfl

end TailRequest

end Ltap
