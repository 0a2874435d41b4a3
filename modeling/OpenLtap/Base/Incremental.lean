-- SUMMARY: Incremental decoders: messages taken off a buffer that grows as bytes arrive.
import Mathlib.Data.List.Basic

/-!
# Incremental decoders

A decoder is asked about the bytes that have arrived. It has a message for them, or waits for
more, or gives up; what it says of some bytes stands when more arrive. So the messages of a
stream do not depend on the pieces in which it arrives, nor on when the decoder is asked.
-/

namespace Incremental

/-- What a decoder says of the bytes that have arrived, and what it leaves of them. -/
inductive Poll (β μ ε : Type) where
  | pending (rest : List β)
  | ready (m : μ) (rest : List β)
  | failed (e : ε)
  deriving DecidableEq, Repr

structure Decoder (β μ ε : Type) where
  poll : List β → Poll β μ ε
  /-- While it waits, what it has dropped does not matter any more. -/
  resume {bs rest : List β} : poll bs = .pending rest → ∀ more, poll (bs ++ more) = poll (rest ++ more)
  ready_append {bs rest : List β} {m : μ} :
    poll bs = .ready m rest → ∀ more, poll (bs ++ more) = .ready m (rest ++ more)
  failed_append {bs : List β} {e : ε} : poll bs = .failed e → ∀ more, poll (bs ++ more) = .failed e
  ready_lt {bs rest : List β} {m : μ} : poll bs = .ready m rest → rest.length < bs.length

/-- How a stream ends: the decoder waits with some bytes left, or has given up. -/
inductive Ending (β ε : Type) where
  | waiting (rest : List β)
  | broken (e : ε)
  deriving DecidableEq, Repr

namespace Decoder

variable {β μ ν ε : Type} (d : Decoder β μ ε)

/-! ## All messages of some bytes -/

def decodeFuel : Nat → List β → List μ × Ending β ε
  | 0, bs => ([], .waiting bs)
  | fuel + 1, bs =>
    match d.poll bs with
    | .pending rest => ([], .waiting rest)
    | .failed e => ([], .broken e)
    | .ready m rest =>
      let (ms, ending) := decodeFuel fuel rest
      (m :: ms, ending)

/-- Every message takes at least a byte, so the number of bytes bounds the turns. -/
def decode (bs : List β) : List μ × Ending β ε := d.decodeFuel (bs.length + 1) bs

variable {d} {bs rest more : List β} {m : μ} {e : ε}

theorem decodeFuel_eq {fuel : Nat} (h : bs.length < fuel) : d.decodeFuel fuel bs = d.decode bs := by
  have hgo : ∀ n bs, bs.length < n → ∀ k, bs.length < k → d.decodeFuel n bs = d.decodeFuel k bs := by
    intro n
    induction n with
    | zero => intro bs h; omega
    | succ n ih =>
      intro bs hn k hk
      obtain ⟨k, rfl⟩ : ∃ j, k = j + 1 := ⟨k - 1, by omega⟩
      simp only [decodeFuel]
      cases hpoll : d.poll bs with
      | pending rest => rfl
      | failed e => rfl
      | ready m rest =>
        have hlt := d.ready_lt hpoll
        simp only [ih rest (by omega) k (by omega)]
  exact hgo fuel bs h _ (Nat.lt_succ_self _)

theorem decode_pending (h : d.poll bs = .pending rest) : d.decode bs = ([], .waiting rest) := by
  simp only [decode, decodeFuel, h]

theorem decode_failed (h : d.poll bs = .failed e) : d.decode bs = ([], .broken e) := by
  simp only [decode, decodeFuel, h]

theorem decode_ready (h : d.poll bs = .ready m rest) :
    d.decode bs = (m :: (d.decode rest).1, (d.decode rest).2) := by
  rw [decode, decodeFuel]
  simp only [h, decodeFuel_eq (d.ready_lt h)]

/-- An induction over the messages of a stream. -/
theorem decodeInduction {motive : List β → Prop}
    (hpending : ∀ bs rest, d.poll bs = .pending rest → motive bs)
    (hfailed : ∀ bs e, d.poll bs = .failed e → motive bs)
    (hready : ∀ bs m rest, d.poll bs = .ready m rest → motive rest → motive bs) (bs : List β) : motive bs := by
  induction hn : bs.length using Nat.strongRecOn generalizing bs with
  | ind n ih =>
    cases hpoll : d.poll bs with
    | pending rest => exact hpending bs rest hpoll
    | failed e => exact hfailed bs e hpoll
    | ready m rest => exact hready bs m rest hpoll (ih _ (hn ▸ d.ready_lt hpoll) rest rfl)

/-- A decoder that waits says the same of what it kept as of all that it was given. -/
theorem decode_resume (h : d.poll bs = .pending rest) (more : List β) :
    d.decode (bs ++ more) = d.decode (rest ++ more) := by
  have hsame := d.resume h more
  cases hpoll : d.poll (rest ++ more) with
  | pending r => rw [decode_pending hpoll, decode_pending (hsame.trans hpoll)]
  | failed e => rw [decode_failed hpoll, decode_failed (hsame.trans hpoll)]
  | ready m r => rw [decode_ready hpoll, decode_ready (hsame.trans hpoll)]

/-! ## What arrives later -/

/-- The messages of some bytes stay their messages, and more follow from what was left. -/
theorem decode_append (bs more : List β) :
    d.decode (bs ++ more) =
      match d.decode bs with
      | (ms, .waiting rest) => (ms ++ (d.decode (rest ++ more)).1, (d.decode (rest ++ more)).2)
      | (ms, .broken e) => (ms, .broken e) := by
  induction bs using d.decodeInduction with
  | hpending bs rest h => rw [decode_pending h, decode_resume h]; rfl
  | hfailed bs e h => rw [decode_failed h, decode_failed (d.failed_append h more)]
  | hready bs m rest h ih =>
    rw [decode_ready h, decode_ready (d.ready_append h more), ih]
    obtain ⟨ms, ending⟩ := d.decode rest
    cases ending <;> rfl

/-- Of all the bytes that have come, the messages `out` were taken off and `buf` is left. -/
def Taken (d : Decoder β μ ε) (total : List β) (out : List μ) (buf : List β) : Prop :=
  d.decode total = (out ++ (d.decode buf).1, (d.decode buf).2)

namespace Taken

variable {total buf : List β} {out : List μ}

theorem start (bs : List β) : d.Taken bs [] bs := rfl

/-- More bytes come in behind the buffer. -/
theorem arrive (h : d.Taken total out buf) (chunk : List β) : d.Taken (total ++ chunk) out (buf ++ chunk) := by
  unfold Taken at h ⊢
  rw [decode_append, decode_append buf, h]
  obtain ⟨ms, ending⟩ := d.decode buf
  cases ending with
  | broken e => rfl
  | waiting rest => simp only [List.append_assoc]

/-- A message is taken off. -/
theorem ready (h : d.Taken total out buf) (hpoll : d.poll buf = .ready m rest) : d.Taken total (out ++ [m]) rest := by
  unfold Taken at h ⊢
  rw [h, decode_ready hpoll, List.append_assoc, List.singleton_append]

/-- A decoder that was asked too early keeps its place. -/
theorem pending (h : d.Taken total out buf) (hpoll : d.poll buf = .pending rest) : d.Taken total out rest := by
  unfold Taken at h ⊢
  have hrest : d.decode rest = d.decode buf := by
    have hresume := d.decode_resume hpoll []
    rwa [List.append_nil, List.append_nil, eq_comm] at hresume
  rw [h, hrest]

theorem trans {buf' : List β} {out' : List μ} (h : d.Taken total out buf) (h' : d.Taken buf out' buf') :
    d.Taken total (out ++ out') buf' := by
  unfold Taken at h h' ⊢
  rw [h, h', List.append_assoc]

theorem isPrefix (h : d.Taken total out buf) : out <+: (d.decode total).1 := by
  rw [h]
  exact List.prefix_append _ _

end Taken

/-! ## Encoded streams -/

section Encoded

variable {α : Type} {encode : α → List β} {value : α → μ}

theorem decode_flatMap {as : List α} (henc : ∀ a ∈ as, ∀ more, d.poll (encode a ++ more) = .ready (value a) more)
    (more : List β) :
    d.decode (as.flatMap encode ++ more) = (as.map value ++ (d.decode more).1, (d.decode more).2) := by
  induction as with
  | nil => rfl
  | cons a as ih =>
    rw [List.flatMap_cons, List.append_assoc, decode_ready (henc a List.mem_cons_self _),
      ih fun a ha => henc a (List.mem_cons_of_mem _ ha)]
    rfl

/-- However much of an encoded stream has come, the messages so far are its first ones. -/
theorem decode_of_prefix {as : List α} (henc : ∀ a ∈ as, ∀ more, d.poll (encode a ++ more) = .ready (value a) more)
    (hnil : ∃ rest, d.poll [] = .pending rest) (h : bs <+: as.flatMap encode) :
    (d.decode bs).1 <+: as.map value ∧ ∃ rest, (d.decode bs).2 = .waiting rest := by
  obtain ⟨more, hmore⟩ := h
  obtain ⟨r, hr⟩ := hnil
  have hall := decode_flatMap henc []
  rw [List.append_nil, decode_pending hr, List.append_nil, ← hmore, decode_append] at hall
  generalize d.decode bs = found at hall
  obtain ⟨xs, _ | e⟩ := found
  · have hms : xs ++ _ = as.map value := congrArg Prod.fst hall
    exact ⟨⟨_, hms⟩, _, rfl⟩
  · cases congrArg Prod.snd hall

end Encoded

/-! ## Skipping messages -/

section Select

variable (d) (f : μ → Except ε (Option ν))

def selectFuel : Nat → List β → Poll β ν ε
  | 0, bs => .pending bs
  | fuel + 1, bs =>
    match d.poll bs with
    | .pending rest => .pending rest
    | .failed e => .failed e
    | .ready m rest =>
      match f m with
      | .error e => .failed e
      | .ok (some n) => .ready n rest
      | .ok none => selectFuel fuel rest

variable {d f} {n : ν}

theorem selectFuel_eq {fuel k : Nat} (h : bs.length < fuel) (hk : bs.length < k) :
    d.selectFuel f fuel bs = d.selectFuel f k bs := by
  induction fuel generalizing bs k with
  | zero => omega
  | succ fuel ih =>
    obtain ⟨k, rfl⟩ : ∃ j, k = j + 1 := ⟨k - 1, by omega⟩
    simp only [selectFuel]
    cases hpoll : d.poll bs with
    | pending rest => rfl
    | failed e => rfl
    | ready m rest =>
      have hlt := d.ready_lt hpoll
      rcases hf : f m with e | _ | n
      · simp only [hf]
      · simp only [hf]
        exact ih (by omega) (by omega)
      · simp only [hf]

variable (d f) in
/-- Take messages off until `f` keeps one or refuses it. -/
def selectPoll (bs : List β) : Poll β ν ε := d.selectFuel f (bs.length + 1) bs

theorem selectPoll_pending (h : d.poll bs = .pending rest) : d.selectPoll f bs = .pending rest := by
  simp only [selectPoll, selectFuel, h]

theorem selectPoll_failed (h : d.poll bs = .failed e) : d.selectPoll f bs = .failed e := by
  simp only [selectPoll, selectFuel, h]

theorem selectPoll_kept (h : d.poll bs = .ready m rest) (hf : f m = .ok (some n)) :
    d.selectPoll f bs = .ready n rest := by
  simp only [selectPoll, selectFuel, h, hf]

theorem selectPoll_refused (h : d.poll bs = .ready m rest) (hf : f m = .error e) : d.selectPoll f bs = .failed e := by
  simp only [selectPoll, selectFuel, h, hf]

theorem selectPoll_skipped (h : d.poll bs = .ready m rest) (hf : f m = .ok none) :
    d.selectPoll f bs = d.selectPoll f rest := by
  rw [selectPoll, selectFuel]
  simp only [h, hf]
  exact selectFuel_eq (d.ready_lt h) (Nat.lt_succ_self _)

/-- What `selectPoll` says of more bytes. -/
theorem selectPoll_append (bs more : List β) :
    d.selectPoll f (bs ++ more) =
      match d.selectPoll f bs with
      | .pending rest => d.selectPoll f (rest ++ more)
      | .ready n rest => .ready n (rest ++ more)
      | .failed e => .failed e := by
  induction bs using d.decodeInduction with
  | hpending bs rest h =>
    rw [selectPoll_pending h]
    have hsame := d.resume h more
    dsimp only
    cases hpoll : d.poll (rest ++ more) with
    | pending r => rw [selectPoll_pending hpoll, selectPoll_pending (hsame.trans hpoll)]
    | failed e => rw [selectPoll_failed hpoll, selectPoll_failed (hsame.trans hpoll)]
    | ready m r =>
      cases hf : f m with
      | error e => rw [selectPoll_refused hpoll hf, selectPoll_refused (hsame.trans hpoll) hf]
      | ok o =>
        cases o with
        | some n => rw [selectPoll_kept hpoll hf, selectPoll_kept (hsame.trans hpoll) hf]
        | none => rw [selectPoll_skipped hpoll hf, selectPoll_skipped (hsame.trans hpoll) hf]
  | hfailed bs e h => rw [selectPoll_failed h, selectPoll_failed (d.failed_append h more)]
  | hready bs m rest h ih =>
    have happend := d.ready_append h more
    cases hf : f m with
    | error e => rw [selectPoll_refused h hf, selectPoll_refused happend hf]
    | ok o =>
      cases o with
      | some n => rw [selectPoll_kept h hf, selectPoll_kept happend hf]
      | none => rw [selectPoll_skipped h hf, selectPoll_skipped happend hf, ih]

theorem selectPoll_lt (bs : List β) : ∀ n rest, d.selectPoll f bs = .ready n rest → rest.length < bs.length := by
  induction bs using d.decodeInduction with
  | hpending bs rest h => rw [selectPoll_pending h]; rintro n r ⟨⟩
  | hfailed bs e h => rw [selectPoll_failed h]; rintro n r ⟨⟩
  | hready bs m rest h ih =>
    have hlt := d.ready_lt h
    cases hf : f m with
    | error e => rw [selectPoll_refused h hf]; rintro n r ⟨⟩
    | ok o =>
      cases o with
      | some n' => rw [selectPoll_kept h hf]; rintro n r ⟨⟩; exact hlt
      | none =>
        rw [selectPoll_skipped h hf]
        intro n r hsel
        exact Nat.lt_trans (ih n r hsel) hlt

variable (d f) in
/-- The messages that `f` keeps. It is given up at one that `f` refuses. -/
def select : Decoder β ν ε where
  poll := d.selectPoll f
  resume h more := by rw [selectPoll_append, h]
  ready_append h more := by rw [selectPoll_append, h]
  failed_append h more := by rw [selectPoll_append, h]
  ready_lt h := selectPoll_lt _ _ _ h

variable (f) in
/-- What `f` keeps of some messages, up to one that it refuses. -/
def keep : List μ → List ν × Option ε
  | [] => ([], none)
  | m :: ms =>
    match f m with
    | .error e => ([], some e)
    | .ok none => keep ms
    | .ok (some n) =>
      let (ns, e) := keep ms
      (n :: ns, e)

/-- The messages kept are those that the plain decoder finds and `f` keeps. -/
theorem decode_select (bs : List β) :
    (d.select f).decode bs =
      match keep f (d.decode bs).1 with
      | (ns, some e) => (ns, .broken e)
      | (ns, none) => (ns, (d.decode bs).2) := by
  induction bs using d.decodeInduction with
  | hpending bs rest h =>
    have hsel : (d.select f).poll bs = .pending rest := selectPoll_pending h
    rw [decode_pending h, decode_pending hsel]
    rfl
  | hfailed bs e h =>
    have hsel : (d.select f).poll bs = .failed e := selectPoll_failed h
    rw [decode_failed h, decode_failed hsel]
    rfl
  | hready bs m rest h ih =>
    rw [decode_ready h]
    simp only [keep]
    cases hf : f m with
    | error e =>
      have hsel : (d.select f).poll bs = .failed e := selectPoll_refused h hf
      rw [decode_failed hsel]
    | ok o =>
      cases o with
      | some n =>
        have hsel : (d.select f).poll bs = .ready n rest := selectPoll_kept h hf
        rw [decode_ready hsel, ih]
        obtain ⟨ns, e⟩ := keep f (d.decode rest).1
        cases e <;> rfl
      | none =>
        rw [← ih]
        have hsel : (d.select f).poll bs = (d.select f).poll rest := selectPoll_skipped h hf
        cases hrest : (d.select f).poll rest with
        | pending r => rw [decode_pending hrest, decode_pending (hsel.trans hrest)]
        | failed e => rw [decode_failed hrest, decode_failed (hsel.trans hrest)]
        | ready n r => rw [decode_ready hrest, decode_ready (hsel.trans hrest)]

end Select

end Decoder

end Incremental
