import Cfgd.Response

/-!
# The block behind a response

The thread of a task has one block of `RESP_BUFF_SIZE` bytes for its response. A text is
written by `vsnprintf`, which cuts it at the end of the block, puts a terminator there
and answers the length of the whole text; the offset then stands behind the block. A
binary piece that does not fit is refused.
-/

namespace ReplyBuffer

open CText Response

/-- One call of `pro_append_response` or of `pro_append_binary_response`: a text is a
C string, and the length of either is an `int`. -/
structure Piece where
  bytes : Bytes
  binary : Bool
  isInt : bytes.length < 2 ^ 31
  isString : binary = false → 0 ∉ bytes

def Piece.size (piece : Piece) : Nat := piece.bytes.length

/-- `struct pro_work_thread`: the block of the response and the offset in it. -/
structure Thread where
  response : Bytes
  offset : Nat
  block : response.length = respBuffSize

/-- A write into the block, which must lie inside it. -/
def Thread.write (thread : Thread) (data : Bytes) : Option Thread :=
  if inside : thread.offset + data.length ≤ respBuffSize then
    some { thread with
      response := thread.response.take thread.offset ++ data ++
        thread.response.drop (thread.offset + data.length)
      block := by
        have block := thread.block
        simp only [List.length_append, List.length_take, List.length_drop]
        omega }
  else none

/-- The addition of two `int`s, which must not overflow. -/
def addInt (left right : Nat) : Option Nat :=
  if left + right < 2 ^ 31 then some (left + right) else none

/-- What `vsnprintf` writes into a room of `n` bytes. -/
def vsnprintf (n : Nat) (text : Bytes) : Bytes :=
  if n = 0 then [] else text.take (n - 1) ++ [0]

def proAppendResponse (thread : Thread) (text : Bytes) : Option Thread :=
  if respBuffSize ≤ thread.offset then some thread
  else do
    let written ← thread.write (vsnprintf (respBuffSize - thread.offset) text)
    let offset ← addInt thread.offset text.length
    some { written with offset := offset }

def proAppendBinaryResponse (thread : Thread) (data : Bytes) : Option Thread :=
  if data = [] then some thread
  else do
    let offset ← addInt thread.offset data.length
    if respBuffSize ≤ offset then some thread
    else do
      let written ← thread.write data
      some { written with offset := offset }

def append (thread : Thread) (piece : Piece) : Option Thread :=
  if piece.binary then proAppendBinaryResponse thread piece.bytes
  else proAppendResponse thread piece.bytes

/-- A sequence of appended pieces. There is no result when a write goes outside the
block, or when a sum of the code is not an `int`. -/
def appendAll (thread : Thread) (pieces : List Piece) : Option Thread :=
  pieces.foldlM append thread

/-- What `pro_send_response` hands to `jnet_write_response`. -/
def sent (thread : Thread) : Bytes := thread.response.take (min thread.offset respBuffSize)

def concatenation (pieces : List Piece) : Bytes := pieces.flatMap Piece.bytes

/-- All writes lie in the block, and what is sent is the pieces one after the other, or
as much of them as there is room for. -/
def Delivers (thread : Thread) (pieces : List Piece) : Prop :=
  ∃ last, appendAll thread pieces = some last ∧ sent last <+: concatenation pieces ∧
    ((concatenation pieces).length < respBuffSize → sent last = concatenation pieces)

/-! ## When it is -/

/-- What is appended behind refused data is that data again, as far as it gets into the
block. `used` bytes of the block are in use. -/
def Repeats (used : Nat) (refused : Bytes) : List Piece → Prop
  | [] => True
  | piece :: rest =>
    if used + piece.size < respBuffSize then
      piece.bytes <+: refused ∧ Repeats (used + piece.size) (refused.drop piece.size) rest
    else used + piece.size < 2 ^ 31 ∧
      if piece.binary then Repeats used refused rest
      else vsnprintf (respBuffSize - used) piece.bytes <+: refused ∧
        ∀ later ∈ rest, later.binary → used + piece.size + later.size < 2 ^ 31

/-- The pieces fit, or the first one that does not is binary. -/
def Fitting (used : Nat) : List Piece → Prop
  | [] => True
  | piece :: rest =>
    if used + piece.size < respBuffSize then Fitting (used + piece.size) rest
    else piece.binary ∧ used + piece.size < 2 ^ 31 ∧ Repeats used piece.bytes rest

instance decidableRepeats : ∀ used refused pieces, Decidable (Repeats used refused pieces)
  | _, _, [] => .isTrue trivial
  | used, refused, piece :: rest =>
    have := decidableRepeats (used + piece.size) (refused.drop piece.size) rest
    have := decidableRepeats used refused rest
    inferInstanceAs (Decidable (if used + piece.size < respBuffSize then _ ∧ _
      else _ ∧ if piece.binary = true then _ else _ ∧ _))

instance decidableFitting : ∀ used pieces, Decidable (Fitting used pieces)
  | _, [] => .isTrue trivial
  | used, piece :: rest =>
    have := decidableFitting (used + piece.size) rest
    inferInstanceAs (Decidable (if used + piece.size < respBuffSize then _ else _ ∧ _ ∧ _))

section Steps
variable {thread : Thread} {piece : Piece}

theorem addInt_of_lt {left right : Nat} (small : left + right < 2 ^ 31) :
    addInt left right = some (left + right) := if_pos small

theorem addInt_of_le {left right : Nat} (large : 2 ^ 31 ≤ left + right) :
    addInt left right = none := if_neg (Nat.not_lt.mpr large)

/-- The thread has `done` in front of its offset. -/
structure Holds (thread : Thread) (done : Bytes) : Prop where
  front : thread.response.take thread.offset = done
  offset : thread.offset = done.length
  room : done.length < respBuffSize

theorem Holds.sent_eq {done : Bytes} (holds : Holds thread done) : sent thread = done := by
  have room := holds.room
  rw [sent, Nat.min_eq_left (by rw [holds.offset]; omega), holds.front]

/-- What a write leaves in front of a place inside of what it wrote. -/
theorem write_front {written : Thread} {data : Bytes} {done : Bytes} (holds : Holds thread done)
    (run : thread.write data = some written) {n : Nat} (inside : n ≤ data.length) :
    written.response.take (done.length + n) = done ++ data.take n := by
  have room := holds.room
  have block := thread.block
  rw [Thread.write] at run
  split at run
  · obtain rfl := Option.some.inj run
    dsimp only
    rw [holds.front, List.append_assoc, List.take_length_add_append,
      List.take_append_of_le_length inside]
  · cases run

theorem write_some (data : Bytes) {done : Bytes} (holds : Holds thread done)
    (fits : done.length + data.length ≤ respBuffSize) :
    ∃ written, thread.write data = some written := by
  rw [Thread.write, dif_pos (by rw [holds.offset]; exact fits)]
  exact ⟨_, rfl⟩

theorem vsnprintf_fits {n : Nat} {text : Bytes} (fits : text.length < n) :
    vsnprintf n text = text ++ [0] := by
  rw [vsnprintf, if_neg (by omega), List.take_of_length_le (by omega)]

theorem length_vsnprintf {n : Nat} {text : Bytes} (cut : n ≤ text.length) :
    (vsnprintf n text).length = n := by
  rw [vsnprintf]
  split
  · rename_i none
    rw [none]
    rfl
  · rw [List.length_append, List.length_take, List.length_singleton]
    omega

/-- A piece for which there is room goes behind the others. -/
theorem append_fits {done : Bytes} (holds : Holds thread done)
    (fits : done.length + piece.size < respBuffSize) :
    ∃ next, append thread piece = some next ∧ Holds next (done ++ piece.bytes) := by
  have buffer : respBuffSize = 5242880 := rfl
  have small :
      addInt thread.offset piece.bytes.length = some (thread.offset + piece.bytes.length) :=
    addInt_of_lt (by rw [holds.offset, ← Piece.size]; omega)
  have size : (done ++ piece.bytes).length = done.length + piece.size := List.length_append
  rw [append]
  split
  · rw [proAppendBinaryResponse]
    split
    · rename_i none
      rw [none, List.append_nil]
      exact ⟨thread, rfl, holds⟩
    · obtain ⟨written, run⟩ := write_some piece.bytes holds (Nat.le_of_lt fits)
      refine ⟨{ written with offset := thread.offset + piece.bytes.length }, ?_, ?_⟩
      · rw [small, run]
        change (if _ then _ else _) = _
        rw [if_neg (by rw [holds.offset, ← Piece.size]; omega)]
        rfl
      · constructor
        · have front := write_front holds run (le_refl _)
          rw [List.take_length] at front
          rw [← front, holds.offset]
        · rw [size, ← holds.offset, Piece.size]
        · omega
  · have text : vsnprintf (respBuffSize - thread.offset) piece.bytes = piece.bytes ++ [0] :=
      vsnprintf_fits (by rw [holds.offset, ← Piece.size]; omega)
    rw [proAppendResponse, if_neg (by rw [holds.offset]; omega), text]
    obtain ⟨written, run⟩ := write_some (piece.bytes ++ [0]) holds
      (by rw [List.length_append, ← Piece.size, List.length_singleton]; omega)
    refine ⟨{ written with offset := thread.offset + piece.bytes.length }, ?_, ?_⟩
    · rw [run, small]
      rfl
    · constructor
      · have front := write_front (n := piece.bytes.length) holds run
          (by rw [List.length_append]; omega)
        rw [List.take_left] at front
        rw [← front, holds.offset]
      · rw [size, ← holds.offset, Piece.size]
      · omega

/-- A binary piece for which there is no room is refused, if its end is an `int`. -/
theorem append_refused {done : Bytes} (holds : Holds thread done) (binary : piece.binary = true)
    (large : respBuffSize ≤ done.length + piece.size) :
    append thread piece = if done.length + piece.size < 2 ^ 31 then some thread else none := by
  have room := holds.room
  have some : ¬ piece.bytes = [] := by
    intro none
    rw [Piece.size, none, List.length_nil] at large
    omega
  rw [append, if_pos binary, proAppendBinaryResponse, if_neg some, addInt, holds.offset,
    ← Piece.size]
  by_cases small : done.length + piece.size < 2 ^ 31
  · rw [if_pos small, if_pos small]
    change (if _ then _ else _) = _
    rw [if_pos large]
  · rw [if_neg small, if_neg small]
    rfl

/-- A text for which there is no room fills the block and ends it with a terminator. -/
theorem append_cut {done : Bytes} (holds : Holds thread done) (text : ¬ piece.binary = true)
    (large : respBuffSize ≤ done.length + piece.size) :
    (2 ^ 31 ≤ done.length + piece.size → append thread piece = none) ∧
      (done.length + piece.size < 2 ^ 31 → ∃ next, append thread piece = some next ∧
        next.offset = done.length + piece.size ∧
        next.response = done ++ vsnprintf (respBuffSize - done.length) piece.bytes) := by
  have room := holds.room
  have length : (vsnprintf (respBuffSize - done.length) piece.bytes).length =
      respBuffSize - done.length := length_vsnprintf (by rw [← Piece.size]; omega)
  obtain ⟨written, run⟩ := write_some (vsnprintf (respBuffSize - done.length) piece.bytes)
    holds (by rw [length]; omega)
  have front := write_front holds run (le_refl _)
  have whole : written.response = done ++ vsnprintf (respBuffSize - done.length) piece.bytes := by
    have all : written.response.take respBuffSize = written.response := by
      rw [← written.block, List.take_length]
    rw [List.take_length, length, Nat.add_sub_cancel' (Nat.le_of_lt room), all] at front
    exact front
  have step : append thread piece = (do
      let offset ← addInt thread.offset piece.bytes.length
      some { written with offset := offset }) := by
    rw [append, if_neg text, proAppendResponse, if_neg (by rw [holds.offset]; omega),
      holds.offset, run]
    rfl
  rw [step]
  constructor
  · intro overflow
    rw [addInt_of_le (by rw [holds.offset]; exact overflow)]
    rfl
  · intro small
    rw [addInt_of_lt (by rw [holds.offset]; exact small)]
    refine ⟨{ written with offset := thread.offset + piece.bytes.length }, rfl, ?_, whole⟩
    rw [holds.offset, Piece.size]

/-- Once the offset stands behind the block, nothing changes any more. -/
theorem append_full (full : respBuffSize ≤ thread.offset) (isInt : thread.offset < 2 ^ 31) :
    append thread piece =
      if piece.binary = true → thread.offset + piece.size < 2 ^ 31 then some thread else none := by
  rw [append]
  by_cases binary : piece.binary = true
  · rw [if_pos binary, proAppendBinaryResponse]
    by_cases none : piece.bytes = []
    · rw [if_pos none, if_pos]
      rw [Piece.size, none]
      exact fun _ => isInt
    · rw [if_neg none, addInt, ← Piece.size]
      by_cases small : thread.offset + piece.size < 2 ^ 31
      · rw [if_pos small, if_pos fun _ => small]
        change (if _ then _ else _) = _
        rw [if_pos (by omega)]
      · rw [if_neg small, if_neg fun h => small (h binary)]
        rfl
  · rw [if_neg binary, proAppendResponse, if_pos full, if_pos fun h => absurd h binary]

theorem appendAll_cons (thread : Thread) (piece : Piece) (rest : List Piece) :
    appendAll thread (piece :: rest) = (append thread piece).bind (appendAll · rest) := rfl

theorem appendAll_full (full : respBuffSize ≤ thread.offset) (isInt : thread.offset < 2 ^ 31)
    (pieces : List Piece) : appendAll thread pieces =
      if ∀ piece ∈ pieces, piece.binary = true → thread.offset + piece.size < 2 ^ 31 then
        some thread else none := by
  induction pieces with
  | nil => exact (if_pos fun _ mem => absurd mem List.not_mem_nil).symm
  | cons piece rest ih =>
    rw [appendAll_cons, append_full full isInt]
    by_cases here : piece.binary = true → thread.offset + piece.size < 2 ^ 31
    · rw [if_pos here, Option.bind_some, ih]
      exact if_congr (by rw [List.forall_mem_cons, and_iff_right here]) rfl rfl
    · rw [if_neg here, Option.bind_none, if_neg fun all => here (all piece List.mem_cons_self)]

end Steps

section Runs

/-- The last thread of a run, if it has one, sends a prefix of the data. -/
def Sends (thread : Thread) (pieces : List Piece) (data : Bytes) : Prop :=
  ∃ last, appendAll thread pieces = some last ∧ sent last <+: data

theorem sends_step {thread next : Thread} {piece : Piece} {rest : List Piece} {data : Bytes}
    (step : append thread piece = some next) :
    Sends thread (piece :: rest) data ↔ Sends next rest data := by
  rw [Sends, appendAll_cons, step]
  rfl

theorem not_sends {thread : Thread} {piece : Piece} {rest : List Piece} {data : Bytes}
    (step : append thread piece = none) : ¬ Sends thread (piece :: rest) data := by
  rintro ⟨last, run, -⟩
  rw [appendAll_cons, step] at run
  cases run

/-- A full block is sent as it is. -/
theorem sent_full {thread : Thread} (full : respBuffSize ≤ thread.offset) :
    sent thread = thread.response := by
  rw [sent, Nat.min_eq_right full, ← thread.block, List.take_length]

/-- What is sent in the end holds all that is in front of the offset now. -/
theorem front_sent {thread last : Thread} {pieces : List Piece} {done : Bytes}
    (holds : Holds thread done) (run : appendAll thread pieces = some last) :
    done <+: sent last := by
  induction pieces generalizing thread done with
  | nil =>
    obtain rfl := Option.some.inj run
    exact holds.sent_eq.symm ▸ List.prefix_rfl
  | cons piece rest ih =>
    rw [appendAll_cons] at run
    by_cases fits : done.length + piece.size < respBuffSize
    · obtain ⟨next, step, later⟩ := append_fits holds fits
      rw [step] at run
      exact (List.prefix_append done piece.bytes).trans (ih later run)
    · have large := Nat.not_lt.mp fits
      by_cases small : done.length + piece.size < 2 ^ 31
      · by_cases binary : piece.binary = true
        · rw [append_refused holds binary large, if_pos small] at run
          exact ih holds run
        · obtain ⟨next, step, offset, response⟩ := (append_cut holds binary large).2 small
          rw [step, Option.bind_some,
            appendAll_full (by rw [offset]; exact large) (by rw [offset]; exact small)] at run
          split at run
          · obtain rfl := Option.some.inj run
            rw [sent_full (by rw [offset]; exact large), response]
            exact List.prefix_append _ _
          · cases run
      · by_cases binary : piece.binary = true
        · rw [append_refused holds binary large, if_neg small] at run
          cases run
        · rw [(append_cut holds binary large).1 (Nat.not_lt.mp small)] at run
          cases run

/-- A run from a text on that is cut. -/
theorem sends_cut {thread : Thread} {piece : Piece} {rest : List Piece} {done data : Bytes}
    (holds : Holds thread done) (text : ¬ piece.binary = true)
    (large : respBuffSize ≤ done.length + piece.size) : Sends thread (piece :: rest) data ↔
      done.length + piece.size < 2 ^ 31 ∧
      done ++ vsnprintf (respBuffSize - done.length) piece.bytes <+: data ∧
      ∀ later ∈ rest, later.binary = true → done.length + piece.size + later.size < 2 ^ 31 := by
  by_cases small : done.length + piece.size < 2 ^ 31
  · obtain ⟨next, step, offset, response⟩ := (append_cut holds text large).2 small
    have full : respBuffSize ≤ next.offset := by rw [offset]; exact large
    rw [sends_step step, Sends, appendAll_full full (by rw [offset]; exact small), offset,
      and_iff_right small]
    constructor
    · rintro ⟨last, run, part⟩
      split at run
      · rename_i ints
        obtain rfl := Option.some.inj run
        rw [sent_full full, response] at part
        exact ⟨part, ints⟩
      · cases run
    · rintro ⟨part, ints⟩
      refine ⟨next, if_pos ints, ?_⟩
      rw [sent_full full, response]
      exact part
  · have none := (append_cut holds text large).1 (Nat.not_lt.mp small)
    exact iff_of_false (not_sends none) fun h => small h.1

theorem prefix_part {part first rest : Bytes} (short : part.length ≤ first.length) :
    part <+: first ++ rest ↔ part <+: first :=
  ⟨fun h => List.prefix_of_prefix_length_le h (List.prefix_append first rest) short,
    fun h => h.trans (List.prefix_append first rest)⟩

/-- Behind refused data the run goes on well exactly if it repeats the data. -/
theorem sends_repeats {thread : Thread} {pieces : List Piece} {done refused : Bytes}
    (more : Bytes) (holds : Holds thread done)
    (large : respBuffSize ≤ done.length + refused.length) :
    Sends thread pieces (done ++ (refused ++ more)) ↔ Repeats done.length refused pieces := by
  induction pieces generalizing thread done refused with
  | nil =>
    refine iff_of_true ⟨thread, rfl, ?_⟩ trivial
    rw [holds.sent_eq]
    exact List.prefix_append _ _
  | cons piece rest ih =>
    rw [Repeats]
    by_cases fits : done.length + piece.size < respBuffSize
    · rw [if_pos fits]
      obtain ⟨next, step, later⟩ := append_fits holds fits
      have short : piece.bytes.length ≤ refused.length := by
        rw [← Piece.size]
        omega
      have size : (done ++ piece.bytes).length = done.length + piece.size := List.length_append
      rw [sends_step step]
      constructor
      · intro sends
        have part : piece.bytes <+: refused := by
          obtain ⟨last, run, part⟩ := sends
          have all := (front_sent later run).trans part
          rw [List.prefix_append_right_inj, prefix_part short] at all
          exact all
        obtain ⟨back, rfl⟩ := part
        refine ⟨List.prefix_append _ _, ?_⟩
        rw [Piece.size, List.drop_left, ← Piece.size, ← size, ← ih later]
        · simpa only [List.append_assoc] using sends
        · rw [size, Piece.size]
          rw [List.length_append] at large
          omega
      · rintro ⟨⟨back, rfl⟩, repeats⟩
        rw [Piece.size, List.drop_left, ← Piece.size, ← size, ← ih later] at repeats
        · simpa only [List.append_assoc] using repeats
        · rw [size, Piece.size]
          rw [List.length_append] at large
          omega
    · have beyond := Nat.not_lt.mp fits
      rw [if_neg fits]
      by_cases binary : piece.binary = true
      · rw [if_pos binary]
        have step := append_refused holds binary beyond
        by_cases small : done.length + piece.size < 2 ^ 31
        · rw [if_pos small] at step
          rw [sends_step step, and_iff_right small, ih holds large]
        · rw [if_neg small] at step
          exact iff_of_false (not_sends step) fun h => small h.1
      · have room := holds.room
        rw [if_neg binary, sends_cut holds binary beyond, List.prefix_append_right_inj,
          prefix_part (by rw [length_vsnprintf (by rw [← Piece.size]; omega)]; omega)]

/-- No text that is cut is sent as it was. -/
theorem not_prefix_cut {piece : Piece} {n : Nat} (text : ¬ piece.binary = true) (some : 0 < n)
    (cut : n ≤ piece.size) (rest : Bytes) : ¬ vsnprintf n piece.bytes <+: piece.bytes ++ rest := by
  rw [prefix_part (by rw [length_vsnprintf cut, ← Piece.size]; exact cut)]
  intro part
  have last : (0 : UInt8) ∈ vsnprintf n piece.bytes := by
    rw [vsnprintf, if_neg (by omega)]
    exact List.mem_append_right _ (List.mem_singleton_self 0)
  exact piece.isString (Bool.eq_false_iff.mpr text) (part.subset last)

theorem concatenation_cons (piece : Piece) (rest : List Piece) :
    concatenation (piece :: rest) = piece.bytes ++ concatenation rest := List.flatMap_cons

theorem sends_fitting {thread : Thread} {pieces : List Piece} {done : Bytes}
    (holds : Holds thread done) :
    Sends thread pieces (done ++ concatenation pieces) ↔ Fitting done.length pieces := by
  induction pieces generalizing thread done with
  | nil =>
    refine iff_of_true ⟨thread, rfl, ?_⟩ trivial
    rw [holds.sent_eq]
    exact List.prefix_append _ _
  | cons piece rest ih =>
    have room := holds.room
    rw [Fitting, concatenation_cons]
    by_cases fits : done.length + piece.size < respBuffSize
    · obtain ⟨next, step, later⟩ := append_fits holds fits
      have size : (done ++ piece.bytes).length = done.length + piece.size := List.length_append
      rw [if_pos fits, sends_step step, ← List.append_assoc, ih later, size]
    · have large := Nat.not_lt.mp fits
      rw [if_neg fits]
      by_cases binary : piece.binary = true
      · have step := append_refused holds binary large
        rw [and_iff_right binary]
        by_cases small : done.length + piece.size < 2 ^ 31
        · rw [if_pos small] at step
          rw [sends_step step, and_iff_right small,
            sends_repeats (concatenation rest) holds large]
        · rw [if_neg small] at step
          exact iff_of_false (not_sends step) fun h => small h.1
      · rw [sends_cut holds binary large, List.prefix_append_right_inj]
        refine iff_of_false ?_ fun h => binary h.1
        rintro ⟨-, part, -⟩
        exact not_prefix_cut binary (by omega) (by omega) (concatenation rest) part

/-- Pieces that all fit are sent as they are. -/
theorem sent_short {thread last : Thread} {pieces : List Piece} {done : Bytes}
    (holds : Holds thread done)
    (short : done.length + (concatenation pieces).length < respBuffSize)
    (run : appendAll thread pieces = some last) : sent last = done ++ concatenation pieces := by
  induction pieces generalizing thread done with
  | nil =>
    obtain rfl := Option.some.inj run
    rw [holds.sent_eq]
    exact (List.append_nil done).symm
  | cons piece rest ih =>
    rw [concatenation_cons, List.length_append] at short
    have fits : done.length + piece.size < respBuffSize := by
      rw [Piece.size]
      omega
    obtain ⟨next, step, later⟩ := append_fits holds fits
    rw [appendAll_cons, step, Option.bind_some] at run
    rw [ih later (by rw [List.length_append]; omega) run, concatenation_cons, List.append_assoc]

theorem holds_fresh {thread : Thread} (fresh : thread.offset = 0) : Holds thread [] := by
  have buffer : respBuffSize = 5242880 := rfl
  refine ⟨?_, fresh, ?_⟩
  · rw [fresh, List.take_zero]
  · rw [List.length_nil]
    omega

theorem sends_iff {thread : Thread} (fresh : thread.offset = 0) (pieces : List Piece) :
    Sends thread pieces (concatenation pieces) ↔ Fitting 0 pieces :=
  sends_fitting (holds_fresh fresh)

/-- The response of a task is delivered exactly when its pieces fit, but for a refused
binary piece that the others repeat. -/
theorem delivers_iff {thread : Thread} (fresh : thread.offset = 0) (pieces : List Piece) :
    Delivers thread pieces ↔ Fitting 0 pieces := by
  refine Iff.trans ⟨?_, ?_⟩ (sends_iff fresh pieces)
  · exact fun ⟨last, run, part, _⟩ => ⟨last, run, part⟩
  · rintro ⟨last, run, part⟩
    refine ⟨last, run, part, fun short => ?_⟩
    exact sent_short (holds_fresh fresh) (by rw [List.length_nil, Nat.zero_add]; exact short) run

theorem not_delivers_long {thread : Thread} (fresh : thread.offset = 0) {piece : Piece}
    (text : ¬ piece.binary = true) (large : respBuffSize ≤ piece.size) :
    ¬ Delivers thread [piece] := by
  rintro ⟨last, run, part, -⟩
  have fitting := (sends_iff fresh [piece]).mp ⟨last, run, part⟩
  rw [Fitting, if_neg (by omega)] at fitting
  exact text fitting.1

end Runs

/-- A thread that has sent nothing yet. -/
def blankThread : Thread := ⟨List.replicate respBuffSize 0, 0, List.length_replicate⟩

/-- A status, a text and binary data. -/
def shortReply : List Piece :=
  [⟨jessOk, false, by decide, by decide⟩, ⟨ofChars ['a', '=', '1'], false, by decide, by decide⟩,
    ⟨[0, 1, 2], true, by decide, by decide⟩]

theorem delivers_shortReply : Delivers blankThread shortReply :=
  (delivers_iff rfl shortReply).mpr (by decide)

/-- A text as long as the block. -/
def longText : Piece where
  bytes := List.replicate respBuffSize 97
  binary := false
  isInt := by
    rw [List.length_replicate]
    decide
  isString := by
    intro _ mem
    exact absurd (List.eq_of_mem_replicate mem) (by decide)

/-- The terminator is sent in the place of its last byte. -/
theorem longText_not_delivered : ¬ Delivers blankThread [longText] := by
  have large : respBuffSize ≤ longText.size := Nat.le_of_eq List.length_replicate.symm
  exact not_delivers_long rfl (by decide) large

end ReplyBuffer
