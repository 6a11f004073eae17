import Cfgd.JsonRoundTrip

/-!
# Printing into a buffer

`print` of `cJSON.c` writes a document into a buffer that grows, with what the heap left in
its new bytes. It gives the text of the document and its terminator, or nothing.
-/

namespace JsonPrinting

open CText CJson Item JsonText JsonBounds JsonAccepted JsonRoundTrip Reading

/-- `INT_MAX` -/
def intMax : Nat := 2147483647

/-- What the heap gives for each request: nothing, or a block with these bytes in it. -/
abbrev Allocator := Nat → Option (Nat → UInt8)

/-- The members of `printbuffer` that change, with the bytes of the buffer, and how often the
heap was asked. -/
structure Printbuffer where
  buffer : Bytes
  offset : Nat
  requests : Nat

section Writing
variable (heap : Allocator)

/-- A write to a block. -/
def storeAt (block : Bytes) (place : Nat) (bytes : Bytes) : Reading Bytes :=
  if place + bytes.length ≤ block.length then
    .done (block.take place ++ bytes ++ block.drop (place + bytes.length))
  else .outside

namespace Printbuffer
variable (p : Printbuffer)

def store (bytes : Bytes) : Reading Printbuffer := do
  let buffer ← storeAt p.buffer p.offset bytes
  .done { p with buffer := buffer }

def advance (n : Nat) : Printbuffer := { p with offset := p.offset + n }

/-- `realloc` to a size above that of the buffer. -/
def reallocate (newsize : Nat) : Reading Printbuffer :=
  match heap p.requests with
  | none => .refused
  | some fill =>
    .done ⟨p.buffer ++ (List.range (newsize - p.buffer.length)).map fill, p.offset, p.requests + 1⟩

/-- `ensure` -/
def ensure (needed : Nat) : Reading Printbuffer :=
  if 0 < p.buffer.length ∧ p.buffer.length ≤ p.offset then .refused
  else if intMax < needed then .refused
  else
    let needed := needed + (p.offset + 1)
    if needed ≤ p.buffer.length then .done p
    else if intMax / 2 < needed then
      if needed ≤ intMax then p.reallocate heap intMax else .refused
    else p.reallocate heap (needed * 2)

/-- `update_offset`, with its `strlen`. -/
def updateOffset : Reading Printbuffer :=
  if 0 ∈ p.buffer.drop p.offset then .done (p.advance (cString (p.buffer.drop p.offset)).length)
  else .outside

end Printbuffer

open Printbuffer

/-- The characters that the escape of a byte adds. -/
def escapeCharacters (c : UInt8) : Nat :=
  match c.toNat with
  | 34 => 1
  | 92 => 1
  | 8 => 1
  | 12 => 1
  | 10 => 1
  | 13 => 1
  | 9 => 1
  | n => if n < 32 then 5 else 0

/-- The loop of `print_string_ptr` that escapes; `sprintf` ends its digits with a terminator. -/
def escapeLoop : (input : Bytes) → (block : Bytes) → (outputPointer : Nat) → Reading Bytes
  | [], block, _ => .done block
  | c :: input, block, outputPointer => do
    let terminator : Bytes := if escapeCharacters c = 5 then [0] else []
    let block ← storeAt block outputPointer (printByte c ++ terminator)
    escapeLoop input block (outputPointer + (printByte c).length)

/-- `print_string_ptr` -/
def printStringTo (input : Option Bytes) (p : Printbuffer) : Reading Printbuffer :=
  match input with
  | none => do
    let p ← p.ensure heap 3
    p.store [34, 34, 0]
  | some input => do
    let input := cString input
    let escapes := (input.map escapeCharacters).sum
    let outputLength := input.length + escapes
    let p ← p.ensure heap (outputLength + 3)
    if escapes = 0 then p.store (34 :: input ++ [34, 0])
    else
      let block ← storeAt p.buffer p.offset [34]
      let block ← escapeLoop input block (p.offset + 1)
      let block ← storeAt block (p.offset + outputLength + 1) [34, 0]
      .done { p with buffer := block }

section Values
variable {ν : Type} [NumberFormat ν]

/-- `print_number`, with the block of 26 bytes that `sprintf` writes to. -/
def printNumberTo (valuedouble : ν) (p : Printbuffer) : Reading Printbuffer := do
  let number := numberText valuedouble
  if 25 < number.length then .outside
  else
    let p ← p.ensure heap (number.length + 1)
    let p ← p.store (number ++ [0])
    .done (p.advance number.length)

/-- A literal and its terminator. -/
def printWord (word : Bytes) (p : Printbuffer) : Reading Printbuffer := do
  let p ← p.ensure heap (word.length + 1)
  p.store (word ++ [0])

mutual
/-- `print_value`, without the format. -/
def printValue : Item ν → Printbuffer → Reading Printbuffer
  | .mk _ _ kind child, p => match kind with
    | .cjsonNull => printWord heap nullWord p
    | .cjsonFalse => printWord heap falseWord p
    | .cjsonTrue => printWord heap trueWord p
    | .cjsonNumber valuedouble => printNumberTo heap valuedouble p
    | .cjsonString valuestring => printStringTo heap (some valuestring) p
    | .cjsonArray => do
      let p ← p.ensure heap 1
      let p ← p.store [91]
      let p ← printArrayLoop child (p.advance 1)
      let p ← p.ensure heap 2
      p.store [93, 0]
    | .cjsonObject => do
      let p ← p.ensure heap 2
      let p ← p.store [123]
      let p ← printObjectLoop child (p.advance 1)
      let p ← p.ensure heap 2
      p.store [125, 0]
/-- The loop of `print_array`. -/
def printArrayLoop : List (Item ν) → Printbuffer → Reading Printbuffer
  | [], p => .done p
  | c :: rest, p => do
    let p ← printValue c p
    let p ← p.updateOffset
    if rest.isEmpty then printArrayLoop rest p
    else
      let p ← p.ensure heap 2
      let p ← p.store [44, 0]
      printArrayLoop rest (p.advance 1)
/-- The loop of `print_object`. -/
def printObjectLoop : List (Item ν) → Printbuffer → Reading Printbuffer
  | [], p => .done p
  | c :: rest, p => do
    let p ← printStringTo heap c.string p
    let p ← p.updateOffset
    let p ← p.ensure heap 1
    let p ← p.store [58]
    let p ← printValue c (p.advance 1)
    let p ← p.updateOffset
    let length := if rest.isEmpty then 0 else 1
    let p ← p.ensure heap (length + 1)
    let p ← p.store (if rest.isEmpty then [0] else [44, 0])
    printObjectLoop rest (p.advance length)
end

/-- `print` without the format: the block that it hands out. -/
def print (item : Item ν) : Reading Bytes :=
  match heap 0 with
  | none => .refused
  | some fill => do
    let p ← printValue heap item ⟨(List.range 256).map fill, 0, 1⟩
    let p ← p.updateOffset
    match heap p.requests with
    | none => .refused
    | some fill =>
      let size := p.offset + 1
      .done (p.buffer.take size ++ (List.range (size - p.buffer.length)).map fill)

end Values

end Writing

section Outcomes
variable {α β : Type}

/-- No wrong access; a refusal has its reason, and what comes out has a property. -/
def Prints (fails : Prop) (P : α → Prop) : Reading α → Prop
  | .outside => False
  | .starved => False
  | .refused => fails
  | .done a => P a

theorem prints_bind {fails : Prop} {P : α → Prop} {Q : β → Prop} {reading : Reading α}
    {next : α → Reading β} (h : Prints fails P reading)
    (step : ∀ a, P a → Prints fails Q (next a)) :
    Prints fails Q (reading >>= next) := by
  cases reading with
  | done a => exact step a h
  | refused => exact h
  | outside => exact h
  | starved => exact h

end Outcomes

section Buffers
variable (heap : Allocator) {text more front : Bytes} {p : Printbuffer}

/-- Only the heap or `INT_MAX` ends the printing of a text of this size. -/
def Fails (size : Nat) : Prop := (∀ i, heap i ≠ none) → intMax < size + 2

/-- The buffer holds a text, and there is room behind it. -/
structure Holds (text : Bytes) (p : Printbuffer) : Prop where
  place : p.offset = text.length
  shows : text <+: p.buffer
  room : text.length < p.buffer.length
  bound : p.buffer.length ≤ intMax

/-- Behind a text there is more, with its terminator; the offset may stand before its end. -/
structure Written (text more : Bytes) (p : Printbuffer) : Prop where
  split : ∃ before behind, more = before ++ behind ∧ p.offset = (text ++ before).length ∧ 0 ∉ behind
  shows : text ++ more ++ [0] <+: p.buffer
  room : (text ++ more).length + 2 ≤ p.buffer.length
  bound : p.buffer.length ≤ intMax

theorem storeAt_prefix {block : Bytes} (bytes : Bytes) {place : Nat} (shows : text <+: block)
    (here : place = text.length) (fits : text.length + bytes.length ≤ block.length) :
    ∃ block', storeAt block place bytes = .done block' ∧ text ++ bytes <+: block' ∧
      block'.length = block.length := by
  obtain ⟨rest, rfl⟩ := shows
  subst here
  rw [List.length_append] at fits
  refine ⟨text ++ bytes ++ (text ++ rest).drop (text.length + bytes.length), ?_,
    List.prefix_append .., ?_⟩
  · rw [storeAt, if_pos (by rw [List.length_append]; omega), List.take_left]
  · simp only [List.length_append, List.length_drop]
    omega

theorem ensure_spec {n size : Nat} (h : Holds text p) (small : text.length + n ≤ size + 1) :
    Prints (Fails heap size) (fun p' => Holds text p' ∧ text.length + n + 1 ≤ p'.buffer.length)
      (p.ensure heap n) := by
  have place := h.place
  have room := h.room
  have grown : ∀ newsize, text.length + n + 1 ≤ newsize → p.buffer.length ≤ newsize →
      newsize ≤ intMax → Prints (Fails heap size)
        (fun p' => Holds text p' ∧ text.length + n + 1 ≤ p'.buffer.length)
        (p.reallocate heap newsize) := by
    intro newsize enough more bound
    rw [Printbuffer.reallocate]
    cases given : heap p.requests with
    | none => exact fun always => absurd given (always _)
    | some fill =>
      have size : (p.buffer ++ (List.range (newsize - p.buffer.length)).map fill).length =
          newsize := by
        rw [List.length_append, List.length_map, List.length_range]
        omega
      refine ⟨⟨place, h.shows.trans (List.prefix_append ..), ?_, ?_⟩, ?_⟩
      · rw [size]
        omega
      · rw [size]
        exact bound
      · rw [size]
        exact enough
  rw [Printbuffer.ensure, if_neg (by omega)]
  split
  · exact fun _ => by omega
  · dsimp only
    split
    · exact ⟨h, by omega⟩
    · split
      · split
        · exact grown intMax (by omega) h.bound (Nat.le_refl _)
        · exact fun _ => by omega
      · exact grown _ (by omega) (by omega) (by omega)

/-- A write behind the text that becomes part of it, up to its first bytes. -/
theorem store_advance (bytes extra : Bytes) (h : Holds text p)
    (fits : text.length + (bytes ++ extra).length ≤ p.buffer.length)
    (room : text.length + bytes.length < p.buffer.length) :
    ∃ p', p.store (bytes ++ extra) = .done p' ∧
      Holds (text ++ bytes) (p'.advance bytes.length) := by
  obtain ⟨block, stored, shows, size⟩ := storeAt_prefix _ h.shows h.place fits
  refine ⟨{ p with buffer := block }, by rw [Printbuffer.store, stored, done_bind], ?_, ?_, ?_, ?_⟩
  · rw [List.length_append, ← h.place]
    rfl
  · rw [← List.append_assoc] at shows
    exact (List.prefix_append _ extra).trans shows
  · rw [List.length_append]
    exact size ▸ room
  · exact size ▸ h.bound

/-- A write behind the text with a terminator, which the offset does not follow. -/
theorem store_written (more : Bytes) (h : Holds (text ++ front) p) (plain : 0 ∉ more)
    (room : (text ++ front).length + more.length + 2 ≤ p.buffer.length) :
    ∃ p', p.store (more ++ [0]) = .done p' ∧ Written text (front ++ more) p' := by
  have fits : (text ++ front).length + (more ++ [0]).length ≤ p.buffer.length := by
    have long : (more ++ [0]).length = more.length + 1 := List.length_append
    omega
  obtain ⟨block, stored, shows, size⟩ := storeAt_prefix _ h.shows h.place fits
  refine ⟨{ p with buffer := block }, by rw [Printbuffer.store, stored, done_bind],
    ⟨front, more, rfl, h.place, plain⟩, ?_, ?_, ?_⟩
  · simpa only [List.append_assoc] using shows
  · rw [← List.append_assoc, List.length_append]
    exact size ▸ room
  · exact size ▸ h.bound

theorem updateOffset_spec (h : Written text more p) :
    ∃ p', p.updateOffset = .done p' ∧ Holds (text ++ more) p' ∧ p'.buffer = p.buffer := by
  obtain ⟨before, behind, rfl, place, plain⟩ := h.split
  obtain ⟨rest, shows⟩ := h.shows
  have left : p.buffer.drop p.offset = behind ++ 0 :: rest := by
    have cut : text ++ (before ++ behind) ++ [0] ++ rest =
        text ++ before ++ (behind ++ 0 :: rest) := by
      simp
    rw [← shows, place, cut, List.drop_left]
  refine ⟨p.advance behind.length, ?_, ⟨?_, ?_, ?_, h.bound⟩, rfl⟩
  · rw [Printbuffer.updateOffset, left, if_pos (by simp), cString_terminated plain]
  · rw [← List.append_assoc, List.length_append, ← place]
    rfl
  · exact (List.prefix_append _ [0]).trans h.shows
  · have room := h.room
    exact show _ < p.buffer.length by omega

end Buffers

section Strings
variable {heap : Allocator} {text : Bytes} {p : Printbuffer}

theorem printByte_length (c : UInt8) : (printByte c).length = 1 + escapeCharacters c := by
  have all : ∀ n : Fin 256,
      (printByte n.val.toUInt8).length = 1 + escapeCharacters n.val.toUInt8 := by
    decide +kernel
  have here := all ⟨c.toNat, c.toNat_lt⟩
  rwa [show c.toNat.toUInt8 = c from UInt8.ofNat_toNat] at here

theorem flatMap_length (s : Bytes) :
    (s.flatMap printByte).length = s.length + (s.map escapeCharacters).sum := by
  induction s with
  | nil => rfl
  | cons c s ih =>
    rw [List.flatMap_cons, List.length_append, ih, printByte_length, List.map_cons, List.sum_cons,
      List.length_cons]
    omega

/-- Where nothing is escaped the bytes are printed as they are. -/
theorem flatMap_plain {s : Bytes} (none : (s.map escapeCharacters).sum = 0) :
    s.flatMap printByte = s := by
  induction s with
  | nil => rfl
  | cons c s ih =>
    rw [List.map_cons, List.sum_cons] at none
    have one : (printByte c).length = 1 := by
      rw [printByte_length]
      omega
    rcases printByte_cases c with ⟨_, _, printed⟩ | ⟨letter, printed, _⟩ | ⟨_, printed⟩
    · rw [List.flatMap_cons, printed, ih (by omega), List.singleton_append]
    · rw [printed] at one
      cases one
    · rw [printed] at one
      cases one

theorem cString_self {s : Bytes} (clean : 0 ∉ s) : cString s = s := by
  have whole : ∀ c ∈ s, decide (c ≠ 0) = true := fun c mem => decide_eq_true fun zero =>
    clean (zero ▸ mem)
  conv_lhs => rw [← List.append_nil s]
  rw [cString, List.takeWhile_append_of_pos whole, List.takeWhile_nil, List.append_nil]

/-- The digits of `sprintf` end in front of the closing quote at the latest. -/
theorem escapeLoop_spec (s : Bytes) {block : Bytes} {place : Nat} (shows : text <+: block)
    (here : place = text.length)
    (fits : text.length + (s.flatMap printByte).length + 1 ≤ block.length) :
    ∃ block', escapeLoop s block place = .done block' ∧ text ++ s.flatMap printByte <+: block' ∧
      block'.length = block.length := by
  induction s generalizing text block place with
  | nil => exact ⟨block, rfl, by simpa using shows, rfl⟩
  | cons c s ih =>
    rw [List.flatMap_cons, List.length_append] at fits
    generalize ended : (if escapeCharacters c = 5 then [0] else [] : Bytes) = terminator
    have short : terminator.length ≤ 1 := by
      rw [← ended]
      split
      · exact Nat.le_refl 1
      · exact Nat.zero_le 1
    obtain ⟨block', stored, shows', size⟩ := storeAt_prefix (printByte c ++ terminator)
      shows here (by rw [List.length_append]; omega)
    rw [← List.append_assoc] at shows'
    obtain ⟨block'', looped, shows'', size'⟩ := ih ((List.prefix_append _ _).trans shows')
      (show place + (printByte c).length = (text ++ printByte c).length by
        rw [List.length_append, here]) (by rw [List.length_append]; omega)
    refine ⟨block'', ?_, ?_, size'.trans size⟩
    · rw [escapeLoop, ended, stored, done_bind, looped]
    · rwa [List.flatMap_cons, ← List.append_assoc]

theorem printStringTo_spec {s : Option Bytes} (clean : ∀ name ∈ s, 0 ∉ name) (size : Nat)
    (h : Holds text p) (small : text.length + (printStringPtr s).length ≤ size) :
    Prints (Fails heap size) (Written text (printStringPtr s)) (printStringTo heap s p) := by
  have front : ∀ {p' : Printbuffer}, Holds text p' → Holds (text ++ []) p' := by
    intro p' held
    rwa [List.append_nil]
  cases s with
  | none =>
    have whole : printStringPtr none = [34, 34] := rfl
    rw [whole] at small ⊢
    rw [printStringTo]
    refine prints_bind (ensure_spec heap h (by simpa using small)) fun p' held => ?_
    have room : (text ++ []).length + [34, 34].length + 2 ≤ p'.buffer.length := by
      rw [List.append_nil]
      exact held.2
    obtain ⟨p'', stored, written⟩ := store_written [34, 34] (front held.1) (by decide) room
    rw [show ([34, 34, 0] : Bytes) = [34, 34] ++ [0] from rfl, stored]
    exact written
  | some s =>
    have plain := clean s rfl
    have whole : printStringPtr (some s) = 34 :: s.flatMap printByte ++ [34] := rfl
    have length : (printStringPtr (some s)).length = (s.flatMap printByte).length + 2 := by
      rw [whole, List.cons_append, List.length_cons, List.length_append, List.length_singleton]
    have sum := flatMap_length s
    rw [length] at small
    rw [printStringTo, cString_self plain]
    refine prints_bind (ensure_spec heap h (n := s.length + (s.map escapeCharacters).sum + 3)
      (by omega)) fun p' held => ?_
    obtain ⟨held, room⟩ := held
    split
    · rename_i none
      have same := flatMap_plain none
      have fits : (text ++ []).length + (34 :: s ++ [34]).length + 2 ≤ p'.buffer.length := by
        simp only [List.append_nil, List.length_append, List.length_cons, List.length_nil]
        omega
      obtain ⟨p'', stored, written⟩ := store_written (34 :: s ++ [34]) (front held)
        (by simpa using plain) fits
      rw [show 34 :: s ++ [34, 0] = 34 :: s ++ [34] ++ [0] by simp, stored, whole, same]
      exact written
    · obtain ⟨block, opened, shows, size₁⟩ := storeAt_prefix [34] held.shows held.place
        (by rw [List.length_singleton]; omega)
      obtain ⟨block', looped, shows', size₂⟩ := escapeLoop_spec s shows
        (show p'.offset + 1 = (text ++ [34]).length by
          rw [held.place, List.length_append, List.length_singleton])
        (by rw [List.length_append, List.length_singleton]; omega)
      have quote : p'.offset + (s.length + (s.map escapeCharacters).sum) + 1 =
          (text ++ [34] ++ s.flatMap printByte).length := by
        simp only [List.length_append, List.length_singleton, held.place]
        omega
      obtain ⟨block'', closed, shows'', size₃⟩ := storeAt_prefix [34, 0] shows' quote
        (by simp only [List.length_append, List.length_cons, List.length_nil]; omega)
      rw [opened, done_bind, looped, done_bind, closed, done_bind]
      refine ⟨⟨[], printStringPtr (some s), rfl, ?_, printStringPtr_clean plain⟩, ?_, ?_, ?_⟩
      · rw [List.append_nil]
        exact held.place
      · rw [whole]
        simpa using shows''
      · rw [List.length_append, length]
        simp only
        omega
      · simp only
        have bound := held.bound
        omega

end Strings

section Values
variable {ν : Type} [NumberFormat ν] {heap : Allocator} {text : Bytes} {p : Printbuffer}

theorem numberText_bytes (laws : NumberLaws ν) (n : ν) :
    (numberText n).length ≤ 25 ∧ 0 ∉ numberText n := by
  cases finite : NumberFormat.finite n with
  | false =>
    rw [numberText, if_pos finite]
    decide
  | true =>
    obtain ⟨q, few, text, _⟩ := numberText_spec laws finite
    rw [text]
    exact ⟨laws.short q n finite few,
      fun mem => numberByte_nonzero (laws.byte q n finite 0 mem) rfl⟩

theorem printWord_spec (word : Bytes) (plain : 0 ∉ word) {size : Nat} (h : Holds text p)
    (small : text.length + word.length ≤ size) :
    Prints (Fails heap size) (Written text word) (printWord heap word p) := by
  rw [printWord]
  refine prints_bind (ensure_spec heap h (by omega)) fun p' held => ?_
  obtain ⟨held, room⟩ := held
  have front : Holds (text ++ []) p' := by rwa [List.append_nil]
  obtain ⟨p'', stored, written⟩ := store_written _ front plain (by rw [List.append_nil]; omega)
  rw [stored]
  exact written

theorem printNumberTo_spec (laws : NumberLaws ν) (n : ν) {size : Nat} (h : Holds text p)
    (small : text.length + (numberText n).length ≤ size) :
    Prints (Fails heap size) (Written text (numberText n)) (printNumberTo heap n p) := by
  obtain ⟨short, plain⟩ := numberText_bytes laws n
  rw [printNumberTo, if_neg (by omega)]
  refine prints_bind (ensure_spec heap h (by omega)) fun p' held => ?_
  obtain ⟨held, room⟩ := held
  have front : Holds (text ++ []) p' := by rwa [List.append_nil]
  obtain ⟨p'', stored, written⟩ := store_written _ front plain (by rw [List.append_nil]; omega)
  have fits : text.length + (numberText n ++ [0]).length ≤ p'.buffer.length := by
    rw [List.length_append, List.length_singleton]
    omega
  obtain ⟨again, stored', advanced⟩ := store_advance _ _ held fits (by omega)
  obtain rfl : p'' = again := Reading.done.inj (stored.symm.trans stored')
  rw [stored, done_bind]
  exact ⟨⟨numberText n, [], by simp, advanced.place, by simp⟩, written.shows, written.room,
    written.bound⟩

/-- `print_value` writes the text of the document behind what is there. -/
def PrintsValue (heap : Allocator) (j : Item ν) : Prop :=
  ∀ (text : Bytes) (p : Printbuffer) (size : Nat), Holds text p →
    text.length + (printed j).length ≤ size →
      Prints (Fails heap size) (Written text (printed j)) (printValue heap j p)

theorem printArrayLoop_spec {l : List (Item ν)} (below : ∀ c ∈ l, PrintsValue heap c) (size : Nat)
    (h : Holds text p) (small : text.length + ([44].intercalate (l.map printed)).length ≤ size) :
    Prints (Fails heap size) (Holds (text ++ [44].intercalate (l.map printed)))
      (printArrayLoop heap l p) := by
  induction l generalizing text p with
  | nil =>
    rw [printArrayLoop]
    simpa [Prints] using h
  | cons c rest ih =>
    obtain ⟨here, later⟩ := List.forall_mem_cons.mp below
    rw [List.map_cons, intercalate_cons] at small ⊢
    rw [List.length_append] at small
    rw [printArrayLoop]
    refine prints_bind (here text p size h (by omega)) fun p₁ written => ?_
    obtain ⟨p₂, updated, held, _⟩ := updateOffset_spec written
    rw [updated, done_bind]
    cases rest with
    | nil =>
      rw [if_pos List.isEmpty_nil, printArrayLoop, List.map_nil, if_pos rfl, List.append_nil]
      exact held
    | cons d rest =>
      rw [if_neg (by simp), List.map_cons, if_neg (by simp)]
      rw [List.map_cons, if_neg (by simp), List.length_cons] at small
      refine prints_bind (ensure_spec heap held (n := 2) (by rw [List.length_append]; omega))
        fun p₃ held => ?_
      obtain ⟨held, room⟩ := held
      obtain ⟨p₄, stored, advanced⟩ := store_advance [44] [0] held
        (by simp only [List.length_append, List.length_cons, List.length_nil] at room ⊢; omega)
        (by simp only [List.length_append, List.length_cons, List.length_nil] at room ⊢; omega)
      rw [show ([44, 0] : Bytes) = [44] ++ [0] from rfl, stored, done_bind]
      have next := ih later advanced (by
        simp only [List.length_append, List.length_cons, List.length_nil, List.map_cons] at small ⊢
        omega)
      simpa only [List.append_assoc, List.singleton_append, List.map_cons, List.length_singleton]
        using next

theorem printObjectLoop_spec {l : List (Item ν)} (below : ∀ c ∈ l, PrintsValue heap c)
    (clean : ∀ c ∈ l, ∀ name ∈ c.string, 0 ∉ name) (size : Nat)
    (h : Holds text p) (small : text.length + ([44].intercalate (l.map member)).length ≤ size) :
    Prints (Fails heap size) (Holds (text ++ [44].intercalate (l.map member)))
      (printObjectLoop heap l p) := by
  induction l generalizing text p with
  | nil =>
    rw [printObjectLoop]
    simpa [Prints] using h
  | cons c rest ih =>
    obtain ⟨here, later⟩ := List.forall_mem_cons.mp below
    obtain ⟨name, names⟩ := List.forall_mem_cons.mp clean
    rw [List.map_cons, intercalate_cons] at small ⊢
    have parts : (member c).length = (printStringPtr c.string).length + 1 + (printed c).length := by
      rw [member, List.length_append, List.length_cons]
      omega
    rw [List.length_append, parts] at small
    rw [printObjectLoop]
    refine prints_bind (printStringTo_spec name size h (by omega)) fun p₁ written => ?_
    obtain ⟨p₂, updated, held, _⟩ := updateOffset_spec written
    rw [updated, done_bind]
    refine prints_bind (ensure_spec heap held (n := 1) (by rw [List.length_append]; omega))
      fun p₃ held => ?_
    obtain ⟨held, room⟩ := held
    obtain ⟨p₄, stored, colon⟩ := store_advance [58] [] held
      (by simp only [List.length_append, List.length_cons, List.length_nil] at room ⊢; omega)
      (by simp only [List.length_append, List.length_cons, List.length_nil] at room ⊢; omega)
    rw [List.append_nil] at stored
    rw [stored, done_bind]
    refine prints_bind (here _ _ size colon (by
      simp only [List.length_append, List.length_cons, List.length_nil]
      omega)) fun p₅ written => ?_
    obtain ⟨p₆, updated, held, _⟩ := updateOffset_spec written
    rw [updated, done_bind]
    have whole : text ++ printStringPtr c.string ++ [58] ++ printed c = text ++ member c := by
      rw [member]
      simp
    rw [whole] at held
    cases rest with
    | nil =>
      dsimp only [List.isEmpty_nil]
      rw [List.map_nil, if_pos rfl, List.append_nil]
      rw [List.map_nil, if_pos rfl] at small
      refine prints_bind (ensure_spec heap held (n := 1) (by
        rw [List.length_append]
        simp only [List.length_nil] at small
        omega)) fun p₇ held => ?_
      obtain ⟨held, room⟩ := held
      obtain ⟨p₈, stored, ended⟩ := store_advance [] [0] held
        (by simp only [List.length_append, List.length_cons, List.length_nil] at room ⊢; omega)
        (by simp only [List.length_append, List.length_nil] at room ⊢; omega)
      rw [List.nil_append] at stored
      rw [if_pos rfl, stored, done_bind, printObjectLoop]
      rw [List.append_nil] at ended
      exact ended
    | cons d rest =>
      dsimp only [List.isEmpty_cons]
      rw [List.map_cons, if_neg (by simp)]
      rw [List.map_cons, if_neg (by simp), List.length_cons] at small
      refine prints_bind (ensure_spec heap held (n := 2) (by rw [List.length_append]; omega))
        fun p₇ held => ?_
      obtain ⟨held, room⟩ := held
      obtain ⟨p₈, stored, comma⟩ := store_advance [44] [0] held
        (by simp only [List.length_append, List.length_cons, List.length_nil] at room ⊢; omega)
        (by simp only [List.length_append, List.length_cons, List.length_nil] at room ⊢; omega)
      rw [if_neg (by simp), show ([44, 0] : Bytes) = [44] ++ [0] from rfl, stored, done_bind]
      have next := ih later names comma (by
        simp only [List.length_append, List.length_cons, List.length_nil, List.map_cons] at small ⊢
        omega)
      simpa only [List.append_assoc, List.singleton_append, List.map_cons, List.length_singleton,
        Bool.false_eq_true, if_false] using next

/-- By induction over the document. -/
theorem printsValue (heap : Allocator) (laws : NumberLaws ν) (j : Item ν) :
    (∀ x ∈ j.items, clean x) → PrintsValue heap j := by
  induction j using induct with
  | step j ih =>
    intro plain text p size h small
    have below : ∀ c ∈ j.child, PrintsValue heap c := fun c hc =>
      ih c hc fun x hx => plain x (mem_items_of_child hc hx)
    have names : ∀ c ∈ j.child, ∀ name ∈ c.string, 0 ∉ name := fun c hc =>
      (plain c (mem_items_of_child hc (self_mem_items c))).1
    have value := (plain j (self_mem_items j)).2
    cases j with
    | mk a string kind child =>
      simp only [child_mk] at below names
      cases kind with
      | cjsonNull => exact printWord_spec nullWord (by decide) h small
      | cjsonFalse => exact printWord_spec falseWord (by decide) h small
      | cjsonTrue => exact printWord_spec trueWord (by decide) h small
      | cjsonNumber n => exact printNumberTo_spec laws n h small
      | cjsonString s =>
        exact printStringTo_spec (s := some s) (by rintro _ ⟨⟩; exact value s rfl) size h small
      | cjsonArray =>
        have shown : printed (.mk a string .cjsonArray child) =
            [91] ++ [44].intercalate (child.map printed) ++ [93] := by
          rw [printed, cjsonPrintUnformatted, printElements_eq]
          rfl
        rw [shown] at small ⊢
        simp only [List.length_append, List.length_singleton] at small
        rw [printValue]
        refine prints_bind (ensure_spec heap h (n := 1) (by omega)) fun p₁ held => ?_
        obtain ⟨held, room⟩ := held
        obtain ⟨p₂, stored, opened⟩ := store_advance [91] [] held
          (by simp only [List.length_append, List.length_cons, List.length_nil]; omega)
          (by simp only [List.length_cons, List.length_nil]; omega)
        rw [List.append_nil] at stored
        rw [stored, done_bind]
        refine prints_bind (printArrayLoop_spec below size opened (by
          rw [List.length_append, List.length_singleton]
          omega)) fun p₃ held => ?_
        refine prints_bind (ensure_spec heap held (n := 2) (by
          simp only [List.length_append, List.length_singleton]
          omega)) fun p₄ held => ?_
        obtain ⟨held, room⟩ := held
        rw [List.append_assoc] at held room
        obtain ⟨p₅, stored, written⟩ := store_written [93] held (by decide) room
        rw [show ([93, 0] : Bytes) = [93] ++ [0] from rfl, stored]
        exact written
      | cjsonObject =>
        have shown : printed (.mk a string .cjsonObject child) =
            [123] ++ [44].intercalate (child.map member) ++ [125] := by
          rw [printed, cjsonPrintUnformatted, printMembers_eq]
          rfl
        rw [shown] at small ⊢
        simp only [List.length_append, List.length_singleton] at small
        rw [printValue]
        refine prints_bind (ensure_spec heap h (n := 2) (by omega)) fun p₁ held => ?_
        obtain ⟨held, room⟩ := held
        obtain ⟨p₂, stored, opened⟩ := store_advance [123] [] held
          (by simp only [List.length_append, List.length_cons, List.length_nil]; omega)
          (by simp only [List.length_cons, List.length_nil]; omega)
        rw [List.append_nil] at stored
        rw [stored, done_bind]
        refine prints_bind (printObjectLoop_spec below names size opened (by
          rw [List.length_append, List.length_singleton]
          omega)) fun p₃ held => ?_
        refine prints_bind (ensure_spec heap held (n := 2) (by
          simp only [List.length_append, List.length_singleton]
          omega)) fun p₄ held => ?_
        obtain ⟨held, room⟩ := held
        rw [List.append_assoc] at held room
        obtain ⟨p₅, stored, written⟩ := store_written [125] held (by decide) room
        rw [show ([125, 0] : Bytes) = [125] ++ [0] from rfl, stored]
        exact written

theorem holds_start (fill : Nat → UInt8) :
    Holds [] ⟨(List.range 256).map fill, 0, 1⟩ where
  place := rfl
  shows := List.nil_prefix
  room := by simp
  bound := by simp [intMax]

/-- How `print` ends. -/
theorem print_cases (heap : Allocator) (laws : NumberLaws ν) {D : Item ν}
    (plain : ∀ x ∈ D.items, clean x) :
    (print heap D = .refused ∧ Fails heap (printed D).length) ∨
      (print heap D = .done (printed D ++ [0]) ∧ (printed D).length + 2 ≤ intMax) := by
  rw [print]
  cases first : heap 0 with
  | none => exact Or.inl ⟨rfl, fun always => absurd first (always 0)⟩
  | some fill =>
    have value := printsValue heap laws D plain [] _ (printed D).length (holds_start fill)
      (by simp)
    dsimp only
    cases done : printValue heap D ⟨(List.range 256).map fill, 0, 1⟩ with
    | outside => exact absurd value (by rw [done]; exact id)
    | starved => exact absurd value (by rw [done]; exact id)
    | refused =>
      rw [done] at value
      exact Or.inl ⟨rfl, value⟩
    | done p =>
      rw [done] at value
      obtain ⟨p', updated, held, same⟩ := updateOffset_spec value
      have room : (printed D).length + 2 ≤ p.buffer.length := value.room
      rw [done_bind, updated, done_bind]
      cases last : heap p'.requests with
      | none => exact Or.inl ⟨rfl, fun always => absurd last (always _)⟩
      | some fill =>
        have text : p'.buffer.take (p'.offset + 1) = printed D ++ [0] := by
          obtain ⟨rest, shows⟩ := value.shows
          rw [same, ← shows, held.place]
          exact List.take_left' (by simp)
        have whole : p'.offset + 1 - p'.buffer.length = 0 := by
          rw [held.place, same, List.nil_append]
          omega
        dsimp only
        rw [text, whole, List.range_zero, List.map_nil, List.append_nil]
        exact Or.inr ⟨rfl, room.trans value.bound⟩

/-- `print` writes only to its own blocks. What it hands out is the text of the document with
its terminator, and while the heap gives what is asked for it hands out every text that is
short enough. -/
theorem print_printed (heap : Allocator) (laws : NumberLaws ν) {D : Item ν}
    (plain : ∀ x ∈ D.items, clean x) :
    (print heap D = .refused ∨ print heap D = .done (printed D ++ [0])) ∧
      ((∀ i, heap i ≠ none) →
        (print heap D = .done (printed D ++ [0]) ↔ (printed D).length + 2 ≤ intMax)) := by
  rcases print_cases heap laws plain with ⟨refused, fails⟩ | ⟨done, short⟩
  · refine ⟨Or.inl refused, fun always => ⟨fun done => ?_, fun short => ?_⟩⟩
    · rw [refused] at done
      cases done
    · have long : intMax < (printed D).length + 2 := fails always
      omega
  · exact ⟨Or.inr done, fun _ => ⟨fun _ => short, fun _ => done⟩⟩

theorem print_printed_digits : print (fun _ => some fun _ => 0xA5) digitsDocument =
    .done (printed digitsDocument ++ [0]) :=
  ((print_printed (fun _ => some fun _ => 0xA5) digit_laws digitsDocument_printable.clean).2
    fun _ => Option.some_ne_none _).mpr (by decide +kernel)

/-- What was read is read again from its print, and is the same document at other addresses. -/
theorem printed_again (heap : Allocator) (laws : NumberLaws ν) {value block : Bytes}
    {nextAddr next : Nat} {D : Item ν}
    (read : cjsonParse nextAddr value = .done (D, next))
    (finite : ∀ x ∈ D.items, ∀ n, x.kind = .cjsonNumber n → NumberFormat.finite n = true)
    (written : print heap D = .done block) (nextAddr' : Nat) (behind : Bytes) :
    cjsonParse nextAddr' (block ++ behind) = .done (numbered nextAddr' D) := by
  have sound := sound_cjsonParse (ν := ν) nextAddr value
  rw [read] at sound
  obtain ⟨_, accepted⟩ := sound
  have printable : Printable D := ⟨accepted.made, accepted.clean, finite⟩
  rcases print_cases heap laws accepted.clean with ⟨refused, _⟩ | ⟨done, _⟩
  · rw [refused] at written
    cases written
  · obtain rfl := Reading.done.inj (done.symm.trans written)
    rw [List.append_assoc, List.singleton_append, cjsonParse_of_text laws printable accepted.root
      nextAddr' (bufferOf_printed laws printable behind) (by rintro _ ⟨⟩; rfl),
      if_pos accepted.shallow]

theorem printed_again_digits :
    cjsonParse 20 ((ofChars ['[', '1', ',', '2', ']'] ++ [0]) ++ [7]) =
      .done (numbered 20 (.mk 3 none .cjsonArray
        [.mk 4 none (.cjsonNumber (1 : Fin 10)) [], .mk 5 none (.cjsonNumber 2) []])) :=
  printed_again (fun _ => some fun _ => 0xA5) digit_laws
    (show cjsonParse 3 (ofChars [' ', '[', '1', ' ', ',', '2', ']', 'x']) = .done (_, 6) from rfl)
    (fun _ _ _ _ => rfl) (by decide +kernel) 20 [7]

end Values

end JsonPrinting
