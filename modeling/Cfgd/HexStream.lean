import Cfgd.CText

/-!
# Escapes on the command line

The argument is read up to each `\x`, and on from four characters behind it, whether these
are there or not. The text that is meant by an argument is compared with the one that is
written, and with how far the cursor comes.
-/

namespace HexStream

open CText

section Source

def hexDigits : Nat → Bytes → Nat
  | n, [] => n
  | n, c :: rest => match hexValue c with
    | some d => hexDigits (16 * n + d) rest
    | none => n

/-- `strtol` in base 16 for texts of at most two characters, which have no room for `0x` and
a digit. -/
def strtol16 (s : Bytes) : Int :=
  match s.dropWhile isspace with
  | 45 :: digits => -hexDigits 0 digits
  | 43 :: digits => hexDigits 0 digits
  | digits => hexDigits 0 digits

/-- `\x` -/
def marker : Bytes := [92, 120]

/-- The string at a place of the memory; there is none where the memory ends before a NUL. -/
def stringAt (mem : Bytes) (cursor : Nat) : Option Bytes :=
  if 0 ∈ mem.drop cursor then some ((mem.drop cursor).takeWhile (· ≠ 0)) else none

/-- The cursor, `offset`, and the bytes of the output so far. -/
structure HexState where
  cursor : Nat
  offset : Int
  output : Bytes
  deriving DecidableEq

inductive Turn where
  | next (st : HexState)
  | leave (text : Bytes)
  deriving DecidableEq

/-- `cbin` for the text behind a marker. -/
def escapeByte (after : Bytes) : UInt8 :=
  (BitVec.ofInt 8 (strtol16 (after.take 2))).toNat.toUInt8

/-- One turn of the loop; the rest of the text is left when there is no escape in it. -/
def hexTurn (mem : Bytes) (st : HexState) : Option Turn := do
  let text ← stringAt mem st.cursor
  match strstr marker text with
  | none => return .leave text
  | some (before, after) =>
    let offset ← checked (st.offset + before.length)
    let offset ← checked (offset + 1)
    return .next ⟨st.cursor + before.length + 4, offset, st.output ++ before ++ [escapeByte after]⟩

/-- The result, when the loop ends; `undefined` where it reads behind the memory or the count
leaves the range of `int`. -/
inductive Outcome where
  | done (output : Bytes) (offset : Int)
  | undefined
  | unfinished
  deriving DecidableEq

def hexLoop (mem : Bytes) : Nat → HexState → Outcome
  | 0, _ => .unfinished
  | fuel + 1, st => match hexTurn mem st with
    | none => .undefined
    | some (.next st') => hexLoop mem fuel st'
    | some (.leave text) => match checked (st.offset + text.length) with
      | none => .undefined
      | some offset => .done (st.output ++ text) offset

/-- The turns of the loop on the memory from `argv` on. -/
def formatHexStream (mem : Bytes) (fuel : Nat) : Outcome := hexLoop mem fuel ⟨0, 0, []⟩

/-- The states in which the loop looks for the next escape. -/
inductive Reached (mem : Bytes) : HexState → Prop where
  | start : Reached mem ⟨0, 0, []⟩
  | turn {st st' : HexState} (here : Reached mem st) (next : hexTurn mem st = some (.next st')) :
      Reached mem st'

end Source

section Meaning

/-- The text with `byte` in place of each escape. -/
def replaced (byte : UInt8 → UInt8 → UInt8) : Bytes → Bytes
  | [] => []
  | 92 :: 120 :: a :: b :: rest => byte a b :: replaced byte rest
  | c :: rest => c :: replaced byte rest

/-- The byte that two digits mean. -/
def hexByte (a b : UInt8) : UInt8 :=
  (16 * (hexValue a).getD 0 + (hexValue b).getD 0).toUInt8

/-- Every escape has two characters behind it. -/
def complete : Bytes → Bool
  | [] => true
  | 92 :: 120 :: _ :: _ :: rest => complete rest
  | 92 :: 120 :: _ => false
  | _ :: rest => complete rest

/-- Two hexadecimal digits follow wherever `\x` stands. -/
def WellEscaped (s : Bytes) : Prop :=
  ∀ before after, s = before ++ 92 :: 120 :: after →
    ∃ a b rest, after = a :: b :: rest ∧ (hexValue a).isSome ∧ (hexValue b).isSome

/-- The loop ends, the cursor stays in the text, and the text that is meant is written,
whatever stands in memory behind the argument. -/
def HexLaw (s : Bytes) : Prop := ∀ behind,
  (∃ enough output offset, ∀ fuel, enough ≤ fuel →
    formatHexStream (s ++ 0 :: behind) fuel = .done output offset) ∧
  (∀ st, Reached (s ++ 0 :: behind) st → st.cursor ≤ s.length) ∧
  (WellEscaped s → ∃ enough, ∀ fuel, enough ≤ fuel →
    formatHexStream (s ++ 0 :: behind) fuel =
      .done (replaced hexByte s) (replaced hexByte s).length)

end Meaning

section Texts
variable {byte : UInt8 → UInt8 → UInt8} {c : UInt8} {t rest before after : Bytes}

theorem marker_isPrefixOf : marker.isPrefixOf (c :: rest) = true ↔
    ∃ after, c :: rest = 92 :: 120 :: after := by
  rw [List.isPrefixOf_iff_prefix]
  constructor
  · rintro ⟨after, same⟩
    exact ⟨after, same.symm⟩
  · rintro ⟨after, same⟩
    exact ⟨after, same.symm⟩

/-- A character that starts no escape. -/
theorem plain_char (plain : ¬ marker.isPrefixOf (c :: rest) = true) :
    complete (c :: rest) = complete rest ∧ replaced byte (c :: rest) = c :: replaced byte rest := by
  have other : ∀ after, c :: rest ≠ 92 :: 120 :: after := fun after same =>
    plain (marker_isPrefixOf.mpr ⟨after, same⟩)
  constructor
  · rw [complete.eq_def]
    split
    · contradiction
    · rename_i same
      exact absurd same (other _)
    · rename_i same
      exact absurd same (other _)
    · rename_i same
      rw [(List.cons.inj same).2]
  · rw [replaced.eq_def]
    split
    · contradiction
    · rename_i same
      exact absurd same (other _)
    · rename_i same
      obtain ⟨rfl, rfl⟩ := List.cons.inj same
      rfl

theorem strstr_none (h : strstr marker t = none) :
    complete t = true ∧ replaced byte t = t := by
  induction t with
  | nil => exact ⟨rfl, rfl⟩
  | cons c rest ih =>
    rw [strstr] at h
    split at h
    · cases h
    · rename_i plain
      obtain ⟨whole, same⟩ := ih (Option.map_eq_none_iff.mp h)
      obtain ⟨first, copied⟩ := @plain_char byte c rest plain
      exact ⟨first.trans whole, by rw [copied, same]⟩

/-- The first escape, and what the text is without the characters before it. -/
theorem strstr_some (h : strstr marker t = some (before, after)) :
    t = before ++ 92 :: 120 :: after ∧ complete t = complete (92 :: 120 :: after) ∧
      replaced byte t = before ++ replaced byte (92 :: 120 :: after) := by
  induction t generalizing before with
  | nil => cases h
  | cons c rest ih =>
    rw [strstr] at h
    split at h
    · rename_i escape
      obtain ⟨text, same⟩ := marker_isPrefixOf.mp escape
      obtain ⟨rfl, rfl⟩ := Prod.mk.inj (Option.some.inj h)
      rw [same]
      exact ⟨rfl, rfl, rfl⟩
    · rename_i plain
      obtain ⟨⟨before', after'⟩, found, same⟩ := Option.map_eq_some_iff.mp h
      obtain ⟨rfl, rfl⟩ := Prod.mk.inj same
      obtain ⟨split, whole, text⟩ := ih found
      obtain ⟨first, copied⟩ := @plain_char byte c rest plain
      refine ⟨by rw [split]; rfl, first.trans whole, ?_⟩
      rw [copied, text]
      rfl

/-- An escape that is not cut short has two characters and what follows them. -/
theorem complete_escape (h : complete (92 :: 120 :: after) = true) :
    ∃ a b rest, after = a :: b :: rest ∧ complete rest = true := by
  match after with
  | [] => cases h
  | [_] => cases h
  | a :: b :: rest => exact ⟨a, b, rest, rfl, h⟩

theorem length_replaced (byte byte' : UInt8 → UInt8 → UInt8) (t : Bytes) :
    (replaced byte t).length = (replaced byte' t).length := by
  induction t using replaced.induct with
  | case1 => rfl
  | case2 a b rest ih => rw [replaced, replaced, List.length_cons, List.length_cons, ih]
  | case3 c rest other ih =>
    rw [replaced, replaced, List.length_cons, List.length_cons, ih]
    · exact other
    · exact other

end Texts

section Turns
variable {s t before after behind : Bytes} {st st' : HexState}

/-- The cursor is where `t` is left of the text, and the count is that of the output. -/
structure Stands (s : Bytes) (st : HexState) (t : Bytes) : Prop where
  front : ∃ u, s = u ++ t ∧ u.length = st.cursor
  count : st.offset = st.output.length

theorem stands_start (s : Bytes) : Stands s ⟨0, 0, []⟩ s := ⟨⟨[], rfl, rfl⟩, rfl⟩

theorem Stands.string (h : Stands s st t) (string : 0 ∉ s) : 0 ∉ t := by
  obtain ⟨⟨u, rfl, _⟩, _⟩ := h
  exact fun mem => string (List.mem_append_right _ mem)

theorem Stands.stringAt (h : Stands s st t) (string : 0 ∉ s) (behind : Bytes) :
    stringAt (s ++ 0 :: behind) st.cursor = some t := by
  have plain := h.string string
  obtain ⟨⟨u, rfl, length⟩, _⟩ := h
  have left : (u ++ t ++ 0 :: behind).drop st.cursor = t ++ 0 :: behind := by
    rw [List.append_assoc, ← length, List.drop_left]
  have copied : ∀ c ∈ t, decide (c ≠ 0) = true := fun c mem =>
    decide_eq_true fun zero => plain (zero ▸ mem)
  rw [HexStream.stringAt, left, if_pos (by simp), List.takeWhile_append_of_pos copied]
  simp

theorem hexTurn_leave (h : Stands s st t) (string : 0 ∉ s) (none : strstr marker t = none) :
    hexTurn (s ++ 0 :: behind) st = some (.leave t) := by
  rw [hexTurn, h.stringAt string behind, Option.bind_eq_bind, Option.bind_some, none]
  rfl

/-- What is found of the text, and where it leads while the count fits an `int`. -/
theorem hexTurn_escape (h : Stands s st t) (string : 0 ∉ s)
    (found : strstr marker t = some (before, after)) :
    hexTurn (s ++ 0 :: behind) st =
      if (st.output ++ before ++ [escapeByte after]).length < 2 ^ 31 then
        some (.next ⟨st.cursor + before.length + 4,
          ((st.output ++ before ++ [escapeByte after]).length : Nat),
          st.output ++ before ++ [escapeByte after]⟩)
      else none := by
  have first : (st.offset + before.length : Int) = ((st.output ++ before).length : Nat) := by
    rw [h.count, List.length_append, Int.natCast_add]
  have size : (st.output ++ before ++ [escapeByte after]).length =
      (st.output ++ before).length + 1 := List.length_append
  have second : (((st.output ++ before).length : Nat) : Int) + 1 =
      ((st.output ++ before ++ [escapeByte after]).length : Nat) := by
    rw [size]
    rfl
  rw [hexTurn, h.stringAt string behind, Option.bind_eq_bind, Option.bind_some, found]
  dsimp only
  rw [first]
  by_cases fits : (st.output ++ before ++ [escapeByte after]).length < 2 ^ 31
  · rw [if_pos fits, checked_eq (by omega) (by omega), Option.bind_eq_bind, Option.bind_some,
      second, checked_eq (by omega) (by omega)]
    rfl
  · rw [if_neg fits]
    cases within : checked ((st.output ++ before).length : Nat) with
    | none => rfl
    | some n =>
      obtain ⟨rfl, _⟩ := checked_some within
      rw [Option.bind_eq_bind, Option.bind_some, second, checked, if_neg (by omega)]
      rfl

/-- Behind an escape that is not cut short. -/
theorem Stands.next {a b : UInt8} {rest : Bytes} (h : Stands s st t)
    (split : t = before ++ 92 :: 120 :: a :: b :: rest) : Stands s
      ⟨st.cursor + before.length + 4,
        ((st.output ++ before ++ [escapeByte (a :: b :: rest)]).length : Nat),
        st.output ++ before ++ [escapeByte (a :: b :: rest)]⟩ rest := by
  obtain ⟨⟨u, rfl, length⟩, _⟩ := h
  refine ⟨⟨u ++ before ++ [92, 120, a, b], ?_, ?_⟩, rfl⟩
  · rw [split]
    simp
  · rw [List.length_append, List.length_append, length]
    rfl

end Turns

section Runs
variable {s t : Bytes} {st : HexState}

/-- What is written for a text, whatever stands behind its markers. -/
abbrev written (t : Bytes) : Bytes := replaced (fun a b => escapeByte [a, b]) t

/-- What is written for a text up to its first escape and for the rest. -/
theorem written_escape (output : Bytes) {before rest : Bytes} {a b : UInt8}
    (text : written t = before ++ written (92 :: 120 :: a :: b :: rest)) : output ++ written t =
      output ++ before ++ [escapeByte (a :: b :: rest)] ++ written rest := by
  have own : written (92 :: 120 :: a :: b :: rest) =
      [escapeByte (a :: b :: rest)] ++ written rest := by
    rw [written, replaced]
    rfl
  rw [text, own, List.append_assoc, List.append_assoc]

/-- The loop writes a text in which no escape is cut short. -/
theorem hexLoop_done (string : 0 ∉ s) (behind : Bytes) {fuel : Nat} (enough : t.length < fuel)
    (h : Stands s st t) (whole : complete t = true)
    (fits : (st.output ++ written t).length < 2 ^ 31) :
    hexLoop (s ++ 0 :: behind) fuel st =
      .done (st.output ++ written t) (st.output ++ written t).length := by
  induction fuel generalizing st t with
  | zero => exact absurd enough (Nat.not_lt_zero _)
  | succ fuel ih =>
    cases found : strstr marker t with
    | none =>
      have same : written t = t := (strstr_none found).2
      rw [same] at fits ⊢
      rw [List.length_append] at fits
      rw [hexLoop, hexTurn_leave h string found]
      dsimp only
      rw [h.count, checked_eq (by omega) (by omega), List.length_append, Int.natCast_add]
    | some parts =>
      obtain ⟨before, after⟩ := parts
      obtain ⟨split, same, text⟩ := @strstr_some (fun a b => escapeByte [a, b]) _ _ _ found
      rw [same] at whole
      obtain ⟨a, b, rest, rfl, later⟩ := complete_escape whole
      have output := written_escape st.output text
      have shorter : rest.length < fuel := by
        have length := congrArg List.length split
        simp only [List.length_append, List.length_cons] at length
        omega
      rw [output] at fits ⊢
      have room : (st.output ++ before ++ [escapeByte (a :: b :: rest)]).length < 2 ^ 31 := by
        rw [List.length_append] at fits
        omega
      rw [hexLoop, hexTurn_escape h string found, if_pos room]
      exact ih shorter (h.next split) later fits

/-- Where no escape is cut short the cursor stays in the text. -/
theorem stands_of_reached (string : 0 ∉ s) {behind : Bytes} (whole : complete s = true)
    (reached : Reached (s ++ 0 :: behind) st) :
    ∃ t, Stands s st t ∧ complete t = true := by
  induction reached with
  | start => exact ⟨s, stands_start s, whole⟩
  | @turn st st' here next ih =>
    obtain ⟨t, h, whole⟩ := ih
    cases found : strstr marker t with
    | none =>
      rw [hexTurn_leave h string found] at next
      cases next
    | some parts =>
      obtain ⟨before, after⟩ := parts
      obtain ⟨split, same, _⟩ := @strstr_some (fun a b => escapeByte [a, b]) _ _ _ found
      rw [same] at whole
      obtain ⟨a, b, rest, rfl, later⟩ := complete_escape whole
      rw [hexTurn_escape h string found] at next
      split at next
      · obtain rfl := Turn.next.inj (Option.some.inj next)
        exact ⟨rest, h.next split, later⟩
      · cases next

/-- A loop that ends without leaving the text has met no escape that is cut short. -/
theorem complete_of_done (string : 0 ∉ s) {behind output : Bytes} {offset : Int} {fuel : Nat}
    (inside : ∀ st, Reached (s ++ 0 :: behind) st → st.cursor ≤ s.length) (h : Stands s st t)
    (reached : Reached (s ++ 0 :: behind) st)
    (done : hexLoop (s ++ 0 :: behind) fuel st = .done output offset) :
    complete t = true ∧ (st.output ++ written t).length < 2 ^ 31 := by
  induction fuel generalizing st t with
  | zero => cases done
  | succ fuel ih =>
    rw [hexLoop] at done
    cases found : strstr marker t with
    | none =>
      obtain ⟨whole, same⟩ := @strstr_none (fun a b => escapeByte [a, b]) _ found
      rw [hexTurn_leave h string found] at done
      dsimp only at done
      cases within : checked (st.offset + t.length) with
      | none =>
        rw [within] at done
        cases done
      | some n =>
        have bound := (checked_some within).2
        obtain ⟨rfl, _⟩ := checked_some within
        rw [h.count] at bound
        refine ⟨whole, ?_⟩
        rw [written, same, List.length_append]
        omega
    | some parts =>
      obtain ⟨before, after⟩ := parts
      obtain ⟨split, same, text⟩ := @strstr_some (fun a b => escapeByte [a, b]) _ _ _ found
      have turn := @hexTurn_escape s t before after behind st h string found
      rw [turn] at done
      split at done
      · rename_i undefined
        cases done
      · rename_i st' next
        rw [← turn] at next
        have later := Reached.turn reached next
        have cursor := inside _ later
        rw [turn] at next
        split at next
        · obtain rfl := Turn.next.inj (Option.some.inj next)
          have stands := h
          obtain ⟨⟨u, front, length⟩, _⟩ := h
          -- the cursor is four characters behind the marker, and still inside
          have two : ∃ a b rest, after = a :: b :: rest := by
            have whole := congrArg List.length front
            rw [split] at whole
            simp only [List.length_append, List.length_cons] at whole
            dsimp only at cursor
            rcases after with _ | ⟨a, _ | ⟨b, rest⟩⟩
            · simp at whole
              omega
            · simp at whole
              omega
            · exact ⟨a, b, rest, rfl⟩
          obtain ⟨a, b, rest, rfl⟩ := two
          obtain ⟨whole, fits⟩ := ih (stands.next split) later done
          refine ⟨same.trans whole, ?_⟩
          rw [written_escape st.output text]
          exact fits
        · cases next
      · rename_i next
        split at next
        · cases next
        · cases next

end Runs

section Law
variable {s t : Bytes} {a b : UInt8}

theorem hexValue_spec {n : Nat} (h : hexValue a = some n) :
    n < 16 ∧ isspace a = false ∧ a ≠ 45 ∧ a ≠ 43 := by
  obtain ⟨small, range⟩ := hexValue_range h
  refine ⟨small, ?_, ?_, ?_⟩
  · have notBlank : a ≠ 32 ∧ ¬ a ≤ 13 := by
      rw [UInt8.le_iff_toNat_le]
      refine ⟨?_, Nat.not_le.mpr (Nat.lt_of_lt_of_le (by decide : 13 < 48) (by omega))⟩
      rintro rfl
      exact absurd range (by decide)
    simp [isspace, notBlank]
  · rintro rfl
    exact absurd range (by decide)
  · rintro rfl
    exact absurd range (by decide)

/-- Two digits are read as the byte that they mean. -/
theorem escapeByte_digits (ha : (hexValue a).isSome) (hb : (hexValue b).isSome) :
    escapeByte [a, b] = hexByte a b := by
  obtain ⟨x, hx⟩ := Option.isSome_iff_exists.mp ha
  obtain ⟨y, hy⟩ := Option.isSome_iff_exists.mp hb
  obtain ⟨small, blank, minus, plus⟩ := hexValue_spec hx
  have small' := (hexValue_spec hy).1
  have number : strtol16 [a, b] = (16 * x + y : Nat) := by
    rw [strtol16, List.dropWhile_cons_of_neg (by rw [blank]; nofun)]
    split
    · rename_i same
      exact absurd (List.cons.inj same).1 minus
    · rename_i same
      exact absurd (List.cons.inj same).1 plus
    · rw [hexDigits, hx]
      dsimp only
      rw [hexDigits, hy]
      dsimp only
      rw [hexDigits, Nat.mul_zero, Nat.zero_add]
  rw [escapeByte, hexByte, hx, hy, List.take_of_length_le (by simp), number, BitVec.ofInt_natCast,
    BitVec.toNat_ofNat, Nat.mod_eq_of_lt (by omega)]
  rfl

theorem WellEscaped.tail {c : UInt8} (h : WellEscaped (c :: t)) : WellEscaped t := by
  intro before after split
  exact h (c :: before) after (by rw [split]; rfl)

/-- What is written is what is meant, where digits follow every marker. -/
theorem written_eq (h : WellEscaped t) : written t = replaced hexByte t := by
  induction t using replaced.induct with
  | case1 => rfl
  | case2 a b rest ih =>
    obtain ⟨a', b', rest', same, ha, hb⟩ := h [] (a :: b :: rest) rfl
    obtain ⟨first, same⟩ := List.cons.inj same
    obtain ⟨second, _⟩ := List.cons.inj same
    rw [← first] at ha
    rw [← second] at hb
    rw [written, replaced, replaced, escapeByte_digits ha hb]
    exact congrArg _ (ih h.tail.tail.tail.tail)
  | case3 c rest other ih =>
    rw [written, replaced, replaced]
    · exact congrArg _ (ih h.tail)
    · exact other
    · exact other

/-- The escapes of an argument are decoded as they should be if and only if none is cut short
and the number of the bytes is an `int`. -/
theorem hexLaw_iff (string : 0 ∉ s) :
    HexLaw s ↔ complete s = true ∧ (replaced hexByte s).length < 2 ^ 31 := by
  have size : (written s).length = (replaced hexByte s).length := length_replaced _ _ s
  constructor
  · intro law
    obtain ⟨⟨enough, output, offset, done⟩, inside, _⟩ := law []
    obtain ⟨whole, fits⟩ := complete_of_done string inside (stands_start s) .start
      (done enough (Nat.le_refl _))
    exact ⟨whole, size ▸ fits⟩
  · rintro ⟨whole, fits⟩ behind
    have ends : ∀ fuel, s.length + 1 ≤ fuel →
        formatHexStream (s ++ 0 :: behind) fuel = .done (written s) (written s).length :=
      fun fuel enough => hexLoop_done string behind enough (stands_start s) whole (size ▸ fits)
    refine ⟨⟨s.length + 1, _, _, ends⟩, ?_, fun escaped => ⟨s.length + 1, ?_⟩⟩
    · intro st reached
      obtain ⟨t, ⟨⟨u, split, length⟩, _⟩, _⟩ := stands_of_reached string whole reached
      rw [split, ← length, List.length_append]
      omega
    · rw [← written_eq escaped]
      exact ends

/-- `a\x00\x4fb` -/
theorem hexLaw_iff_escapes : HexLaw [97, 92, 120, 48, 48, 92, 120, 52, 102, 98] :=
  (hexLaw_iff (by decide)).mpr ⟨by decide, by decide⟩

/-- The argument `\x`: the cursor comes two characters behind the end. -/
theorem not_always_hexLaw : ¬ ∀ s : Bytes, 0 ∉ s → HexLaw s := by
  intro claim
  obtain ⟨_, inside, _⟩ := claim marker (by decide) []
  have turn : hexTurn (marker ++ 0 :: []) ⟨0, 0, []⟩ = some (.next ⟨4, 1, [0]⟩) := by decide +kernel
  exact absurd (inside _ (.turn .start turn)) (by decide)

end Law

end HexStream
