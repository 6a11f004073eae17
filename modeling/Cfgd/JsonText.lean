import Mathlib
import Cfgd.CJson

/-!
# Reading JSON texts

The parser of `cJSON.c`, over the bytes of a text and its terminator. A read behind the
terminator and a write behind a block that was allocated are results of their own.
-/

namespace JsonText

open CText CJson

/-- What a function of the parser comes to. -/
inductive Reading (α : Type) where
  /-- It touches memory that is not its own. -/
  | outside
  /-- The turns that the model gives it are used up. -/
  | starved
  | refused
  | done (result : α)
  deriving DecidableEq

namespace Reading
variable {α β : Type}

def bind (reading : Reading α) (next : α → Reading β) : Reading β :=
  match reading with
  | outside => outside
  | starved => starved
  | refused => refused
  | done result => next result

instance : Monad Reading where
  pure := done
  bind := Reading.bind

@[simp] theorem done_bind (a : α) (next : α → Reading β) : (done a >>= next) = next a := rfl
@[simp] theorem refused_bind (next : α → Reading β) : ((refused : Reading α) >>= next) = refused :=
  rfl

end Reading

open Reading

/-- What the parser and the printer of numbers use of the C library: `d * 0` is zero, the
conversions `%1.<n>g`, `strtod` with the number of bytes that it takes, and `!=`. -/
class NumberFormat (ν : Type) where
  finite : ν → Bool
  percentG : Nat → ν → Bytes
  strtod : Bytes → ν × Nat
  differ : ν → ν → Bool
  within : ∀ text, (strtod text).2 ≤ text.length

/-- The digit that the byte `c` is. -/
def digitOf (c : UInt8) : Option (Fin 10) :=
  if h : 48 ≤ c.toNat ∧ c.toNat < 58 then some ⟨c.toNat - 48, by omega⟩ else none

/-- The numbers of one digit, for runs on concrete documents. -/
instance : NumberFormat (Fin 10) where
  finite _ := true
  percentG _ n := [(48 + n.val).toUInt8]
  strtod text := ((text.head?.bind digitOf).map fun n => (n, 1)).getD (0, 0)
  differ a b := a ≠ b
  within text := by
    cases text with
    | nil => exact Nat.le_refl 0
    | cons c text =>
      rw [List.head?_cons, Option.bind_some]
      cases digitOf c with
      | none => exact Nat.zero_le _
      | some n => exact Nat.succ_le_succ (Nat.zero_le _)

/-- `CJSON_NESTING_LIMIT` -/
def cjsonNestingLimit : Nat := 1000

section Strings
variable (content : Bytes)

/-- A read through a pointer. -/
def byteAt (i : Nat) : Reading UInt8 :=
  match content[i]? with
  | none => .outside
  | some c => .done c

/-- `buffer_skip_whitespace`; behind the terminator it steps back to it. -/
def bufferSkipWhitespace (offset : Nat) : Nat :=
  let offset := offset + ((content.drop offset).takeWhile (· ≤ 32)).length
  if offset = content.length then offset - 1 else offset

def bom : Bytes := [0xEF, 0xBB, 0xBF]

/-- `skip_utf8_bom`, at the start of the buffer. -/
def skipUtf8Bom : Nat := if 4 < content.length ∧ content.take 3 = bom then 3 else 0

/-- The loop of `parse_hex4` with `left` digits to come. -/
def parseHex (i : Nat) : (left : Nat) → (h : Nat) → Reading Nat
  | 0, h => .done h
  | left + 1, h => do
    match hexValue (← byteAt content i) with
    | none => .done 0
    | some digit => parseHex (i + 1) left (if left = 0 then h + digit else (h + digit) <<< 4)

/-- `parse_hex4`; 0 also stands for a byte that is no digit. -/
def parseHex4 (i : Nat) : Reading Nat := parseHex content i 4 0

/-- The last `left` bytes of a UTF-8 sequence, and what is left of the code point. -/
def continuation : (left : Nat) → (codepoint : Nat) → Bytes → Nat × Bytes
  | 0, codepoint, output => (codepoint, output)
  | left + 1, codepoint, output =>
    continuation left (codepoint >>> 6) (((codepoint ||| 0x80) &&& 0xBF).toUInt8 :: output)

/-- The second half of `utf16_literal_to_utf8`. -/
def encodeUtf8 (codepoint : Nat) : Reading Bytes :=
  let encode (left mark : Nat) : Bytes :=
    match continuation left codepoint [] with
    | (codepoint, output) => ((codepoint ||| mark) &&& 0xFF).toUInt8 :: output
  if codepoint < 0x80 then .done [(codepoint &&& 0x7F).toUInt8]
  else if codepoint < 0x800 then .done (encode 1 0xC0)
  else if codepoint < 0x10000 then .done (encode 2 0xE0)
  else if codepoint ≤ 0x10FFFF then .done (encode 3 0xF0)
  else .refused

/-- `utf16_literal_to_utf8`: the bytes, and the length of the sequence. -/
def utf16LiteralToUtf8 (inputPointer inputEnd : Nat) : Reading (Bytes × Nat) :=
  if inputEnd < inputPointer + 6 then .refused
  else do
    let firstCode ← parseHex4 content (inputPointer + 2)
    if 0xDC00 ≤ firstCode ∧ firstCode ≤ 0xDFFF then .refused
    else if 0xD800 ≤ firstCode ∧ firstCode ≤ 0xDBFF then
      let secondSequence := inputPointer + 6
      if inputEnd < secondSequence + 6 then .refused
      else if (← byteAt content secondSequence) ≠ 92 then .refused
      else if (← byteAt content (secondSequence + 1)) ≠ 117 then .refused
      else
        let secondCode ← parseHex4 content (secondSequence + 2)
        if secondCode < 0xDC00 ∨ 0xDFFF < secondCode then .refused
        else
          let output ← encodeUtf8
            (0x10000 + (((firstCode &&& 0x3FF) <<< 10) ||| (secondCode &&& 0x3FF)))
          .done (output, 12)
    else
      let output ← encodeUtf8 firstCode
      .done (output, 6)

/-- The first loop of `parse_string`, over the bytes behind the quote: where the closing
quote is, and how many bytes were skipped. -/
def scanString : Bytes → (inputEnd skippedBytes : Nat) → Option (Nat × Nat)
  | [], _, _ => none
  | c :: rest, inputEnd, skippedBytes =>
    if c = 34 then some (inputEnd, skippedBytes)
    else if c = 92 then
      match rest with
      | [] => none
      | _ :: rest => scanString rest (inputEnd + 2) (skippedBytes + 1)
    else scanString rest (inputEnd + 1) skippedBytes

/-- The escapes of one letter. -/
def escapedByte (c : UInt8) : Option UInt8 :=
  match c.toNat with
  | 98 => some 8
  | 102 => some 12
  | 110 => some 10
  | 114 => some 13
  | 116 => some 9
  | 34 => some c
  | 92 => some c
  | 47 => some c
  | _ => none

/-- A write to the block of `room` bytes behind what is there. -/
def put (room : Nat) (output new : Bytes) : Reading Bytes :=
  if output.length + new.length ≤ room then .done (output ++ new) else .outside

/-- The second loop of `parse_string`. -/
def decodeLoop (inputEnd room : Nat) : (fuel : Nat) → (inputPointer : Nat) → Bytes → Reading Bytes
  | 0, _, _ => .starved
  | fuel + 1, inputPointer, output =>
    if inputEnd ≤ inputPointer then .done output
    else do
      let c ← byteAt content inputPointer
      if c ≠ 92 then
        decodeLoop inputEnd room fuel (inputPointer + 1) (← put room output [c])
      else
        let letter ← byteAt content (inputPointer + 1)
        match escapedByte letter with
        | some byte => decodeLoop inputEnd room fuel (inputPointer + 2) (← put room output [byte])
        | none =>
          if letter = 117 then
            let (new, sequenceLength) ← utf16LiteralToUtf8 content inputPointer inputEnd
            decodeLoop inputEnd room fuel (inputPointer + sequenceLength) (← put room output new)
          else .refused

/-- The C string in a block. -/
def cString (block : Bytes) : Bytes := block.takeWhile (· ≠ 0)

/-- `parse_string`: the string, and the offset behind it. -/
def parseString (offset : Nat) : Reading (Bytes × Nat) := do
  if (← byteAt content offset) ≠ 34 then .refused
  else match scanString (content.drop (offset + 1)) (offset + 1) 0 with
    | none => .refused
    | some (inputEnd, skippedBytes) =>
      let allocationLength := inputEnd - offset - skippedBytes
      let room := allocationLength + 1
      let output ← decodeLoop content inputEnd room (inputEnd - offset) (offset + 1) []
      let output ← put room output [0]
      .done (cString output, inputEnd + 1)

end Strings

section Values
variable {ν : Type} [NumberFormat ν] (content : Bytes)

/-- The bytes that `parse_number` copies. -/
def numberByte (c : UInt8) : Bool :=
  (48 ≤ c ∧ c ≤ 57) ∨ c = 43 ∨ c = 45 ∨ c = 101 ∨ c = 69 ∨ c = 46

/-- `parse_number`: the number, and the offset behind it. -/
def parseNumber (offset : Nat) : Reading (ν × Nat) :=
  let numberCString := ((content.drop offset).take 63).takeWhile numberByte
  match NumberFormat.strtod numberCString with
  | (number, afterEnd) => if afterEnd = 0 then .refused else .done (number, offset + afterEnd)

/-- The members of `parse_buffer` that change, and the address that the next item gets. -/
structure Cursor where
  offset : Nat
  depth : Nat
  nextAddr : Nat
  deriving DecidableEq

/-- `can_read` and `strncmp` at the cursor. -/
def spells (offset : Nat) (word : Bytes) : Bool :=
  offset + word.length ≤ content.length && (content.drop offset).take word.length == word

def nullWord : Bytes := ofChars ['n', 'u', 'l', 'l']
def falseWord : Bytes := ofChars ['f', 'a', 'l', 's', 'e']
def trueWord : Bytes := ofChars ['t', 'r', 'u', 'e']

mutual
/-- `parse_value`: the type and the value, the children, and the cursor behind it. -/
def parseValue : (fuel : Nat) → Cursor → Reading (Kind ν × List (Item ν) × Cursor)
  | 0, _ => .starved
  | fuel + 1, buffer =>
    if spells content buffer.offset nullWord then
      .done (.cjsonNull, [], { buffer with offset := buffer.offset + 4 })
    else if spells content buffer.offset falseWord then
      .done (.cjsonFalse, [], { buffer with offset := buffer.offset + 5 })
    else if spells content buffer.offset trueWord then
      .done (.cjsonTrue, [], { buffer with offset := buffer.offset + 4 })
    else match content[buffer.offset]? with
      | none => .refused
      | some c =>
        if c = 34 then do
          let (text, offset) ← parseString content buffer.offset
          .done (.cjsonString text, [], { buffer with offset := offset })
        else if c = 45 ∨ (48 ≤ c ∧ c ≤ 57) then do
          let (number, offset) ← parseNumber content buffer.offset
          .done (.cjsonNumber number, [], { buffer with offset := offset })
        else if c = 91 then do
          let (child, buffer) ← parseArray fuel buffer
          .done (.cjsonArray, child, buffer)
        else if c = 123 then do
          let (child, buffer) ← parseObject fuel buffer
          .done (.cjsonObject, child, buffer)
        else .refused
/-- `parse_array` -/
def parseArray : (fuel : Nat) → Cursor → Reading (List (Item ν) × Cursor)
  | 0, _ => .starved
  | fuel + 1, buffer =>
    if cjsonNestingLimit ≤ buffer.depth then .refused
    else do
      if (← byteAt content buffer.offset) ≠ 91 then .refused
      else
        let offset := bufferSkipWhitespace content (buffer.offset + 1)
        if content[offset]? = some 93 then .done ([], { buffer with offset := offset + 1 })
        else if content.length ≤ offset then .refused
        else
          -- back to the byte in front of the first element
          let (child, behind) ← parseElements fuel
            { buffer with offset := offset - 1, depth := buffer.depth + 1 } []
          .done (child, { behind with offset := behind.offset + 1, depth := behind.depth - 1 })
/-- The loop of `parse_array`, which goes on at a comma and ends at the bracket. -/
def parseElements : (fuel : Nat) → Cursor → List (Item ν) → Reading (List (Item ν) × Cursor)
  | 0, _, _ => .starved
  | fuel + 1, buffer, head => do
    let newItem := buffer.nextAddr
    let offset := bufferSkipWhitespace content (buffer.offset + 1)
    let (kind, child, behind) ← parseValue fuel
      { buffer with offset := offset, nextAddr := buffer.nextAddr + 1 }
    let offset := bufferSkipWhitespace content behind.offset
    let head := head ++ [.mk newItem none kind child]
    if content[offset]? = some 44 then parseElements fuel { behind with offset := offset } head
    else if content[offset]? = some 93 then .done (head, { behind with offset := offset })
    else .refused
/-- `parse_object` -/
def parseObject : (fuel : Nat) → Cursor → Reading (List (Item ν) × Cursor)
  | 0, _ => .starved
  | fuel + 1, buffer =>
    if cjsonNestingLimit ≤ buffer.depth then .refused
    else if content[buffer.offset]? ≠ some 123 then .refused
    else
      let offset := bufferSkipWhitespace content (buffer.offset + 1)
      if content[offset]? = some 125 then .done ([], { buffer with offset := offset + 1 })
      else if content.length ≤ offset then .refused
      else do
        let (child, behind) ← parseMembers fuel
          { buffer with offset := offset - 1, depth := buffer.depth + 1 } []
        .done (child, { behind with offset := behind.offset + 1, depth := behind.depth - 1 })
/-- The loop of `parse_object`. -/
def parseMembers : (fuel : Nat) → Cursor → List (Item ν) → Reading (List (Item ν) × Cursor)
  | 0, _, _ => .starved
  | fuel + 1, buffer, head => do
    let newItem := buffer.nextAddr
    let offset := bufferSkipWhitespace content (buffer.offset + 1)
    let (name, offset) ← parseString content offset
    let offset := bufferSkipWhitespace content offset
    if content[offset]? ≠ some 58 then .refused
    else
      let offset := bufferSkipWhitespace content (offset + 1)
      let (kind, child, behind) ← parseValue fuel
        { buffer with offset := offset, nextAddr := buffer.nextAddr + 1 }
      let offset := bufferSkipWhitespace content behind.offset
      let head := head ++ [.mk newItem (some name) kind child]
      if content[offset]? = some 44 then parseMembers fuel { behind with offset := offset } head
      else if content[offset]? = some 125 then .done (head, { behind with offset := offset })
      else .refused
end

/-- The buffer that `cJSON_Parse` makes of the memory at `value`. -/
def bufferOf (value : Bytes) : Bytes := cString value ++ [0]

/-- `cJSON_Parse`: the document, and the address that the next item gets. What stands behind
the value is not looked at. -/
def cjsonParse (nextAddr : Addr) (value : Bytes) : Reading (Item ν × Addr) := do
  let content := bufferOf value
  let offset := bufferSkipWhitespace content (skipUtf8Bom content)
  let (kind, child, behind) ← parseValue content (3 * content.length + 1) ⟨offset, 0, nextAddr + 1⟩
  .done (.mk nextAddr none kind child, behind.nextAddr)

end Values

end JsonText
