import Cfgd.CText

/-!
# The request parser

`rt_create_jrp` splits a payload into key and value at the first `=` and the key
into segments at every `.`. A segment may end in an array index: a number, or one
of the symbols for the last item, the size, an appended item and all items.
-/

namespace Request

open CText

def maxPreSegSize : Nat := 192
def maxDepthReq : Nat := 10
def maxKeySize : Nat := maxPreSegSize * maxDepthReq + (maxDepthReq - 1)
def maxValueSize : Nat := 256
def maxArySize : Int := 256

/-- `JSL`, the level of a node or of a request segment. -/
inductive Jsl where
  | dir
  | archive
  | logicScope
  | array
  | arrayItem
  | arrayItemAsField
  | field
  deriving DecidableEq, Repr

def jaCodeLast : UInt8 := 36
def jaCodeQuerySize : UInt8 := 63
def jaCodeAdd : UInt8 := 43
def jaCodeEntire : UInt8 := 42

/-- `JA_CODE_TO_SYMBOL`. -/
def jaCodeToSymbol (code : UInt8) : Int := (code.toNat ||| 0x7FFFFF00 : Nat)

def jaSymLast : Int := jaCodeToSymbol jaCodeLast
def jaSymQuerySize : Int := jaCodeToSymbol jaCodeQuerySize
def jaSymAdd : Int := jaCodeToSymbol jaCodeAdd
def jaSymEntire : Int := jaCodeToSymbol jaCodeEntire

def keywordDeleted : Bytes := ofChars ['d', 'e', 'l', 'e', 't', 'e', 'd']

structure Segment where
  name : Bytes
  index : Int
  jsl : Jsl
  deriving DecidableEq, Repr

/-- The members of `JRP` that are read after parsing. `depth` is the length of `segm`. -/
structure Jrp where
  segm : List Segment
  valuestring : Option Bytes
  dupkey : Bytes
  dupvalue : Bytes
  deriving DecidableEq, Repr

/-- The three answers of `rt_is_array_syntax`; `yes` carries what stands before
and between the brackets. -/
inductive ArraySyntax where
  | error
  | no
  | yes (name range : Bytes)
  deriving DecidableEq, Repr

def leftBracket : UInt8 := 91
def rightBracket : UInt8 := 93
def dot : UInt8 := 46
def equalSign : UInt8 := 61

def rtIsArraySyntax (key : Bytes) : ArraySyntax :=
  let left := key.takeWhile (· ≠ leftBracket)
  let inner := (key.drop (left.length + 1)).takeWhile (· ≠ rightBracket)
  if key.count leftBracket = 0 ∧ key.count rightBracket = 0 then .no
  else if key.count leftBracket = 1 ∧ key.count rightBracket = 1 ∧ left ≠ [] ∧ inner ≠ [] ∧
      key = left ++ leftBracket :: inner ++ [rightBracket] then .yes left inner
  else .error

/-- The name and the index of a segment; an index of -1 says that it has none. -/
def rtAnalysisArraySyntax (key : Bytes) : Option (Bytes × Int) :=
  match rtIsArraySyntax key with
  | .error => none
  | .no => some (key, -1)
  | .yes name [code] =>
    if code = jaCodeLast ∨ code = jaCodeQuerySize ∨ code = jaCodeAdd ∨ code = jaCodeEntire then
      some (name, jaCodeToSymbol code)
    else rtNumericIndex name [code]
  | .yes name range => rtNumericIndex name range
where
  rtNumericIndex (name range : Bytes) : Option (Bytes × Int) :=
    if range.all isdigit then
      if atoi range ≥ maxArySize ∨ atoi range < 0 then none else some (name, atoi range)
    else none

/-- `rt_analyze_segment`; the first two levels name a directory and an archive. -/
def rtAnalyzeSegment (key : Bytes) (depth : Nat) : Option Segment :=
  match rtAnalysisArraySyntax key with
  | none => none
  | some (name, index) =>
    match depth with
    | 0 => if index < 0 then some ⟨name, index, .dir⟩ else none
    | 1 => if index < 0 then some ⟨name, index, .archive⟩ else none
    | _ => some ⟨name, index, if index < 0 then .logicScope else .array⟩

/-- The loop of `rt_separate_segment` over the pieces between the dots. -/
def rtSeparateLoop (depth : Nat) (previous : Option Segment) :
    List Bytes → Option (List Segment)
  | [] => some []
  | piece :: rest =>
    if piece = [] ∨ maxDepthReq ≤ depth ∨ maxPreSegSize ≤ piece.length then none
    else match rtAnalyzeSegment piece depth with
      | none => none
      | some segm =>
        if previous.any (fun p => p.jsl = .array ∧ p.index = jaSymEntire) then none
        else (rtSeparateLoop (depth + 1) (some segm) rest).map (segm :: ·)

/-- The last scope of a key with three levels or more is a field. -/
def lastToField (segm : List Segment) : List Segment :=
  match segm.getLast? with
  | none => segm
  | some last =>
    if 3 ≤ segm.length ∧ last.jsl = .logicScope then
      segm.dropLast ++ [{ last with jsl := .field }]
    else segm

def rtSeparateSegment (key : Bytes) : Option (List Segment) :=
  if key = [] then some []
  else (rtSeparateLoop 0 none (key.splitOn dot)).map lastToField

/-- `rt_separate_kv_field`: the key, and the value when there is a `=`. -/
def rtSeparateKvField (payload : Bytes) : Option (Bytes × Option Bytes) :=
  let key := payload.takeWhile (· ≠ equalSign)
  if key = [] ∨ maxKeySize ≤ key.length then none
  else if key = payload then some (key, none)
  else
    let value := payload.drop (key.length + 1)
    if value = [] ∨ maxValueSize ≤ value.length then none else some (key, some value)

def rtCreateJrp (payload : Bytes) : Option Jrp :=
  match rtSeparateKvField payload with
  | none => none
  | some (key, value) =>
    (rtSeparateSegment key).map fun segm => ⟨segm, value, key, value.getD []⟩

end Request
