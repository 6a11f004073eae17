import Mathlib.Tactic.Ring
import Cfgd.CText
import Cfgd.LittleEndian

/-!
# The serialised form of protocol values

`serialize.hpp`: integers, vectors, strings and blobs. `length`, `serialize` and `build`
are three traversals of a value. Numbers are in memory as the host has them, lowest byte
first. The sizes that `build` works with are 32-bit `int`s.
-/

namespace Serialize

open CText LittleEndian

/-- An integer type of the source: `sizeof`, and whether it has a sign. -/
structure IntType where
  size : Nat
  signed : Bool
  sizes : size = 1 ∨ size = 2 ∨ size = 4 ∨ size = 8

abbrev IntType.Word (t : IntType) : Type := BitVec (8 * t.size)

theorem IntType.pos (t : IntType) : 0 < t.size := by
  have sizes := t.sizes
  omega

/-- `toolkit::change_byte_order`. -/
def changeByteOrder {n : Nat} (t : BitVec (8 * n)) : BitVec (8 * n) :=
  (List.range n).foldl
    (fun dst i => (dst ||| (t >>> (i * 8) &&& 255)) <<< (if i < n - 1 then 8 else 0)) 0

/-- The conversion of a number to `int`. -/
def int32 (n : Int) : Int := (BitVec.ofInt 32 n).toInt

/-- The conversion of a word to `size_t`. -/
def IntType.toSize (t : IntType) (v : t.Word) : Nat :=
  if t.signed then (BitVec.ofInt 64 v.toInt).toNat else v.toNat

/-- How often `for (NL i = 0; i < v; i++)` turns. -/
def IntType.turns (t : IntType) (v : t.Word) : Nat := if t.signed then v.toInt.toNat else v.toNat

/-- The counts that the type can hold. -/
def IntType.Holds (t : IntType) (n : Nat) : Prop :=
  n < if t.signed then 2 ^ (8 * t.size - 1) else 2 ^ (8 * t.size)

instance (t : IntType) (n : Nat) : Decidable (t.Holds n) :=
  inferInstanceAs (Decidable (n < if t.signed then _ else _))

/-- `ENABLE_BIG_ENDIAN` decides on the order of a count. -/
def inOrder (big : Bool) {n : Nat} (v : BitVec (8 * n)) : BitVec (8 * n) :=
  if big then changeByteOrder v else v

/-- The types that are nested: `proto_crt_t`, `proto_vector_t` and `proto_string_t`, with
the element type, `NL` and `ENABLE_BIG_ENDIAN`. A `proto_blob_t` cannot be an element, for
it has no default constructor. -/
inductive Ty where
  | crt (t : IntType)
  | vector (element : Ty) (nl : IntType) (big : Bool)
  | string (t : IntType) (nl : IntType) (big : Bool)

@[reducible] def Ty.Value : Ty → Type
  | .crt t => t.Word
  | .vector element _ _ => List element.Value
  | .string t _ _ => List t.Word

/-- A value as its default constructor makes it. -/
def fresh : (ty : Ty) → ty.Value
  | .crt t => (0 : t.Word)
  | .vector _ _ _ => []
  | .string _ _ _ => []

def wordBytes {t : IntType} (v : t.Word) : Bytes := LittleEndian.bytes t.size v.toNat

/-- `serialize`: what is written behind the pointer, which is moved to behind it. -/
def serialize : (ty : Ty) → ty.Value → Bytes
  | .crt t, v => @wordBytes t v
  | .vector element nl big, items =>
    @wordBytes nl (inOrder big (BitVec.ofNat _ (List.length items))) ++
      List.flatMap (serialize element) items
  | .string t nl big, chars =>
    @wordBytes nl (inOrder big (BitVec.ofNat _ (List.length chars))) ++
      List.flatMap (@wordBytes t) chars

/-- `length`. -/
def length : (ty : Ty) → ty.Value → Int
  | .crt t, _ => t.size
  | .vector element nl _, items =>
    List.foldl (fun sum item => int32 (sum + length element item)) (int32 (0 + nl.size)) items
  | .string t nl _, chars =>
    int32 (int32 (0 + nl.size) + int32 ((List.length chars * t.size % 2 ^ 64 : Nat) : Int))

/-- What `build` does: it returns null, or a value with the pointer, as an offset into the
buffer, and `cb`; or it reads outside of the buffer. -/
inductive Outcome (α : Type) where
  | null
  | done (value : α) (pos cb : Int)
  | outside

/-- The bytes from an offset on, if they all lie in the buffer. -/
def readAt (buffer : Bytes) (pos : Int) (n : Nat) : Option Bytes :=
  if 0 ≤ pos ∧ pos + n ≤ buffer.length then some ((buffer.drop pos.toNat).take n) else none

/-- `proto_crt_t::build`. -/
def buildWord (buffer : Bytes) (t : IntType) (pos cb : Int) : Outcome t.Word :=
  if cb < t.size then .null
  else match readAt buffer pos t.size with
    | none => .outside
    | some data => .done (BitVec.ofNat _ (LittleEndian.value data)) (pos + t.size)
        (int32 (cb - t.size))

/-- The loop of `proto_vector_t::build`: each item is built into a new element and pushed. -/
def buildItems {α : Type} (item : Int → Int → Outcome α) :
    Nat → List α → Int → Int → Outcome (List α)
  | 0, items, pos, cb => .done items pos cb
  | n + 1, items, pos, cb => match item pos cb with
    | .null => .null
    | .outside => .outside
    | .done v pos cb => buildItems item n (items ++ [v]) pos cb

/-- The characters in the bytes of a string. -/
def chars (t : IntType) : Nat → Bytes → List t.Word
  | 0, _ => []
  | n + 1, data => BitVec.ofNat _ (LittleEndian.value (data.take t.size)) ::
      chars t n (data.drop t.size)

/-- The part of `proto_string_t::build` behind the count. `assign` throws when a string
cannot have that many characters. -/
def buildChars (maxSize : Nat) (buffer : Bytes) (t : IntType) (count : Nat) (pos cb : Int) :
    Outcome (List t.Word) :=
  let acquireCb := int32 ((t.size * count % 2 ^ 64 : Nat) : Int)
  if cb < acquireCb then .null
  else if maxSize < count then .null
  else match readAt buffer pos (t.size * count) with
    | none => .outside
    | some data => .done (chars t count data) (pos + acquireCb) (int32 (cb - acquireCb))

/-- `build` into a value; `maxSize` is `basic_string<T>::max_size`. -/
def build (maxSize : Nat) (buffer : Bytes) :
    (ty : Ty) → ty.Value → Int → Int → Outcome ty.Value
  | .crt t, _, pos, cb => buildWord buffer t pos cb
  | .vector element nl big, this, pos, cb => match buildWord buffer nl pos cb with
    | .null => .null
    | .outside => .outside
    | .done count pos cb =>
      buildItems (build maxSize buffer element (fresh element)) (nl.turns (inOrder big count))
        this pos cb
  | .string t nl big, _, pos, cb => match buildWord buffer nl pos cb with
    | .null => .null
    | .outside => .outside
    | .done count pos cb =>
      buildChars maxSize buffer t (nl.toSize (inOrder big count)) pos cb

section ByteOrder
variable {n : Nat} (t : BitVec (8 * n))

theorem byte_toNat (some : 0 < n) (i : Nat) :
    (t >>> (i * 8) &&& 255).toNat = t.toNat / 256 ^ i % 256 := by
  have room : 2 ^ 8 ≤ 2 ^ (8 * n) := Nat.pow_le_pow_right (by omega) (by omega)
  have mask : (255 : BitVec (8 * n)).toNat = 2 ^ 8 - 1 := by
    change (BitVec.ofNat (8 * n) 255).toNat = _
    rw [BitVec.toNat_ofNat]
    exact Nat.mod_eq_of_lt (by omega)
  have base : 2 ^ (i * 8) = 256 ^ i := by rw [Nat.mul_comm, Nat.pow_mul]
  rw [BitVec.toNat_and, BitVec.toNat_ushiftRight, mask, Nat.and_two_pow_sub_one_eq_mod,
    Nat.shiftRight_eq_div_pow, base]

/-- A turn of the loop, as long as there is room for the byte. -/
theorem turn_toNat (some : 0 < n) {dst : BitVec (8 * n)} {i high : Nat}
    (before : dst.toNat = 256 * high) :
    (dst ||| (t >>> (i * 8) &&& 255)).toNat = t.toNat / 256 ^ i % 256 + 256 * high := by
  have small : t.toNat / 256 ^ i % 256 < 2 ^ 8 := Nat.mod_lt _ (by omega)
  have joined : 256 * high + t.toNat / 256 ^ i % 256 =
      256 * high ||| t.toNat / 256 ^ i % 256 := Nat.two_pow_add_eq_or_of_lt small high
  rw [BitVec.toNat_or, byte_toNat t some, before]
  omega

/-- The loop before its last turn has the bytes so far, with room for one more. -/
theorem changeByteOrder_turns {i : Nat} (early : i < n) :
    ((List.range i).foldl (fun dst i =>
      (dst ||| (t >>> (i * 8) &&& 255)) <<< (if i < n - 1 then 8 else 0))
      (0 : BitVec (8 * n))).toNat = 256 * swap i t.toNat := by
  induction i with
  | zero => rfl
  | succ i ih =>
    have shifted := turn_toNat t (by omega) (ih (by omega)) (i := i)
    have room : 256 * swap (i + 1) t.toNat < 2 ^ (8 * n) := by
      have small := swap_lt (i + 1) t.toNat
      have more : 256 ^ (i + 1 + 1) ≤ 256 ^ n := Nat.pow_le_pow_right (by omega) (by omega)
      have base : 2 ^ (8 * n) = 256 ^ n := by rw [Nat.pow_mul]
      rw [Nat.pow_succ] at more
      omega
    rw [List.range_succ, List.foldl_append, List.foldl_cons, List.foldl_nil,
      if_pos (by omega), BitVec.toNat_shiftLeft, shifted, ← swap_succ, Nat.shiftLeft_eq]
    rw [Nat.mod_eq_of_lt (by omega)]
    omega

/-- The bytes are reversed. -/
theorem changeByteOrder_toNat : (changeByteOrder t).toNat = swap n t.toNat := by
  cases n with
  | zero => exact congrArg BitVec.toNat (BitVec.eq_nil _)
  | succ n =>
    have turns := changeByteOrder_turns t (Nat.lt_succ_self n)
    rw [changeByteOrder, List.range_succ, List.foldl_append, List.foldl_cons, List.foldl_nil,
      if_neg (by omega), BitVec.shiftLeft_zero, turn_toNat t (by omega) turns, ← swap_succ]

theorem inOrder_inOrder (big : Bool) : inOrder big (inOrder big t) = t := by
  cases big with
  | false => rfl
  | true =>
    have base : 2 ^ (8 * n) = 256 ^ n := by rw [Nat.pow_mul]
    have small : t.toNat < 256 ^ n := base ▸ t.isLt
    apply BitVec.eq_of_toNat_eq
    change (changeByteOrder (changeByteOrder t)).toNat = _
    rw [changeByteOrder_toNat, changeByteOrder_toNat, swap_swap small]

end ByteOrder

/-! ## What the bytes say

The same types read from a list of bytes, without an `int` anywhere. -/

def takeWord (t : IntType) (rest : Bytes) : Option (t.Word × Bytes) :=
  if rest.length < t.size then none
  else some (BitVec.ofNat _ (LittleEndian.value (rest.take t.size)), rest.drop t.size)

def parseItems {α : Type} (item : Bytes → Option (α × Bytes)) :
    Nat → List α → Bytes → Option (List α × Bytes)
  | 0, items, rest => some (items, rest)
  | n + 1, items, rest => match item rest with
    | none => none
    | some (v, rest) => parseItems item n (items ++ [v]) rest

def parse (maxSize : Nat) : (ty : Ty) → ty.Value → Bytes → Option (ty.Value × Bytes)
  | .crt t, _, rest => takeWord t rest
  | .vector element nl big, this, rest => match takeWord nl rest with
    | none => none
    | some (count, rest) =>
      parseItems (parse maxSize element (fresh element)) (nl.turns (inOrder big count)) this rest
  | .string t nl big, _, rest => match takeWord nl rest with
    | none => none
    | some (count, rest) =>
      let n := nl.toSize (inOrder big count)
      if maxSize < n ∨ rest.length < t.size * n then none
      else some (chars t n (rest.take (t.size * n)), rest.drop (t.size * n))

/-- A string of `n` characters does not fit in the room, but its size as an `int` does. -/
def Wraps (maxSize : Nat) (t : IntType) (n room : Nat) : Prop :=
  n ≤ maxSize ∧ room < t.size * n ∧ int32 ((t.size * n % 2 ^ 64 : Nat) : Int) ≤ room

def TameItems {α : Type} (tame : Bytes → Prop) (item : Bytes → Option (α × Bytes)) :
    Nat → Bytes → Prop
  | 0, _ => True
  | n + 1, rest => tame rest ∧ match item rest with
    | none => True
    | some (_, rest) => TameItems tame item n rest

/-- No string that is come to claims a size that wraps. -/
def Tame (maxSize : Nat) : Ty → Bytes → Prop
  | .crt _, _ => True
  | .vector element nl big, rest => match takeWord nl rest with
    | none => True
    | some (count, rest) => TameItems (Tame maxSize element)
        (parse maxSize element (fresh element)) (nl.turns (inOrder big count)) rest
  | .string t nl big, rest => match takeWord nl rest with
    | none => True
    | some (count, rest) => ¬ Wraps maxSize t (nl.toSize (inOrder big count)) rest.length

section Parse
variable {buffer : Bytes} {maxSize : Nat}

/-- Where the pointer is when `rest` is left of the buffer. -/
def place (buffer rest : Bytes) : Int := buffer.length - rest.length

def outcome {α : Type} (buffer : Bytes) : Option (α × Bytes) → Outcome α
  | none => .null
  | some (v, rest) => .done v (place buffer rest) rest.length

/-- A step of `build` reads what the bytes say, or outside of the buffer. -/
structure Agrees {α : Type} (buffer : Bytes) (item : Int → Int → Outcome α)
    (parsed : Bytes → Option (α × Bytes)) (tame : Bytes → Prop) : Prop where
  reads : ∀ rest, rest <:+ buffer → tame rest →
    item (place buffer rest) rest.length = outcome buffer (parsed rest)
  strays : ∀ rest, rest <:+ buffer → ¬ tame rest →
    item (place buffer rest) rest.length = .outside
  suffix : ∀ rest v left, parsed rest = some (v, left) → left <:+ rest

theorem int32_eq {n : Int} (lower : -2 ^ 31 ≤ n) (upper : n < 2 ^ 31) : int32 n = n :=
  intOfLong_eq lower upper

theorem readAt_place {rest : Bytes} (within : rest <:+ buffer) (n : Nat) :
    readAt buffer (place buffer rest) n = if n ≤ rest.length then some (rest.take n) else none := by
  obtain ⟨front, rfl⟩ := within
  have here : place (front ++ rest) rest = front.length := by
    rw [place, List.length_append]
    omega
  rw [readAt, here, Int.toNat_natCast, List.drop_left, List.length_append]
  by_cases fits : n ≤ rest.length
  · rw [if_pos fits, if_pos ⟨by omega, by omega⟩]
  · rw [if_neg fits, if_neg fun h => fits (by omega)]

theorem place_drop (rest : Bytes) {n : Nat} (fits : n ≤ rest.length) :
    place buffer (rest.drop n) = place buffer rest + n := by
  rw [place, place, List.length_drop]
  omega

theorem buildWord_eq (small : buffer.length < 2 ^ 31) (t : IntType) {rest : Bytes}
    (within : rest <:+ buffer) : buildWord buffer t (place buffer rest) rest.length =
      outcome buffer (takeWord t rest) := by
  have shorter := within.length_le
  rw [buildWord, takeWord]
  by_cases short : rest.length < t.size
  · rw [if_pos short, if_pos (by omega)]
    rfl
  · have fits := Nat.not_lt.mp short
    have left : int32 ((rest.length : Int) - t.size) = ((rest.drop t.size).length : Nat) := by
      rw [int32_eq (by omega) (by omega), List.length_drop]
      omega
    rw [if_neg short, if_neg (by omega), readAt_place within, if_pos fits]
    dsimp only
    rw [outcome, place_drop rest fits, left]

theorem takeWord_suffix {t : IntType} {rest left : Bytes} {v : t.Word}
    (taken : takeWord t rest = some (v, left)) : left <:+ rest := by
  rw [takeWord] at taken
  split at taken
  · cases taken
  · obtain ⟨-, rfl⟩ := Prod.mk.inj (Option.some.inj taken)
    exact List.drop_suffix _ _

theorem agrees_items {α : Type} {item : Int → Int → Outcome α}
    {parsed : Bytes → Option (α × Bytes)} {tame : Bytes → Prop}
    (agrees : Agrees buffer item parsed tame) (n : Nat) (items : List α) :
    Agrees buffer (buildItems item n items) (parseItems parsed n items)
      (TameItems tame parsed n) := by
  induction n generalizing items with
  | zero =>
    refine ⟨fun _ _ _ => rfl, fun _ _ wild => absurd trivial wild, fun rest v left h => ?_⟩
    obtain ⟨-, rfl⟩ := Prod.mk.inj (Option.some.inj h)
    exact List.suffix_rfl
  | succ n ih =>
    constructor
    · rintro rest within ⟨here, later⟩
      rw [buildItems, parseItems, agrees.reads rest within here]
      cases first : parsed rest with
      | none => rfl
      | some found =>
        rw [first] at later
        exact (ih (items ++ [found.1])).reads found.2
          ((agrees.suffix rest found.1 found.2 first).trans within) later
    · intro rest within wild
      rw [buildItems]
      by_cases here : tame rest
      · rw [agrees.reads rest within here]
        cases first : parsed rest with
        | none =>
          refine absurd ⟨here, ?_⟩ wild
          rw [first]
          trivial
        | some found =>
          refine (ih (items ++ [found.1])).strays found.2
            ((agrees.suffix rest found.1 found.2 first).trans within) fun later => wild ⟨here, ?_⟩
          rw [first]
          exact later
      · rw [agrees.strays rest within here]
    · intro rest v left h
      rw [parseItems] at h
      cases first : parsed rest with
      | none => rw [first] at h; cases h
      | some found =>
        rw [first] at h
        exact ((ih (items ++ [found.1])).suffix found.2 v left h).trans
          (agrees.suffix rest found.1 found.2 first)

/-- The bytes of a string that is in the buffer. -/
theorem buildChars_tame (small : buffer.length < 2 ^ 31) (t : IntType) (n : Nat) {rest : Bytes}
    (within : rest <:+ buffer) (tame : ¬ Wraps maxSize t n rest.length) :
    buildChars maxSize buffer t n (place buffer rest) rest.length =
      outcome buffer (if maxSize < n ∨ rest.length < t.size * n then none
        else some (chars t n (rest.take (t.size * n)), rest.drop (t.size * n))) := by
  have shorter := within.length_le
  rw [buildChars]
  by_cases fits : rest.length < t.size * n
  · rw [if_pos (Or.inr fits)]
    by_cases many : maxSize < n
    · rw [if_pos many, ite_self]
      rfl
    · have beyond : (rest.length : Int) < int32 ((t.size * n % 2 ^ 64 : Nat) : Int) :=
        lt_of_not_ge fun le => tame ⟨Nat.not_lt.mp many, fits, le⟩
      rw [if_pos beyond]
      rfl
  · have whole := Nat.not_lt.mp fits
    have size : int32 ((t.size * n % 2 ^ 64 : Nat) : Int) = (t.size * n : Nat) := by
      rw [Nat.mod_eq_of_lt (by omega), int32_eq (by omega) (by omega)]
    rw [size, if_neg (by omega)]
    by_cases many : maxSize < n
    · rw [if_pos many, if_pos (Or.inl many)]
      rfl
    · have left : int32 ((rest.length : Int) - (t.size * n : Nat)) =
          ((rest.drop (t.size * n)).length : Nat) := by
        rw [int32_eq (by omega) (by omega), List.length_drop]
        omega
      rw [if_neg many, readAt_place within, if_pos whole, if_neg (not_or.mpr ⟨many, fits⟩)]
      dsimp only
      rw [outcome, place_drop rest whole, left]

theorem buildChars_wild (t : IntType) (n : Nat) {rest : Bytes} (within : rest <:+ buffer)
    (wraps : Wraps maxSize t n rest.length) :
    buildChars maxSize buffer t n (place buffer rest) rest.length = .outside := by
  obtain ⟨few, large, wrapped⟩ := wraps
  rw [buildChars, if_neg (not_lt.mpr wrapped), if_neg (Nat.not_lt.mpr few), readAt_place within,
    if_neg (Nat.not_le.mpr large)]

/-- `build` of every type, into any value. -/
theorem agrees_build (maxSize : Nat) (small : buffer.length < 2 ^ 31) (ty : Ty) (this : ty.Value) :
    Agrees buffer (build maxSize buffer ty this) (parse maxSize ty this) (Tame maxSize ty) := by
  induction ty with
  | crt t =>
    refine ⟨fun rest within _ => buildWord_eq small t within, fun _ _ wild => absurd trivial wild,
      fun rest v left h => takeWord_suffix h⟩
  | vector element nl big ih =>
    have items := fun n => agrees_items (ih (fresh element)) n this
    constructor
    · intro rest within tame
      rw [build, parse, buildWord_eq small nl within]
      dsimp only [Tame] at tame
      cases first : takeWord nl rest with
      | none => rfl
      | some found =>
        rw [first] at tame
        exact (items _).reads found.2 ((takeWord_suffix first).trans within) tame
    · intro rest within wild
      rw [build, buildWord_eq small nl within]
      dsimp only [Tame] at wild
      cases first : takeWord nl rest with
      | none => rw [first] at wild; exact absurd trivial wild
      | some found =>
        rw [first] at wild
        exact (items _).strays found.2 ((takeWord_suffix first).trans within) wild
    · intro rest v left h
      rw [parse] at h
      cases first : takeWord nl rest with
      | none => rw [first] at h; cases h
      | some found =>
        rw [first] at h
        exact ((items _).suffix found.2 v left h).trans (takeWord_suffix first)
  | string t nl big =>
    constructor
    · intro rest within tame
      rw [build, parse, buildWord_eq small nl within]
      dsimp only [Tame] at tame
      cases first : takeWord nl rest with
      | none => rfl
      | some found =>
        rw [first] at tame
        exact buildChars_tame small t _ ((takeWord_suffix first).trans within) tame
    · intro rest within wild
      rw [build, buildWord_eq small nl within]
      dsimp only [Tame] at wild
      cases first : takeWord nl rest with
      | none => rw [first] at wild; exact absurd trivial wild
      | some found =>
        rw [first] at wild
        exact buildChars_wild t _ ((takeWord_suffix first).trans within) (not_not.mp wild)
    · intro rest v left h
      rw [parse] at h
      cases first : takeWord nl rest with
      | none => rw [first] at h; cases h
      | some found =>
        rw [first] at h
        dsimp only at h
        split at h
        · cases h
        · obtain ⟨-, rfl⟩ := Prod.mk.inj (Option.some.inj h)
          exact (List.drop_suffix _ _).trans (takeWord_suffix first)

end Parse

/-- `build` stays inside of the buffer. -/
def Confined {α : Type} (buffer : Bytes) (o : Outcome α) : Prop :=
  match o with
  | .null => True
  | .outside => False
  | .done _ pos cb => 0 ≤ pos ∧ pos ≤ buffer.length ∧ 0 ≤ cb

/-- `build` stays inside exactly when no string that it comes to claims a size that wraps. -/
theorem build_confined_iff (maxSize : Nat) (buffer : Bytes) (small : buffer.length < 2 ^ 31)
    (ty : Ty) (this : ty.Value) :
    Confined buffer (build maxSize buffer ty this 0 buffer.length) ↔ Tame maxSize ty buffer := by
  have agrees := agrees_build maxSize small ty this
  have start : place buffer buffer = 0 := by
    rw [place]
    omega
  constructor
  · intro confined
    by_contra wild
    have outside := agrees.strays buffer List.suffix_rfl wild
    rw [start] at outside
    rw [outside] at confined
    exact confined
  · intro tame
    have inside := agrees.reads buffer List.suffix_rfl tame
    rw [start] at inside
    rw [inside]
    cases parsed : parse maxSize ty this buffer with
    | none => trivial
    | some found =>
      have within := (agrees.suffix buffer found.1 found.2 parsed).length_le
      refine ⟨?_, ?_, ?_⟩
      · rw [place]
        omega
      · rw [place]
        omega
      · omega

/-- `proto_string_t<char>`. -/
def charString : Ty := .string ⟨1, true, by decide⟩ ⟨4, false, by decide⟩ false

/-- A string that claims 4294967295 characters. -/
def hugeCount : Bytes := [255, 255, 255, 255]

theorem hugeCount_strays :
    ¬ Confined hugeCount (build (2 ^ 62) hugeCount charString [] 0 hugeCount.length) := id

/-- A short string, and bytes behind it. -/
def shortString : Bytes := [2, 0, 0, 0, 104, 105, 7]

theorem build_confined_shortString :
    Confined shortString (build (2 ^ 62) shortString charString [] 0 shortString.length) :=
  (build_confined_iff (2 ^ 62) shortString (by decide) charString []).mpr
    (by rintro ⟨-, large, -⟩; revert large; decide)

/-! ## Round trips -/

/-- `proto_blob_t`: elements of `size` bytes each, and the memory that holds them. -/
structure Blob where
  size : Nat
  count : Nat
  memory : Bytes
  nonempty : 0 < size ∧ 0 < count
  isInt : count < 2 ^ 31
  block : memory.length = count * size

namespace Blob

def length (blob : Blob) : Int := int32 ((blob.count * blob.size % 2 ^ 64 : Nat) : Int)

/-- What is written: `count_` bytes. -/
def serialize (blob : Blob) : Bytes := blob.memory.take blob.count

/-- `build` into a blob with memory of its own: it copies `count_` bytes. -/
def build (buffer : Bytes) (blob : Blob) (pos cb : Int) : Outcome Bytes :=
  if cb < blob.count then .null
  else match readAt buffer pos blob.count with
    | none => .outside
    | some data => .done (data ++ blob.memory.drop blob.count) (pos + blob.count)
        (int32 (cb - blob.count))

end Blob

/-- A value of some protocol type. -/
inductive Proto where
  | value (ty : Ty) (v : ty.Value)
  | blob (blob : Blob)

/-- The element counts fit their length types, and strings are not longer than strings
can be. -/
def Fits (maxSize : Nat) : (ty : Ty) → ty.Value → Prop
  | .crt _, _ => True
  | .vector element nl _, items =>
    nl.Holds (List.length items) ∧ ∀ item ∈ (items : List element.Value), Fits maxSize element item
  | .string _ nl _, chars => nl.Holds (List.length chars) ∧ List.length chars ≤ maxSize

instance decidableFits (maxSize : Nat) : ∀ ty v, Decidable (Fits maxSize ty v)
  | .crt _, _ => .isTrue trivial
  | .vector element nl _, items =>
    have := decidableFits maxSize element
    inferInstanceAs (Decidable (nl.Holds (List.length items) ∧ ∀ item ∈ items, _))
  | .string _ nl _, chars =>
    inferInstanceAs (Decidable (nl.Holds (List.length chars) ∧ List.length chars ≤ maxSize))

def Proto.Fits (maxSize : Nat) : Proto → Prop
  | .value ty v => Serialize.Fits maxSize ty v
  | .blob _ => True

/-- What the type's traversals must agree on: the length, what is written, and what `build`
makes of it in a fresh value, for each buffer that starts with it. -/
def Proto.RoundTrips (maxSize : Nat) : Proto → Prop
  | .value ty v => length ty v = (serialize ty v).length ∧
    ∀ buffer, serialize ty v <+: buffer → buffer.length < 2 ^ 31 →
      build maxSize buffer ty (fresh ty) 0 buffer.length =
        .done v (length ty v) (buffer.length - length ty v)
  | .blob b => b.length = b.serialize.length ∧
    ∀ other : Blob, other.size = b.size → other.count = b.count →
      ∀ buffer, b.serialize <+: buffer → buffer.length < 2 ^ 31 →
        other.build buffer 0 buffer.length = .done b.memory b.length (buffer.length - b.length)

/-- How many bytes a value takes. -/
def encodedSize : (ty : Ty) → ty.Value → Nat
  | .crt t, _ => t.size
  | .vector element nl _, items =>
    nl.size + (List.map (encodedSize element) items).sum
  | .string t nl _, chars => nl.size + List.length chars * t.size

/-- The blobs have elements of one byte, and the bytes of other values can be counted by
an `int`. -/
def Proto.Sized : Proto → Prop
  | .value ty v => encodedSize ty v < 2 ^ 31
  | .blob b => b.size = 1

instance : ∀ p : Proto, Decidable p.Sized
  | .value ty v => inferInstanceAs (Decidable (encodedSize ty v < 2 ^ 31))
  | .blob b => inferInstanceAs (Decidable (b.size = 1))

section RoundTrip
variable {maxSize : Nat}

@[simp] theorem length_wordBytes {t : IntType} (v : t.Word) : (wordBytes v).length = t.size :=
  LittleEndian.length_bytes _ _

theorem word_bytes {t : IntType} (v : t.Word) :
    BitVec.ofNat (8 * t.size) (LittleEndian.value (wordBytes v)) = v := by
  have base : 2 ^ (8 * t.size) = 256 ^ t.size := by rw [Nat.pow_mul]
  apply BitVec.eq_of_toNat_eq
  rw [wordBytes, LittleEndian.value_bytes, ← base, BitVec.toNat_ofNat, Nat.mod_mod,
    Nat.mod_eq_of_lt v.isLt]

theorem takeWord_wordBytes (t : IntType) (v : t.Word) (rest : Bytes) :
    takeWord t (wordBytes v ++ rest) = some (v, rest) := by
  have size := length_wordBytes v
  have front : (wordBytes v ++ rest).take t.size = wordBytes v := by rw [← size, List.take_left]
  have back : (wordBytes v ++ rest).drop t.size = rest := by rw [← size, List.drop_left]
  rw [takeWord, if_neg, front, back, word_bytes]
  rw [List.length_append, size]
  omega

theorem toInt_count {t : IntType} {n : Nat} (signed : t.signed = true) (holds : t.Holds n) :
    (BitVec.ofNat (8 * t.size) n).toInt = n := by
  rw [IntType.Holds, if_pos signed] at holds
  have pos := t.pos
  have double : 2 ^ (8 * t.size) = 2 * 2 ^ (8 * t.size - 1) := by
    rw [← Nat.pow_succ']
    congr 1
    omega
  rw [BitVec.toInt_eq_toNat_cond, BitVec.toNat_ofNat, Nat.mod_eq_of_lt (by omega),
    if_pos (by omega)]

theorem toNat_count {t : IntType} {n : Nat} (unsigned : ¬ t.signed = true) (holds : t.Holds n) :
    (BitVec.ofNat (8 * t.size) n).toNat = n := by
  rw [IntType.Holds, if_neg unsigned] at holds
  rw [BitVec.toNat_ofNat, Nat.mod_eq_of_lt holds]

theorem turns_count {t : IntType} {n : Nat} (holds : t.Holds n) :
    t.turns (BitVec.ofNat _ n) = n := by
  rw [IntType.turns]
  split
  · rename_i signed
    rw [toInt_count signed holds]
    rfl
  · rename_i unsigned
    exact toNat_count unsigned holds

theorem toSize_count {t : IntType} {n : Nat} (holds : t.Holds n) :
    t.toSize (BitVec.ofNat _ n) = n := by
  rw [IntType.toSize]
  split
  · rename_i signed
    have small : n < 2 ^ 64 := by
      have sizes := t.sizes
      rw [IntType.Holds, if_pos signed] at holds
      have room : 2 ^ (8 * t.size - 1) ≤ 2 ^ 64 := Nat.pow_le_pow_right (by omega) (by omega)
      omega
    rw [toInt_count signed holds, BitVec.ofInt_natCast, BitVec.toNat_ofNat, Nat.mod_eq_of_lt small]
  · rename_i unsigned
    exact toNat_count unsigned holds

theorem length_serialize (ty : Ty) (v : ty.Value) :
    (serialize ty v).length = encodedSize ty v := by
  induction ty with
  | crt t => exact length_wordBytes _
  | vector element nl big ih =>
    rw [serialize, encodedSize, List.length_append, length_wordBytes, List.length_flatMap]
    congr 2
    exact List.map_congr_left fun item _ => ih item
  | string t nl big =>
    rw [serialize, encodedSize, List.length_append, length_wordBytes, List.length_flatMap]
    have each : List.map (fun c : t.Word => (wordBytes c).length) v =
        List.map (fun _ => t.size) v := List.map_congr_left fun c _ => length_wordBytes c
    rw [each, List.map_const', List.sum_replicate_nat]

theorem chars_flatMap {t : IntType} (text : List t.Word) :
    chars t text.length (text.flatMap wordBytes) = text := by
  induction text with
  | nil => rfl
  | cons c text ih =>
    have size := length_wordBytes c
    have front : (wordBytes c ++ text.flatMap wordBytes).take t.size = wordBytes c := by
      rw [← size, List.take_left]
    have back : (wordBytes c ++ text.flatMap wordBytes).drop t.size = text.flatMap wordBytes := by
      rw [← size, List.drop_left]
    rw [List.length_cons, List.flatMap_cons, chars, front, back, word_bytes, ih]

/-- What is written is read back, whatever stands behind it. -/
theorem parse_serialize {ty : Ty} {v : ty.Value} (fits : Fits maxSize ty v) (rest : Bytes) :
    parse maxSize ty (fresh ty) (serialize ty v ++ rest) = some (v, rest) ∧
      Tame maxSize ty (serialize ty v ++ rest) := by
  induction ty generalizing rest with
  | crt t => exact ⟨takeWord_wordBytes t v rest, trivial⟩
  | vector element nl big ih =>
    obtain ⟨count, each⟩ := fits
    have items : ∀ (todo done : List element.Value), (∀ item ∈ todo, Fits maxSize element item) →
        parseItems (parse maxSize element (fresh element)) todo.length done
            (todo.flatMap (serialize element) ++ rest) = some (done ++ todo, rest) ∧
          TameItems (Tame maxSize element) (parse maxSize element (fresh element)) todo.length
            (todo.flatMap (serialize element) ++ rest) := by
      intro todo
      induction todo with
      | nil =>
        intro done _
        refine ⟨?_, trivial⟩
        rw [List.append_nil]
        rfl
      | cons item todo more =>
        intro done each
        obtain ⟨here, later⟩ := List.forall_mem_cons.mp each
        obtain ⟨read, tame⟩ := ih here (todo.flatMap (serialize element) ++ rest)
        obtain ⟨reads, tames⟩ := more (done ++ [item]) later
        rw [List.flatMap_cons, List.append_assoc, List.length_cons]
        constructor
        · rw [parseItems, read]
          dsimp only
          rw [reads, List.append_assoc, List.singleton_append]
        · refine ⟨tame, ?_⟩
          rw [read]
          exact tames
    obtain ⟨reads, tames⟩ := items v [] each
    have head := takeWord_wordBytes nl (inOrder big (BitVec.ofNat _ (List.length v)))
      (List.flatMap (serialize element) v ++ rest)
    constructor
    · rw [serialize, parse, List.append_assoc, head]
      dsimp only
      rw [inOrder_inOrder, turns_count count]
      exact reads
    · dsimp only [Tame]
      rw [serialize, List.append_assoc, head]
      dsimp only
      rw [inOrder_inOrder, turns_count count]
      exact tames
  | string t nl big =>
    obtain ⟨count, short⟩ := fits
    have head := takeWord_wordBytes nl (inOrder big (BitVec.ofNat _ (List.length v)))
      (List.flatMap wordBytes v ++ rest)
    have size : (List.flatMap wordBytes v : Bytes).length = t.size * List.length v := by
      have whole := length_serialize (.string t nl big) v
      rw [serialize, encodedSize, List.length_append, length_wordBytes] at whole
      rw [Nat.mul_comm t.size]
      omega
    have room : t.size * List.length v ≤ (List.flatMap wordBytes v ++ rest : Bytes).length := by
      rw [List.length_append, size]
      omega
    constructor
    · rw [serialize, parse, List.append_assoc, head]
      dsimp only
      rw [inOrder_inOrder, toSize_count count, if_neg (by omega), ← size, List.take_left,
        List.drop_left, chars_flatMap]
    · dsimp only [Tame]
      rw [serialize, List.append_assoc, head]
      dsimp only
      rw [inOrder_inOrder, toSize_count count]
      exact fun wraps => absurd wraps.2.1 (Nat.not_lt.mpr room)

theorem int32_add (m n : Int) : int32 (int32 m + n) = int32 (m + n) := by
  simp only [int32, BitVec.toInt_ofInt, Int.bmod_add_bmod]

theorem int32_add_right (m n : Int) : int32 (m + int32 n) = int32 (m + n) := by
  rw [Int.add_comm, int32_add, Int.add_comm]

theorem int32_size (n : Nat) : int32 ((n % 2 ^ 64 : Nat) : Int) = int32 n := by
  simp only [int32, BitVec.toInt_ofInt]
  have same : ((n % 2 ^ 64 : Nat) : Int) % 2 ^ 32 = (n : Int) % 2 ^ 32 := by omega
  rw [← Int.emod_bmod, ← Int.emod_bmod (n : Int)]
  exact congrArg (Int.bmod · _) same

/-- `length` is the size, as an `int`. -/
theorem length_eq (ty : Ty) (v : ty.Value) : length ty v = int32 (encodedSize ty v) := by
  induction ty with
  | crt t =>
    have sizes := t.sizes
    rw [length, encodedSize, int32_eq (by omega) (by omega)]
  | vector element nl big ih =>
    have sums : ∀ (items : List element.Value) (sum : Int),
        items.foldl (fun sum item => int32 (sum + length element item)) (int32 sum) =
          int32 (sum + (items.map (encodedSize element)).sum) := by
      intro items
      induction items with
      | nil =>
        intro sum
        exact congrArg int32 (Int.add_zero sum).symm
      | cons item items more =>
        intro sum
        rw [List.foldl_cons, int32_add, ih, int32_add_right, more, List.map_cons, List.sum_cons]
        congr 1
        push_cast
        ring
    rw [length, sums, encodedSize]
    congr 1
    push_cast
    ring
  | string t nl big =>
    rw [length, encodedSize, int32_size, int32_add, int32_add_right]
    congr 1
    push_cast
    ring

theorem int32_lt (n : Int) : int32 n < 2 ^ 31 := BitVec.toInt_lt

/-- A value of a nested type is read back exactly when its size is an `int`. -/
theorem value_roundTrips {ty : Ty} {v : ty.Value} (fits : Fits maxSize ty v) :
    (Proto.value ty v).RoundTrips maxSize ↔ encodedSize ty v < 2 ^ 31 := by
  rw [Proto.RoundTrips, length_serialize]
  constructor
  · rintro ⟨same, -⟩
    have upper := int32_lt (encodedSize ty v)
    rw [length_eq] at same
    omega
  · intro small
    have size : length ty v = encodedSize ty v := by rw [length_eq, int32_eq (by omega) (by omega)]
    refine ⟨size, ?_⟩
    rintro buffer ⟨rest, rfl⟩ int
    obtain ⟨read, tame⟩ := parse_serialize fits rest
    have agrees := agrees_build maxSize int ty (fresh ty)
    have built := agrees.reads _ List.suffix_rfl tame
    have start : place (serialize ty v ++ rest) (serialize ty v ++ rest) = 0 := Int.sub_self _
    have stop : place (serialize ty v ++ rest) rest = length ty v := by
      rw [place, size, List.length_append, length_serialize]
      omega
    have left : (rest.length : Int) = (serialize ty v ++ rest).length - length ty v := by
      rw [size, List.length_append, length_serialize]
      omega
    rw [start, read, outcome, stop, left] at built
    exact built

/-- What a blob makes of a buffer that starts with what another one wrote. -/
theorem blob_build {b other : Blob} (count : other.count = b.count) {buffer : Bytes}
    (starts : b.serialize <+: buffer) (int : buffer.length < 2 ^ 31) :
    other.build buffer 0 buffer.length = .done (b.serialize ++ other.memory.drop b.count) b.count
      (buffer.length - b.count) := by
  obtain ⟨rest, rfl⟩ := starts
  have written : b.serialize.length = b.count := by
    have some := b.nonempty.1
    have all := Nat.le_mul_of_pos_right b.count some
    rw [Blob.serialize, List.length_take, b.block]
    omega
  have fits : b.count ≤ (b.serialize ++ rest).length := by
    rw [List.length_append, written]
    omega
  have start : (0 : Int) = place (b.serialize ++ rest) (b.serialize ++ rest) :=
    (Int.sub_self _).symm
  have front : (b.serialize ++ rest).take b.count = b.serialize := by
    rw [← written, List.take_left]
  rw [Blob.build, count, if_neg (by omega), start, readAt_place List.suffix_rfl, if_pos fits, front,
    ← start, int32_eq (by omega) (by omega)]
  dsimp only
  rw [Int.zero_add]

/-- The memory of a blob with other bytes behind the first `count`. -/
def Blob.stale (b : Blob) : Blob where
  size := b.size
  count := b.count
  memory := b.memory.take b.count ++ (b.memory.drop b.count).map (· + 1)
  nonempty := b.nonempty
  isInt := b.isInt
  block := by
    rw [List.length_append, List.length_map, ← List.length_append, List.take_append_drop, b.block]

/-- A blob is read back exactly when its elements are bytes. -/
theorem blob_roundTrips (b : Blob) : (Proto.blob b).RoundTrips maxSize ↔ b.size = 1 := by
  have isInt := b.isInt
  have some := b.nonempty
  have block := b.block
  rw [Proto.RoundTrips]
  constructor
  · rintro ⟨-, reads⟩
    have short : b.serialize.length < 2 ^ 31 := by
      rw [Blob.serialize, List.length_take]
      omega
    have built := reads b.stale rfl rfl b.serialize List.prefix_rfl short
    rw [@blob_build b b.stale rfl b.serialize List.prefix_rfl short] at built
    have same : b.serialize ++ b.stale.memory.drop b.count = b.memory := by
      injection built
    by_contra large
    have two : b.count * 2 ≤ b.count * b.size := Nat.mul_le_mul_left _ (by omega)
    have front : (b.memory.take b.count).length = b.count := by
      rw [List.length_take]
      omega
    have back : b.stale.memory.drop b.count = (b.memory.drop b.count).map (· + 1) := by
      conv_lhs => rw [← front, Blob.stale]
      exact List.drop_left
    rw [back, Blob.serialize] at same
    conv_rhs at same => rw [← List.take_append_drop b.count b.memory]
    have moved := List.append_cancel_left same
    obtain ⟨c, tail, eq⟩ := List.exists_cons_of_ne_nil
      (List.length_pos_iff.mp (show 0 < (b.memory.drop b.count).length by
        rw [List.length_drop]
        omega))
    rw [eq, List.map_cons] at moved
    have head := (List.cons.inj moved).1
    revert head
    simp
  · intro one
    have all : b.serialize = b.memory := by
      rw [Blob.serialize, List.take_of_length_le]
      rw [block, one]
      omega
    have size : b.length = b.count := by
      rw [Blob.length, one, Nat.mul_one, int32_size, int32_eq (by omega) (by omega)]
    refine ⟨?_, ?_⟩
    · rw [size, all, block, one, Nat.mul_one]
    · intro other same count buffer starts int
      have none : other.memory.drop b.count = [] := by
        apply List.drop_eq_nil_of_le
        rw [other.block, count, same, one]
        omega
      rw [blob_build count starts int, none, List.append_nil, all, size]

end RoundTrip

/-- A value is read back as it was written exactly when it is sized. -/
theorem roundTrips_iff (maxSize : Nat) (p : Proto) (fits : p.Fits maxSize) :
    p.RoundTrips maxSize ↔ p.Sized := by
  cases p with
  | value ty v => exact value_roundTrips fits
  | blob b => exact blob_roundTrips b

/-- A vector of strings with a count of two bytes, in the other byte order. -/
def nested : Ty := .vector charString ⟨2, false, by decide⟩ true

def greeting : nested.Value := [[104#8, 105#8], [], [33#8]]

theorem roundTrips_greeting : (Proto.value nested greeting).RoundTrips (2 ^ 62) :=
  (roundTrips_iff (2 ^ 62) (.value nested greeting)
    (show Fits (2 ^ 62) nested greeting by decide)).mpr (by decide)

/-- One element of two bytes. -/
def wideBlob : Blob := ⟨2, 1, [1, 2], by decide, by decide, rfl⟩

/-- Its second byte is neither written nor read. -/
theorem wideBlob_not_roundTrips : ¬ (Proto.blob wideBlob).RoundTrips (2 ^ 62) := by
  rintro ⟨same, -⟩
  revert same
  decide

end Serialize
