import Cfgd.JsonBounds

/-!
# What the parser accepts

On every text the parser comes to an answer. A document that it accepts has the addresses in
the order of the text, one behind the other, no string with a NUL byte in it, and no more
levels than `CJSON_NESTING_LIMIT`.
-/

namespace JsonAccepted

open CText CJson Item JsonText JsonBounds Reading

section Shape
variable {ν : Type}

mutual
/-- The levels of arrays and objects in a document. -/
def nesting : Item ν → Nat
  | .mk _ _ kind child => match kind with
    | .cjsonArray => nestingList child + 1
    | .cjsonObject => nestingList child + 1
    | _ => 0
def nestingList : List (Item ν) → Nat
  | [] => 0
  | c :: rest => max (nesting c) (nestingList rest)
end

theorem nestingList_append (l r : List (Item ν)) :
    nestingList (l ++ r) = max (nestingList l) (nestingList r) := by
  induction l with
  | nil => simp [nestingList]
  | cons c l ih => rw [List.cons_append, nestingList, nestingList, ih, max_assoc]

/-- The strings of an item are C strings. -/
def clean (j : Item ν) : Prop :=
  (∀ name ∈ j.string, 0 ∉ name) ∧ ∀ text, j.kind = .cjsonString text → 0 ∉ text

/-- `size` documents below `depth` levels, with the addresses from `lo` on. -/
structure Built (depth : Nat) (lo size : Nat) (l : List (Item ν)) : Prop where
  addrs : l.flatMap addrs = List.range' lo size
  made : ∀ c ∈ l, Producible c
  clean : ∀ c ∈ l, ∀ x ∈ c.items, clean x
  shallow : depth + nestingList l ≤ cjsonNestingLimit

theorem built_nil {depth lo : Nat} (limit : depth ≤ cjsonNestingLimit) :
    Built depth lo 0 ([] : List (Item ν)) where
  addrs := rfl
  made := nofun
  clean := nofun
  shallow := limit

theorem built_append {depth lo size more : Nat} {l r : List (Item ν)} (h : Built depth lo size l)
    (h' : Built depth (lo + size) more r) : Built depth lo (size + more) (l ++ r) where
  addrs := by rw [List.flatMap_append, h.addrs, h'.addrs, ← List.range'_append_1]
  made c hc := (List.mem_append.mp hc).elim (h.made c) (h'.made c)
  clean c hc := (List.mem_append.mp hc).elim (h.clean c) (h'.clean c)
  shallow := by
    have left := h.shallow
    have right := h'.shallow
    rw [nestingList_append]
    omega

/-- What `parse_value` puts into an item at the address in front of `lo`. -/
structure Value (depth : Nat) (lo size : Nat) (kind : Kind ν) (child : List (Item ν)) : Prop where
  addrs : child.flatMap addrs = List.range' lo size
  made : ∀ a string, Producible (.mk a string kind child)
  clean : ∀ c ∈ child, ∀ x ∈ c.items, JsonAccepted.clean x
  text : ∀ text, kind = .cjsonString text → 0 ∉ text
  shallow : ∀ a string, depth + nesting (.mk a string kind child) ≤ cjsonNestingLimit

theorem nesting_leaf {a : Nat} {string : Option Bytes} {kind : Kind ν}
    (notObject : kind ≠ .cjsonObject) (notArray : kind ≠ .cjsonArray) :
    nesting (.mk a string kind []) = 0 := by
  cases kind with
  | cjsonObject => exact absurd rfl notObject
  | cjsonArray => exact absurd rfl notArray
  | _ => rfl

theorem value_leaf {depth lo : Nat} {kind : Kind ν} (limit : depth ≤ cjsonNestingLimit)
    (text : ∀ text, kind = .cjsonString text → 0 ∉ text) (notObject : kind ≠ .cjsonObject)
    (notArray : kind ≠ .cjsonArray) : Value depth lo 0 kind [] where
  addrs := rfl
  made _ _ := .leaf notObject notArray
  clean := nofun
  text := text
  shallow a string := by
    rw [nesting_leaf notObject notArray]
    exact limit

theorem value_array {depth lo size : Nat} {child : List (Item ν)}
    (h : Built (depth + 1) lo size child) (names : ∀ c ∈ child, c.string = none) :
    Value depth lo size .cjsonArray child where
  addrs := h.addrs
  made _ _ := .array names h.made
  clean := h.clean
  text := nofun
  shallow _ _ := by
    have limit := h.shallow
    simp only [nesting]
    omega

theorem value_object {depth lo size : Nat} {child : List (Item ν)}
    (h : Built (depth + 1) lo size child) (names : ∀ c ∈ child, c.string ≠ none) :
    Value depth lo size .cjsonObject child where
  addrs := h.addrs
  made _ _ := .object names h.made
  clean := h.clean
  text := nofun
  shallow _ _ := by
    have limit := h.shallow
    simp only [nesting]
    omega

theorem built_item {depth lo size : Nat} {kind : Kind ν} {child : List (Item ν)}
    (h : Value depth (lo + 1) size kind child) (string : Option Bytes)
    (name : ∀ name ∈ string, 0 ∉ name) :
    Built depth lo (size + 1) [.mk lo string kind child] where
  addrs := by
    rw [List.flatMap_singleton, addrs_eq, addr_mk, child_mk, h.addrs, List.range'_succ]
  made c hc := by
    rw [List.mem_singleton.mp hc]
    exact h.made lo string
  clean c hc x hx := by
    rw [List.mem_singleton.mp hc, items_eq, List.mem_cons, child_mk, List.mem_flatMap] at hx
    rcases hx with rfl | ⟨d, hd, hx⟩
    · exact ⟨name, h.text⟩
    · exact h.clean d hd x hx
  shallow := by
    have limit := h.shallow lo string
    simp only [nestingList]
    omega

end Shape

section Values
variable {ν : Type} [NumberFormat ν] {content : Bytes}

theorem spells_byte {offset : Nat} {word : Bytes} (h : spells content offset word = true) {k : Nat}
    (inside : k < word.length) : content[offset + k]? = word[k]? := by
  rw [spells, Bool.and_eq_true, decide_eq_true_eq, beq_iff_eq] at h
  obtain ⟨_, same⟩ := h
  conv_rhs => rw [← same]
  rw [List.getElem?_take_of_lt inside, List.getElem?_drop]

/-- A word has no terminator in it, so that the text goes on behind it. -/
theorem spells_inside (terminated : Terminated content) {offset : Nat} {word : Bytes}
    (h : spells content offset word = true) {c : UInt8} (last : word.getLast? = some c)
    (other : c ≠ 0) : offset + word.length < content.length := by
  rw [List.getLast?_eq_getElem?] at last
  have nonempty : 0 < word.length := by
    obtain ⟨inside, _⟩ := List.getElem?_eq_some_iff.mp last
    omega
  have byte := spells_byte h (k := word.length - 1) (by omega)
  rw [last] at byte
  have room := terminated.behind _ _ byte other
  omega

theorem numberByte_nonzero {c : UInt8} (h : numberByte c = true) : c ≠ 0 := by
  rintro rfl
  exact absurd h (by decide)

theorem sound_parseNumber (terminated : Terminated content) (offset : Nat) :
    Sound (fun result => offset < result.2 ∧ result.2 < content.length)
      (parseNumber content offset : Reading (ν × Nat)) := by
  rw [parseNumber]
  generalize copied : ((content.drop offset).take 63).takeWhile numberByte = numberCString
  have within := NumberFormat.within (ν := ν) numberCString
  cases strtod : (NumberFormat.strtod numberCString : ν × Nat) with
  | mk number afterEnd =>
    rw [strtod] at within
    dsimp only at within ⊢
    split
    · exact sound_refused
    · rename_i taken
      have short := numberCString.length_pos_iff.mp (by omega)
      obtain ⟨c, last⟩ := List.getLast?_isSome.mpr short |> Option.isSome_iff_exists.mp
      have number : numberByte c = true := by
        have mem := List.mem_of_getLast? last
        rw [← copied] at mem
        exact List.mem_takeWhile_imp mem
      rw [List.getLast?_eq_getElem?] at last
      obtain ⟨inside, value⟩ := List.getElem?_eq_some_iff.mp last
      obtain ⟨after, split⟩ : numberCString <+: content.drop offset :=
        copied ▸ (List.takeWhile_prefix _).trans (List.take_prefix ..)
      have byte : content[offset + (numberCString.length - 1)]? = some c := by
        rw [← List.getElem?_drop, ← split, List.getElem?_append_left inside, last]
      have room := terminated.behind _ _ byte (numberByte_nonzero number)
      exact ⟨by simp only; omega, by simp only; omega⟩

/-- What `parse_value` makes of the buffer. -/
def ValueRead (content : Bytes) (before : Cursor) (result : Kind ν × List (Item ν) × Cursor) :
    Prop :=
  before.offset < result.2.2.offset ∧ result.2.2.offset < content.length ∧
    result.2.2.depth = before.depth ∧ ∃ size, result.2.2.nextAddr = before.nextAddr + size ∧
      Value before.depth before.nextAddr size result.1 result.2.1

/-- What `parse_array` and `parse_object` make of the buffer; `names` is how the items are
named. -/
def ChildRead (content : Bytes) (names : Option Bytes → Prop) (before : Cursor)
    (result : List (Item ν) × Cursor) : Prop :=
  before.offset < result.2.offset ∧ result.2.offset < content.length ∧
    result.2.depth = before.depth ∧ ∃ size, result.2.nextAddr = before.nextAddr + size ∧
      Built (before.depth + 1) before.nextAddr size result.1 ∧ ∀ c ∈ result.1, names c.string

/-- What the loops of `parse_array` and `parse_object` add to the list; they stop at the closing
bracket. -/
def ItemsRead (content : Bytes) (names : Option Bytes → Prop) (before : Cursor)
    (head : List (Item ν)) (result : List (Item ν) × Cursor) : Prop :=
  before.offset < result.2.offset ∧ result.2.offset + 1 < content.length ∧
    result.2.depth = before.depth ∧ ∃ size more, result.1 = head ++ more ∧
      result.2.nextAddr = before.nextAddr + size ∧
      Built before.depth before.nextAddr size more ∧ ∀ c ∈ more, names c.string

omit [NumberFormat ν] in
/-- One turn of a loop: the item goes to the end of the list, and at a comma the loop goes on. -/
theorem items_turn {names : Option Bytes → Prop} {before behind : Cursor} {head : List (Item ν)}
    {kind : Kind ν} {child : List (Item ν)} {offset : Nat} {result : List (Item ν) × Cursor}
    {size : Nat} (string : Option Bytes) (name : names string)
    (plain : ∀ name ∈ string, 0 ∉ name) (advance : before.offset < offset)
    (depth : behind.depth = before.depth) (next : behind.nextAddr = before.nextAddr + 1 + size)
    (value : Value before.depth (before.nextAddr + 1) size kind child)
    (rest : ItemsRead content names { behind with offset := offset }
      (head ++ [.mk before.nextAddr string kind child]) result) :
    ItemsRead content names before head result := by
  obtain ⟨forward, inside, depths, more, items, list, addr, built, named⟩ := rest
  dsimp only at forward depths addr built
  rw [depth, next, Nat.add_assoc, Nat.add_comm 1] at built
  refine ⟨by omega, inside, depths.trans depth, size + 1 + more,
    .mk before.nextAddr string kind child :: items, ?_, by omega, ?_, ?_⟩
  · rw [list, List.append_assoc, List.singleton_append]
  · exact built_append (built_item value string plain) built
  · exact List.forall_mem_cons.mpr ⟨name, named⟩

variable (ν content)

/-- The functions of the parser with `fuel` turns, on a buffer for which these are enough. -/
structure Reads (fuel : Nat) : Prop where
  value : ∀ before : Cursor, before.offset < content.length → before.depth ≤ cjsonNestingLimit →
    3 * (content.length - before.offset) + 1 ≤ fuel →
      Sound (ValueRead content before) (parseValue content fuel before : Reading (Kind ν × _))
  array : ∀ before : Cursor, before.offset < content.length →
    3 * (content.length - before.offset) ≤ fuel →
      Sound (ChildRead content (· = none) before)
        (parseArray content fuel before : Reading (List (Item ν) × _))
  elements : ∀ (before : Cursor) (head : List (Item ν)), before.offset + 1 < content.length →
    before.depth ≤ cjsonNestingLimit → 3 * (content.length - before.offset) ≤ fuel + 1 →
      Sound (ItemsRead content (· = none) before head) (parseElements content fuel before head)
  object : ∀ before : Cursor, before.offset < content.length →
    3 * (content.length - before.offset) ≤ fuel →
      Sound (ChildRead content (· ≠ none) before)
        (parseObject content fuel before : Reading (List (Item ν) × _))
  members : ∀ (before : Cursor) (head : List (Item ν)), before.offset + 1 < content.length →
    before.depth ≤ cjsonNestingLimit → 3 * (content.length - before.offset) ≤ fuel + 1 →
      Sound (ItemsRead content (· ≠ none) before head) (parseMembers content fuel before head)

variable {ν content} {fuel : Nat} {before : Cursor}

omit [NumberFormat ν] in
theorem reads_leaf {kind : Kind ν} {offset : Nat} (limit : before.depth ≤ cjsonNestingLimit)
    (forward : before.offset < offset) (inside : offset < content.length)
    (text : ∀ text, kind = .cjsonString text → 0 ∉ text) (notObject : kind ≠ .cjsonObject)
    (notArray : kind ≠ .cjsonArray) :
    Sound (ValueRead content before) (.done (kind, [], { before with offset := offset })) :=
  ⟨forward, inside, rfl, 0, rfl, value_leaf limit text notObject notArray⟩

theorem reads_value (terminated : Terminated content) (h : Reads ν content fuel)
    (inside : before.offset < content.length) (limit : before.depth ≤ cjsonNestingLimit)
    (turns : 3 * (content.length - before.offset) + 1 ≤ fuel + 1) :
    Sound (ValueRead content before)
      (parseValue content (fuel + 1) before : Reading (Kind ν × _)) := by
  rw [parseValue]
  split
  · rename_i word
    have room := spells_inside terminated word rfl (by decide)
    exact reads_leaf limit (Nat.lt_add_of_pos_right (by decide)) room nofun nofun nofun
  · split
    · rename_i word
      have room := spells_inside terminated word rfl (by decide)
      exact reads_leaf limit (Nat.lt_add_of_pos_right (by decide)) room nofun nofun nofun
    · split
      · rename_i word
        have room := spells_inside terminated word rfl (by decide)
        exact reads_leaf limit (Nat.lt_add_of_pos_right (by decide)) room nofun nofun nofun
      · split
        · exact sound_refused
        · rename_i c first
          split
          · refine sound_bind (sound_parseString terminated inside) fun read found => ?_
            obtain ⟨forward, room, plain⟩ := found
            exact reads_leaf limit forward room (fun text same => Kind.cjsonString.inj same ▸ plain)
              nofun nofun
          · split
            · refine sound_bind (sound_parseNumber terminated before.offset) fun read found => ?_
              exact reads_leaf limit found.1 found.2 nofun nofun nofun
            · split
              · refine sound_bind (h.array before inside (by omega)) fun read found => ?_
                obtain ⟨forward, room, depth, size, next, built, names⟩ := found
                exact ⟨forward, room, depth, size, next, value_array built names⟩
              · split
                · refine sound_bind (h.object before inside (by omega)) fun read found => ?_
                  obtain ⟨forward, room, depth, size, next, built, names⟩ := found
                  exact ⟨forward, room, depth, size, next, value_object built names⟩
                · exact sound_refused

omit [NumberFormat ν] in
/-- What stands between the brackets, when the loop has found the closing one. -/
theorem childRead_of_items {names : Option Bytes → Prop} {offset : Nat}
    {result : List (Item ν) × Cursor} (back : before.offset ≤ offset)
    (h : ItemsRead content names { before with offset := offset, depth := before.depth + 1 } []
      result) :
    ChildRead content names before
      (result.1, { result.2 with offset := result.2.offset + 1, depth := result.2.depth - 1 }) := by
  obtain ⟨forward, room, depth, size, more, list, next, built, named⟩ := h
  rw [List.nil_append] at list
  dsimp only at forward depth
  refine ⟨by simp only; omega, room, by simp only; omega, size, next, ?_, ?_⟩
  · rw [list]
    exact built
  · rw [list]
    exact named

theorem reads_array (terminated : Terminated content) (h : Reads ν content fuel)
    (inside : before.offset < content.length)
    (turns : 3 * (content.length - before.offset) ≤ fuel + 1) :
    Sound (ChildRead content (· = none) before)
      (parseArray content (fuel + 1) before : Reading (List (Item ν) × _)) := by
  rw [parseArray]
  split
  · exact sound_refused
  · rename_i deep
    refine sound_bind (sound_byteAt inside) fun c read => ?_
    split
    · exact sound_refused
    · rename_i bracket
      obtain rfl := Classical.not_not.mp bracket
      have room := terminated.behind _ _ read (by decide)
      obtain ⟨forward, short⟩ := bufferSkipWhitespace_bounds room
      dsimp only
      split
      · rename_i close
        have room' := terminated.behind _ _ close (by decide)
        exact ⟨by simp only; omega, room', rfl, 0, rfl, built_nil (by omega), nofun⟩
      · split
        · exact sound_refused
        · refine sound_bind (h.elements _ [] ?_ ?_ ?_) fun result items =>
            childRead_of_items ?_ items
          · simp only
            omega
          · simp only
            omega
          · simp only
            omega
          · omega

theorem reads_object (terminated : Terminated content) (h : Reads ν content fuel)
    (turns : 3 * (content.length - before.offset) ≤ fuel + 1) :
    Sound (ChildRead content (· ≠ none) before)
      (parseObject content (fuel + 1) before : Reading (List (Item ν) × _)) := by
  rw [parseObject]
  split
  · exact sound_refused
  · rename_i deep
    split
    · exact sound_refused
    · rename_i bracket
      have room := terminated.behind _ _ (Classical.not_not.mp bracket) (by decide)
      obtain ⟨forward, short⟩ := bufferSkipWhitespace_bounds room
      dsimp only
      split
      · rename_i close
        have room' := terminated.behind _ _ close (by decide)
        exact ⟨by simp only; omega, room', rfl, 0, rfl, built_nil (by omega), nofun⟩
      · split
        · exact sound_refused
        · refine sound_bind (h.members _ [] ?_ ?_ ?_) fun result items =>
            childRead_of_items ?_ items
          · simp only
            omega
          · simp only
            omega
          · simp only
            omega
          · omega

theorem reads_elements (terminated : Terminated content) (h : Reads ν content fuel)
    (head : List (Item ν)) (inside : before.offset + 1 < content.length)
    (limit : before.depth ≤ cjsonNestingLimit)
    (turns : 3 * (content.length - before.offset) ≤ fuel + 2) :
    Sound (ItemsRead content (· = none) before head)
      (parseElements content (fuel + 1) before head) := by
  rw [parseElements]
  obtain ⟨forward, short⟩ := bufferSkipWhitespace_bounds inside
  dsimp only
  refine sound_bind (h.value _ short limit (by simp only; omega)) fun read found => ?_
  obtain ⟨kind, child, behind⟩ := read
  obtain ⟨further, room, depth, size, next, value⟩ := found
  dsimp only at further room depth next value ⊢
  obtain ⟨forward', short'⟩ := bufferSkipWhitespace_bounds room
  split
  · rename_i comma
    have room' := terminated.behind _ _ comma (by decide)
    refine sound_mono (fun result rest => ?_)
      (h.elements _ _ room' (by simp only; omega) (by simp only; omega))
    exact items_turn none rfl nofun (by omega) depth next value rest
  · split
    · rename_i close
      have room' := terminated.behind _ _ close (by decide)
      refine ⟨by simp only; omega, room', depth, size + 1, _, rfl, by simp only; omega,
        built_item value none nofun, ?_⟩
      simp
    · exact sound_refused

theorem reads_members (terminated : Terminated content) (h : Reads ν content fuel)
    (head : List (Item ν)) (inside : before.offset + 1 < content.length)
    (limit : before.depth ≤ cjsonNestingLimit)
    (turns : 3 * (content.length - before.offset) ≤ fuel + 2) :
    Sound (ItemsRead content (· ≠ none) before head)
      (parseMembers content (fuel + 1) before head) := by
  rw [parseMembers]
  obtain ⟨forward, short⟩ := bufferSkipWhitespace_bounds inside
  dsimp only
  refine sound_bind (sound_parseString terminated short) fun read found => ?_
  obtain ⟨name, behindName⟩ := read
  obtain ⟨further, room, plain⟩ := found
  dsimp only at further room plain ⊢
  obtain ⟨forward', short'⟩ := bufferSkipWhitespace_bounds room
  split
  · exact sound_refused
  · rename_i colon
    have room' := terminated.behind _ _ (Classical.not_not.mp colon) (by decide)
    obtain ⟨forward'', short''⟩ := bufferSkipWhitespace_bounds room'
    refine sound_bind (h.value _ short'' limit (by simp only; omega)) fun read found => ?_
    obtain ⟨kind, child, behind⟩ := read
    obtain ⟨further', room'', depth, size, next, value⟩ := found
    dsimp only at further' room'' depth next value ⊢
    obtain ⟨forward₃, short₃⟩ := bufferSkipWhitespace_bounds room''
    split
    · rename_i comma
      have room₃ := terminated.behind _ _ comma (by decide)
      refine sound_mono (fun result rest => items_turn _ nofun (by simpa using plain) (by omega)
        depth next value rest) (h.members _ _ room₃ (by simp only; omega) (by simp only; omega))
    · split
      · rename_i close
        have room₃ := terminated.behind _ _ close (by decide)
        refine ⟨by simp only; omega, room₃, depth, size + 1, _, rfl, by simp only; omega,
          built_item value _ (by simpa using plain), ?_⟩
        simp
      · exact sound_refused

/-- The turns that a call hands on are enough for the calls in it. -/
theorem reads (terminated : Terminated content) (fuel : Nat) : Reads ν content fuel := by
  induction fuel with
  | zero =>
    refine ⟨?_, ?_, ?_, ?_, ?_⟩
    · intro before inside limit turns
      omega
    · intro before inside turns
      omega
    · intro before head inside limit turns
      omega
    · intro before inside turns
      omega
    · intro before head inside limit turns
      omega
  | succ fuel ih =>
    refine ⟨?_, ?_, ?_, ?_, ?_⟩
    · intro before inside limit turns
      exact reads_value terminated ih inside limit turns
    · intro before inside turns
      exact reads_array terminated ih inside turns
    · intro before head inside limit turns
      exact reads_elements terminated ih head inside limit turns
    · intro before inside turns
      exact reads_object terminated ih turns
    · intro before head inside limit turns
      exact reads_members terminated ih head inside limit turns

end Values

section Documents
variable {ν : Type} [NumberFormat ν]

/-- A document as the parser makes it, from the address `lo` on. -/
structure Accepted (lo next : Nat) (D : Item ν) : Prop where
  addrs : D.addrs = List.range' lo (next - lo)
  made : Producible D
  root : D.string = none
  clean : ∀ x ∈ D.items, clean x
  shallow : nesting D ≤ cjsonNestingLimit

theorem sound_cjsonParse (nextAddr : Nat) (value : Bytes) :
    Sound (fun result : Item ν × Addr => nextAddr < result.2 ∧ Accepted nextAddr result.2 result.1)
      (cjsonParse nextAddr value) := by
  have terminated := terminated_bufferOf value
  have bom : skipUtf8Bom (bufferOf value) < (bufferOf value).length := by
    have ends := List.length_pos_iff.mpr terminated.ends
    rw [skipUtf8Bom]
    split
    · omega
    · exact ends
  obtain ⟨_, short⟩ := bufferSkipWhitespace_bounds bom
  rw [cjsonParse]
  dsimp only
  refine sound_bind ((reads terminated _).value _ short (Nat.zero_le _) (by simp only; omega))
    fun read found => ?_
  obtain ⟨kind, child, behind⟩ := read
  obtain ⟨_, _, _, size, next, value⟩ := found
  have built := built_item value none nofun
  dsimp only at next built ⊢
  have sizes : behind.nextAddr - nextAddr = size + 1 := by omega
  refine ⟨by simp only; omega, ?_, built.made _ (List.mem_singleton_self _), rfl,
    built.clean _ (List.mem_singleton_self _), ?_⟩
  · have addrs := built.addrs
    rw [List.flatMap_singleton] at addrs
    simp only [addrs, sizes]
  · have limit := built.shallow
    simp only [nestingList] at limit
    simp only
    omega

/-- On every text `cJSON_Parse` comes to an end without a wrong access, and refuses it or
makes a document with fresh addresses, the shape of JSON, C strings and few levels. -/
theorem cjsonParse_accepts (nextAddr : Nat) (value : Bytes) :
    (cjsonParse nextAddr value : Reading (Item ν × Addr)) = .refused ∨
      ∃ D next, (cjsonParse nextAddr value : Reading (Item ν × Addr)) = .done (D, next) ∧
        nextAddr < next ∧ Accepted nextAddr next D := by
  rcases sound_iff.mp (sound_cjsonParse (ν := ν) nextAddr value) with
    refused | ⟨⟨D, next⟩, done, made⟩
  · exact Or.inl refused
  · exact Or.inr ⟨D, next, done, made⟩

end Documents

end JsonAccepted
