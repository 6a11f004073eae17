import Cfgd.KeyShape
import Mathlib.Data.List.Forall2
import Mathlib.Data.List.TakeWhile

/-!
# The lines of a payload

`rt_build_jrp` makes a request of each line of a payload. What it does is said
twice: by its loop over the text, and by the lines the text was written from.
-/

namespace Payload

open CText Request

def maxReqSect : Nat := 8
def maxPayloadSize : Nat := maxKeySize + maxValueSize

/-- A request for one line, if its length is in the limits. -/
def lineJrp (line : Bytes) : Option Jrp :=
  if line.length = 0 ∨ maxPayloadSize < line.length then none else rtCreateJrp line

/-- Every request that was built is released. -/
def rtCleanupJrplist (_jrplist : List Jrp) : List Jrp := []

/-- The loop of `rt_build_jrp` after `maxReqSect - room` requests, and what follows it. -/
def rtBuildLoop : Nat → List Jrp → Bytes → Int × List Jrp
  | room, jrplist, cursor =>
    if cursor = [] then ((maxReqSect - room : Nat), jrplist)
    else match room with
      | 0 => (-1, rtCleanupJrplist jrplist)
      | room + 1 =>
        match strstr crlf cursor with
        | none => match lineJrp cursor with
          | none => (-1, rtCleanupJrplist jrplist)
          | some jrp => ((maxReqSect - room : Nat), jrplist ++ [jrp])
        | some (line, rest) => match lineJrp line with
          | none => (-1, rtCleanupJrplist jrplist)
          | some jrp => rtBuildLoop room (jrplist ++ [jrp]) rest

def rtBuildJrp (payload : Bytes) : Int × List Jrp := rtBuildLoop maxReqSect [] payload

/-- A text without CRLF that is not empty. -/
def Line (line : Bytes) : Prop := line ≠ [] ∧ ¬ crlf <:+: line

instance (line : Bytes) : Decidable (Line line) := inferInstanceAs (Decidable (_ ∧ _))

/-- Lines with CRLF between them, and behind the last one when it is closed. -/
def payloadOf : List Bytes → Bool → Bytes
  | [], _ => []
  | [line], closed => line ++ if closed then crlf else []
  | line :: next :: rest, closed => line ++ crlf ++ payloadOf (next :: rest) closed

/-- The text before the first `=`. -/
def keyPart (line : Bytes) : Bytes := line.takeWhile (· ≠ equalSign)

def valuePart (line : Bytes) : Bytes := line.drop ((keyPart line).length + 1)

structure Acceptable (line : Bytes) : Prop where
  filled : keyPart line ≠ []
  short : (keyPart line).length < maxKeySize
  parsed : ∃ segm, rtSeparateSegment (keyPart line) = some segm
  value : equalSign ∈ line → valuePart line ≠ [] ∧ (valuePart line).length < maxValueSize

/-- The request is the line, split at its first `=`. -/
structure Describes (line : Bytes) (jrp : Jrp) : Prop where
  parsed : rtSeparateSegment jrp.dupkey = some jrp.segm
  noEqual : equalSign ∉ jrp.dupkey
  single : equalSign ∉ line → jrp.dupkey = line ∧ jrp.valuestring = none ∧ jrp.dupvalue = []
  pair : equalSign ∈ line → line = jrp.dupkey ++ equalSign :: jrp.dupvalue ∧
    jrp.valuestring = some jrp.dupvalue

section Text

theorem isPrefixOf_crlf {c : UInt8} {text : Bytes} :
    crlf.isPrefixOf (c :: text) = true ↔ c = 13 ∧ ∃ rest, text = 10 :: rest := by
  rw [List.isPrefixOf_iff_prefix]
  constructor
  · rintro ⟨rest, same⟩
    obtain ⟨first, tail⟩ := List.cons.inj same
    exact ⟨first.symm, rest, tail.symm⟩
  · rintro ⟨rfl, rest, rfl⟩
    exact ⟨rest, rfl⟩

theorem noCrlf_cons {c : UInt8} {line : Bytes} (h : ¬ crlf <:+: c :: line) :
    ¬ crlf <:+: line := fun infix_ => h (infix_.trans (List.suffix_cons c line).isInfix)

/-- A line is found up to the CRLF behind it. -/
theorem strstr_line {line : Bytes} (free : ¬ crlf <:+: line) (rest : Bytes) :
    strstr crlf (line ++ crlf ++ rest) = some (line, rest) := by
  induction line with
  | nil => rfl
  | cons c line ih =>
    have other : ¬ crlf.isPrefixOf (c :: (line ++ crlf ++ rest)) = true := by
      rw [isPrefixOf_crlf]
      rintro ⟨rfl, later, same⟩
      cases line with
      | nil => cases same
      | cons d line =>
        obtain ⟨rfl, _⟩ := List.cons.inj same
        exact free ⟨[], line, rfl⟩
    rw [List.cons_append, List.cons_append, strstr, if_neg other, ih (noCrlf_cons free)]
    rfl

theorem strstr_last {line : Bytes} (free : ¬ crlf <:+: line) : strstr crlf line = none := by
  induction line with
  | nil => rfl
  | cons c line ih =>
    have other : ¬ crlf.isPrefixOf (c :: line) = true := by
      rw [List.isPrefixOf_iff_prefix]
      exact fun first => free first.isInfix
    rw [strstr, if_neg other, ih (noCrlf_cons free)]
    rfl

end Text

section Lines

/-- One turn of the loop on a line with CRLF behind it. -/
theorem rtBuildLoop_closed {room : Nat} {jrplist : List Jrp} {line : Bytes}
    (free : ¬ crlf <:+: line) (rest : Bytes) :
    rtBuildLoop (room + 1) jrplist (line ++ crlf ++ rest) = match lineJrp line with
      | none => (-1, [])
      | some jrp => rtBuildLoop room (jrplist ++ [jrp]) rest := by
  have filled : line ++ crlf ++ rest ≠ [] := by simp [crlf]
  rw [rtBuildLoop, if_neg filled, strstr_line free]
  rfl

theorem rtBuildLoop_open {room : Nat} {jrplist : List Jrp} {line : Bytes} (h : Line line) :
    rtBuildLoop (room + 1) jrplist line = match lineJrp line with
      | none => (-1, [])
      | some jrp => ((maxReqSect - room : Nat), jrplist ++ [jrp]) := by
  rw [rtBuildLoop, if_neg h.1, strstr_last h.2]
  rfl

theorem rtBuildLoop_full {jrplist : List Jrp} {cursor : Bytes} (filled : cursor ≠ []) :
    rtBuildLoop 0 jrplist cursor = (-1, []) := by
  rw [rtBuildLoop, if_neg filled]
  rfl

theorem rtBuildLoop_end (room : Nat) (jrplist : List Jrp) :
    rtBuildLoop room jrplist [] = (((maxReqSect - room : Nat) : Int), jrplist) := by
  cases room <;> rfl

theorem payloadOf_ne_nil {line : Bytes} (h : Line line) (rest : List Bytes) (closed : Bool) :
    payloadOf (line :: rest) closed ≠ [] := by
  cases rest with
  | nil => simp [payloadOf, h.1]
  | cons next rest => simp [payloadOf, h.1]

/-- The loop takes the lines in turn; it fails at the first line that is no request
and when there are more lines than room. -/
theorem rtBuildLoop_lines {lines : List Bytes} (each : ∀ line ∈ lines, Line line) (closed : Bool)
    {room : Nat} (inside : room ≤ maxReqSect) (jrplist : List Jrp) :
    rtBuildLoop room jrplist (payloadOf lines closed) =
      if lines.length ≤ room then match lines.mapM lineJrp with
        | none => (-1, [])
        | some jrps => (((maxReqSect - room + lines.length : Nat) : Int), jrplist ++ jrps)
      else (-1, []) := by
  induction lines generalizing room jrplist with
  | nil =>
    simp [payloadOf, rtBuildLoop_end]
  | cons line rest ih =>
    obtain ⟨here, later⟩ := List.forall_mem_cons.mp each
    cases room with
    | zero =>
      simp [rtBuildLoop_full (payloadOf_ne_nil here rest closed)]
    | succ room =>
      have turn : rtBuildLoop (room + 1) jrplist (payloadOf (line :: rest) closed) =
          match lineJrp line with
          | none => (-1, [])
          | some jrp => rtBuildLoop room (jrplist ++ [jrp]) (payloadOf rest closed) := by
        cases rest with
        | nil =>
          cases closed with
          | false =>
            simp only [payloadOf, Bool.false_eq_true, if_false, List.append_nil]
            rw [rtBuildLoop_open here]
            simp only [rtBuildLoop_end]
          | true =>
            have text : payloadOf [line] true = line ++ crlf ++ [] := by simp [payloadOf]
            rw [text, rtBuildLoop_closed here.2]
            rfl
        | cons next rest => rw [payloadOf, rtBuildLoop_closed here.2]
      rw [turn]
      cases jrp : lineJrp line with
      | none => simp [List.mapM_cons, jrp]
      | some jrp =>
        dsimp only
        rw [ih later (by omega), List.mapM_cons, jrp]
        have fits : (line :: rest).length ≤ room + 1 ↔ rest.length ≤ room := by simp
        have count : maxReqSect - room + rest.length =
            maxReqSect - (room + 1) + (line :: rest).length := by
          rw [List.length_cons]
          omega
        simp only [fits, count]
        cases rest.mapM lineJrp <;> simp

end Lines

section Requests

theorem keyPart_of_not_mem {line : Bytes} (h : equalSign ∉ line) : keyPart line = line := by
  rw [keyPart, List.takeWhile_eq_self_iff]
  intro c mem
  have other : c ≠ equalSign := by
    rintro rfl
    exact h mem
  simpa using other

theorem equalSign_not_mem_keyPart (line : Bytes) : equalSign ∉ keyPart line := by
  intro mem
  simpa using List.mem_takeWhile_imp mem

theorem split_line {line : Bytes} (h : equalSign ∈ line) :
    line = keyPart line ++ equalSign :: valuePart line := by
  induction line with
  | nil => cases h
  | cons c rest ih =>
    by_cases here : c = equalSign
    · subst here
      simp [keyPart, valuePart]
    · have later : equalSign ∈ rest := (List.mem_cons.mp h).resolve_left (Ne.symm here)
      have key : keyPart (c :: rest) = c :: keyPart rest := by simp [keyPart, here]
      have value : valuePart (c :: rest) = valuePart rest := by simp [valuePart, key]
      rw [key, value, List.cons_append, ← ih later]

theorem keyPart_eq_iff {line : Bytes} : keyPart line = line ↔ equalSign ∉ line := by
  constructor
  · intro same
    rw [← same]
    exact equalSign_not_mem_keyPart line
  · exact keyPart_of_not_mem

/-- `rt_separate_kv_field` splits the line at the first `=`. -/
theorem rtSeparateKvField_eq (line : Bytes) : rtSeparateKvField line =
    if keyPart line = [] ∨ maxKeySize ≤ (keyPart line).length then none
    else if equalSign ∉ line then some (keyPart line, none)
    else if valuePart line = [] ∨ maxValueSize ≤ (valuePart line).length then none
    else some (keyPart line, some (valuePart line)) := by
  have same : (line.takeWhile (· ≠ equalSign) = line) = (equalSign ∉ line) :=
    propext keyPart_eq_iff
  simp only [rtSeparateKvField, same]
  rfl

/-- An acceptable line is within the limit for a whole line. -/
theorem length_of_acceptable {line : Bytes} (h : Acceptable line) :
    line.length ≤ maxPayloadSize := by
  have key := h.short
  by_cases pair : equalSign ∈ line
  · have value := (h.value pair).2
    rw [split_line pair, List.length_append, List.length_cons, maxPayloadSize]
    omega
  · rw [keyPart_of_not_mem pair] at key
    rw [maxPayloadSize]
    omega

/-- A line is a request exactly if it is acceptable, and then it is the request that
the line describes. -/
theorem rtCreateJrp_iff {line : Bytes} {jrp : Jrp} :
    rtCreateJrp line = some jrp ↔ Acceptable line ∧ Describes line jrp := by
  constructor
  · intro h
    rw [rtCreateJrp, rtSeparateKvField_eq] at h
    by_cases key : keyPart line = [] ∨ maxKeySize ≤ (keyPart line).length
    · rw [if_pos key] at h
      cases h
    · rw [if_neg key] at h
      obtain ⟨filled, short⟩ := not_or.mp key
      by_cases pair : equalSign ∈ line
      · rw [if_neg (not_not.mpr pair)] at h
        by_cases value : valuePart line = [] ∨ maxValueSize ≤ (valuePart line).length
        · rw [if_pos value] at h
          cases h
        · rw [if_neg value] at h
          obtain ⟨filled', short'⟩ := not_or.mp value
          obtain ⟨segm, parsed, rfl⟩ := Option.map_eq_some_iff.mp h
          exact ⟨⟨filled, by omega, ⟨segm, parsed⟩, fun _ => ⟨filled', by omega⟩⟩,
            ⟨parsed, equalSign_not_mem_keyPart line, fun none => absurd pair none,
              fun _ => ⟨split_line pair, rfl⟩⟩⟩
      · rw [if_pos pair] at h
        obtain ⟨segm, parsed, rfl⟩ := Option.map_eq_some_iff.mp h
        exact ⟨⟨filled, by omega, ⟨segm, parsed⟩, fun some => absurd some pair⟩,
          ⟨parsed, equalSign_not_mem_keyPart line,
            fun _ => ⟨keyPart_of_not_mem pair, rfl, rfl⟩, fun some => absurd some pair⟩⟩
  · rintro ⟨acceptable, describes⟩
    have key : ¬ (keyPart line = [] ∨ maxKeySize ≤ (keyPart line).length) := by
      have short := acceptable.short
      rintro (none | long)
      · exact acceptable.filled none
      · omega
    obtain ⟨segm, valuestring, dupkey, dupvalue⟩ := jrp
    rw [rtCreateJrp, rtSeparateKvField_eq, if_neg key]
    by_cases pair : equalSign ∈ line
    · obtain ⟨filled', short'⟩ := acceptable.value pair
      have value : ¬ (valuePart line = [] ∨ maxValueSize ≤ (valuePart line).length) := by
        rintro (none | long)
        · exact filled' none
        · omega
      obtain ⟨whole, stored⟩ := describes.pair pair
      dsimp only at whole stored
      subst stored
      have key' : keyPart line = dupkey := by
        rw [whole, keyPart, List.takeWhile_append_of_pos]
        · simp
        · intro c mem
          have other : c ≠ equalSign := by
            rintro rfl
            exact describes.noEqual mem
          simpa using other
      have value' : valuePart line = dupvalue := by
        rw [valuePart, key', whole]
        simp
      rw [if_neg (not_not.mpr pair), if_neg value, key', value']
      simp [describes.parsed]
    · obtain ⟨rfl, rfl, rfl⟩ := describes.single pair
      rw [if_pos pair, keyPart_of_not_mem pair]
      simp [describes.parsed]

/-- The limit for a whole line says nothing new. -/
theorem lineJrp_eq (line : Bytes) : lineJrp line = rtCreateJrp line := by
  rw [lineJrp]
  split
  · rename_i outside
    cases created : rtCreateJrp line with
    | none => rfl
    | some jrp =>
      have acceptable := (rtCreateJrp_iff.mp created).1
      rcases outside with none | long
      · rw [List.length_eq_zero_iff.mp none] at acceptable
        exact absurd rfl acceptable.filled
      · have bound := length_of_acceptable acceptable
        omega
  · rfl

theorem exists_rtCreateJrp {line : Bytes} (h : Acceptable line) :
    ∃ jrp, rtCreateJrp line = some jrp := by
  obtain ⟨segm, parsed⟩ := h.parsed
  by_cases pair : equalSign ∈ line
  · refine ⟨⟨segm, some (valuePart line), keyPart line, valuePart line⟩,
      rtCreateJrp_iff.mpr ⟨h, ?_⟩⟩
    exact ⟨parsed, equalSign_not_mem_keyPart line, fun none => absurd pair none,
      fun _ => ⟨split_line pair, rfl⟩⟩
  · refine ⟨⟨segm, none, keyPart line, []⟩, rtCreateJrp_iff.mpr ⟨h, ?_⟩⟩
    exact ⟨parsed, equalSign_not_mem_keyPart line,
      fun _ => ⟨keyPart_of_not_mem pair, rfl, rfl⟩, fun some => absurd some pair⟩

theorem exists_forall₂_iff {α β : Type} {R : α → β → Prop} {xs : List α} :
    (∃ ys, List.Forall₂ R xs ys) ↔ ∀ x ∈ xs, ∃ y, R x y := by
  induction xs with
  | nil => exact iff_of_true ⟨[], .nil⟩ nofun
  | cons x xs ih =>
    rw [List.forall_mem_cons, ← ih]
    constructor
    · rintro ⟨ys, each⟩
      cases each with
      | cons here later => exact ⟨⟨_, here⟩, ⟨_, later⟩⟩
    · rintro ⟨⟨y, here⟩, ⟨ys, later⟩⟩
      exact ⟨y :: ys, .cons here later⟩

theorem mapM_eq_some_iff {α β : Type} {f : α → Option β} {xs : List α} {ys : List β} :
    xs.mapM f = some ys ↔ List.Forall₂ (fun x y => f x = some y) xs ys := by
  induction xs generalizing ys with
  | nil => simp [eq_comm]
  | cons x xs ih =>
    rw [List.mapM_cons, List.forall₂_cons_left_iff]
    cases hx : f x with
    | none => simp
    | some y =>
      cases hxs : xs.mapM f with
      | none =>
        have no : ∀ zs, ¬ List.Forall₂ (fun x y => f x = some y) xs zs := by
          intro zs each
          rw [ih.mpr each] at hxs
          cases hxs
        simp [no]
      | some zs =>
        have yes := ih.mp hxs
        constructor
        · intro h
          obtain rfl := Option.some.inj h
          exact ⟨y, zs, rfl, yes, rfl⟩
        · rintro ⟨y', zs', first, later, rfl⟩
          obtain rfl := Option.some.inj first
          obtain rfl := Option.some.inj (hxs.symm.trans (ih.mpr later))
          rfl

/-- What `rt_build_jrp` answers when its lines give these requests. -/
def builtOf : Option (List Jrp) → Int × List Jrp
  | none => (-1, [])
  | some jrps => ((jrps.length : Int), jrps)

/-- What `rt_build_jrp` does with the lines of a payload. -/
theorem rtBuildJrp_lines {lines : List Bytes} (each : ∀ line ∈ lines, Line line) (closed : Bool) :
    rtBuildJrp (payloadOf lines closed) =
      if lines.length ≤ maxReqSect then builtOf (lines.mapM rtCreateJrp) else (-1, []) := by
  have same : lineJrp = rtCreateJrp := funext lineJrp_eq
  rw [rtBuildJrp, rtBuildLoop_lines each closed (Nat.le_refl maxReqSect), same]
  cases built : lines.mapM rtCreateJrp with
  | none => simp [builtOf]
  | some jrps =>
    have length := (mapM_eq_some_iff.mp built).length_eq
    simp [builtOf, length]

/-- A payload of at most eight acceptable lines becomes the list of their requests, any
other payload becomes nothing. -/
theorem build_jrp_lines {lines : List Bytes} (each : ∀ line ∈ lines, Line line) (closed : Bool) :
    (lines.length ≤ maxReqSect ∧ (∀ line ∈ lines, Acceptable line) →
      ∃ jrps, rtBuildJrp (payloadOf lines closed) = ((lines.length : Int), jrps) ∧
        List.Forall₂ Describes lines jrps) ∧
    (¬ (lines.length ≤ maxReqSect ∧ ∀ line ∈ lines, Acceptable line) →
      rtBuildJrp (payloadOf lines closed) = (-1, [])) := by
  rw [rtBuildJrp_lines each closed]
  constructor
  · rintro ⟨few, acceptable⟩
    obtain ⟨jrps, built⟩ := exists_forall₂_iff.mpr fun line mem =>
      exists_rtCreateJrp (acceptable line mem)
    refine ⟨jrps, ?_, built.imp fun _ _ one => (rtCreateJrp_iff.mp one).2⟩
    rw [if_pos few, mapM_eq_some_iff.mpr built, builtOf, built.length_eq]
  · intro bad
    split
    · rename_i few
      cases built : lines.mapM rtCreateJrp with
      | none => rfl
      | some jrps =>
        refine absurd ⟨few, fun line mem => ?_⟩ bad
        obtain ⟨jrp, one⟩ := exists_forall₂_iff.mp ⟨jrps, mapM_eq_some_iff.mp built⟩ line mem
        exact (rtCreateJrp_iff.mp one).1
    · rfl

/-- A write and a read: `d.f.a=1` and `d`. -/
def twoLines : List Bytes := [ofChars ['d', '.', 'f', '.', 'a', '=', '1'], ofChars ['d']]

theorem twoLines_line : ∀ line ∈ twoLines, Line line := by decide

theorem build_jrp_lines_two :
    (twoLines.length ≤ maxReqSect ∧ (∀ line ∈ twoLines, Acceptable line) →
      ∃ jrps, rtBuildJrp (payloadOf twoLines true) = ((twoLines.length : Int), jrps) ∧
        List.Forall₂ Describes twoLines jrps) ∧
    (¬ (twoLines.length ≤ maxReqSect ∧ ∀ line ∈ twoLines, Acceptable line) →
      rtBuildJrp (payloadOf twoLines true) = (-1, [])) :=
  build_jrp_lines twoLines_line true

end Requests

/-! ## Blank lines -/

/-- The second text is the first one with empty lines before, between or after its lines. -/
inductive Blanked : Bytes → Bytes → Prop where
  | stop : Blanked [] []
  | blank {text spaced : Bytes} (later : Blanked text spaced) : Blanked text (crlf ++ spaced)
  | line {line text spaced : Bytes} (h : Line line) (later : Blanked text spaced) :
      Blanked (line ++ crlf ++ text) (line ++ crlf ++ spaced)
  | last {line : Bytes} (h : Line line) (count : Nat) :
      Blanked line (line ++ (List.replicate count crlf).flatten)

/-- No empty line was inserted: at most the last line got the CRLF that it lacked. -/
def NoBlank (text spaced : Bytes) : Prop :=
  spaced = text ∨ (spaced = text ++ crlf ∧ text ≠ [] ∧ ¬ crlf <:+ text)

section Blanks

theorem rtBuildLoop_blank (room : Nat) (jrplist : List Jrp) (spaced : Bytes) :
    rtBuildLoop room jrplist (crlf ++ spaced) = (-1, []) := by
  cases room with
  | zero => exact rtBuildLoop_full (by simp [crlf])
  | succ room =>
    have free : ¬ crlf <:+: ([] : Bytes) := by decide
    have blank : lineJrp [] = none := by simp [lineJrp]
    have turn : rtBuildLoop (room + 1) jrplist ([] ++ crlf ++ spaced) = _ :=
      rtBuildLoop_closed free spaced
    rw [blank] at turn
    exact turn

/-- A text that ends in CRLF and goes on ends as what it goes on with. -/
theorem crlf_suffix_iff {line text : Bytes} (filled : text ≠ []) :
    crlf <:+ line ++ crlf ++ text ↔ crlf <:+ text := by
  constructor
  · intro ends
    rcases List.suffix_or_suffix_of_suffix ends (List.suffix_append _ text) with h | h
    · exact h
    · obtain ⟨before, same⟩ := h
      obtain ⟨front, whole⟩ := ends
      match before, same with
      | [], same =>
        rw [List.nil_append] at same
        exact same ▸ List.suffix_refl _
      | [c], same =>
        obtain ⟨_, rfl⟩ := List.cons.inj same
        have reversed := congrArg List.reverse whole
        simp [crlf] at reversed
      | [c, d], same =>
        obtain ⟨_, tail⟩ := List.cons.inj same
        exact absurd (List.cons.inj tail).2 filled
      | c :: d :: e :: _, same => simp [crlf] at same
  · exact fun ends => ends.trans (List.suffix_append _ text)

theorem noBlank_line {line text spaced : Bytes} :
    NoBlank (line ++ crlf ++ text) (line ++ crlf ++ spaced) ↔ NoBlank text spaced := by
  rw [NoBlank, NoBlank, List.append_right_inj, List.append_assoc (line ++ crlf) text crlf,
    List.append_right_inj]
  have open_iff : (line ++ crlf ++ text ≠ [] ∧ ¬ crlf <:+ line ++ crlf ++ text) ↔
      (text ≠ [] ∧ ¬ crlf <:+ text) := by
    by_cases filled : text = []
    · subst filled
      simp [crlf]
    · rw [crlf_suffix_iff filled]
      simp [filled]
  rw [open_iff]

theorem noBlank_last {line : Bytes} (h : Line line) (count : Nat) :
    NoBlank line (line ++ (List.replicate count crlf).flatten) ↔ count ≤ 1 := by
  have free : ¬ crlf <:+ line := fun ends => h.2 ends.isInfix
  match count with
  | 0 => simp [NoBlank]
  | 1 => simp [NoBlank, h.1, free]
  | count + 2 =>
    have more : (line ++ (List.replicate (count + 2) crlf).flatten).length =
        line.length + (2 * count + 4) := by
      simp [crlf]
      omega
    refine iff_of_false ?_ (by omega)
    rintro (same | ⟨same, _⟩)
    · rw [same] at more
      omega
    · rw [same, List.length_append] at more
      have two : crlf.length = 2 := rfl
      omega

theorem ne_of_accepted {result : Int × List Jrp} (accepted : 0 ≤ result.1) :
    (-1, []) ≠ result := by
  rintro rfl
  exact absurd accepted (by decide)

/-- On an accepted text, blank lines are what the loop cannot stand. -/
theorem rtBuildLoop_blanked {text spaced : Bytes} (blanked : Blanked text spaced) {room : Nat}
    {jrplist : List Jrp} (accepted : 0 ≤ (rtBuildLoop room jrplist text).1) :
    rtBuildLoop room jrplist spaced = rtBuildLoop room jrplist text ↔ NoBlank text spaced := by
  induction blanked generalizing room jrplist with
  | stop => exact iff_of_true rfl (Or.inl rfl)
  | @blank text spaced later ih =>
    have first : ¬ crlf <+: text := by
      rintro ⟨rest, rfl⟩
      exact ne_of_accepted accepted (rtBuildLoop_blank room jrplist rest).symm
    rw [rtBuildLoop_blank]
    refine iff_of_false (ne_of_accepted accepted) ?_
    rintro (same | ⟨same, filled, _⟩)
    · exact first ⟨spaced, same⟩
    · match text, same with
      | [c], same => simp [crlf] at same
      | c :: d :: rest, same =>
        simp only [crlf, List.cons_append, List.cons.injEq] at same
        obtain ⟨rfl, rfl, _⟩ := same
        exact first ⟨rest, rfl⟩
  | @line line text spaced h later ih =>
    rw [noBlank_line]
    cases room with
    | zero =>
      rw [rtBuildLoop_full (by simp [crlf])] at accepted
      exact absurd accepted (by decide)
    | succ room =>
      rw [rtBuildLoop_closed h.2] at accepted ⊢
      rw [rtBuildLoop_closed h.2]
      cases jrp : lineJrp line with
      | none =>
        rw [jrp] at accepted
        exact absurd rfl (ne_of_accepted accepted)
      | some jrp' =>
        rw [jrp] at accepted
        exact ih accepted
  | @last line h count =>
    rw [noBlank_last h]
    cases room with
    | zero =>
      rw [rtBuildLoop_full h.1] at accepted
      exact absurd accepted (by decide)
    | succ room =>
      match count with
      | 0 => simp
      | 1 =>
        have text : line ++ (List.replicate 1 crlf).flatten = line ++ crlf ++ [] := by simp
        refine iff_of_true ?_ (Nat.le_refl 1)
        rw [text, rtBuildLoop_closed h.2, rtBuildLoop_open h]
        cases lineJrp line with
        | none => rfl
        | some jrp => exact rtBuildLoop_end room _
      | count + 2 =>
        have text : line ++ (List.replicate (count + 2) crlf).flatten =
            line ++ crlf ++ (crlf ++ (List.replicate count crlf).flatten) := by
          simp [List.replicate_succ]
        have refused : rtBuildLoop (room + 1) jrplist
            (line ++ (List.replicate (count + 2) crlf).flatten) = (-1, []) := by
          rw [text, rtBuildLoop_closed h.2]
          cases lineJrp line with
          | none => rfl
          | some jrp => exact rtBuildLoop_blank room _ _
        rw [refused]
        exact iff_of_false (ne_of_accepted accepted) (by omega)

/-- Blank lines are ignored only where there are none. -/
theorem blank_lines_iff {text spaced : Bytes} (accepted : 0 ≤ (rtBuildJrp text).1)
    (blanked : Blanked text spaced) : rtBuildJrp spaced = rtBuildJrp text ↔ NoBlank text spaced :=
  rtBuildLoop_blanked blanked accepted

/-- The last line may get its CRLF: `d` becomes `d` CRLF. -/
theorem blank_lines_iff_closed :
    rtBuildJrp (ofChars ['d'] ++ crlf) = rtBuildJrp (ofChars ['d']) ↔
      NoBlank (ofChars ['d']) (ofChars ['d'] ++ crlf) :=
  blank_lines_iff (by decide) (Blanked.last (by decide) 1)

/-- The key `d` behind an empty line is refused. -/
theorem blank_lines_fail : ¬ ∀ text spaced, 0 ≤ (rtBuildJrp text).1 → Blanked text spaced →
    rtBuildJrp spaced = rtBuildJrp text := by
  intro ignored
  have blanked : Blanked (ofChars ['d']) (crlf ++ ofChars ['d']) :=
    .blank (Blanked.last (by decide) 0)
  exact absurd (ignored _ _ (by decide) blanked) (by decide)

end Blanks

end Payload
