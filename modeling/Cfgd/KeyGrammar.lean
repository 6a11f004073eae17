import Cfgd.KeyText

/-!
# The grammar of keys

What a key is, said without the parser: parts between dots, each a name or a name
with an index in brackets. The numbers are read by a function that is a parameter:
`atoi` gives the keys that `rt_separate_segment` accepts, the mathematical value
those it should accept.
-/

namespace KeyGrammar

open CText Request KeyShape KeyText

/-- What stands between two dots. -/
inductive Part where
  | plain (name : Bytes)
  | item (name range : Bytes)
  deriving DecidableEq

namespace Part

def name : Part → Bytes
  | .plain name => name
  | .item name _ => name

def text : Part → Bytes
  | .plain name => name
  | .item name range => name ++ leftBracket :: range ++ [rightBracket]

def isPlain : Part → Bool
  | .plain _ => true
  | .item _ _ => false

def isEntire (part : Part) : Bool := part = .item part.name [jaCodeEntire]

end Part

/-- `$`, `?`, `+` or `*`. -/
def IsSymbol (range : Bytes) : Prop :=
  range = [jaCodeLast] ∨ range = [jaCodeQuerySize] ∨ range = [jaCodeAdd] ∨
    range = [jaCodeEntire]

instance (range : Bytes) : Decidable (IsSymbol range) :=
  inferInstanceAs (Decidable (_ ∨ _))

def IsNumber (range : Bytes) : Prop := range ≠ [] ∧ range.all isdigit = true

instance (range : Bytes) : Decidable (IsNumber range) :=
  inferInstanceAs (Decidable (_ ∧ _))

/-- The number that decimal digits denote. -/
def decimal (range : Bytes) : Int :=
  (range.foldl (fun n c => 10 * n + (c.toNat - 48)) 0 : Nat)

def indexOf (number : Bytes → Int) : Part → Int
  | .plain _ => -1
  | .item _ range =>
    if IsSymbol range then jaCodeToSymbol (range.headD 0) else number range

def BracketFree (name : Bytes) : Prop := name ≠ [] ∧ leftBracket ∉ name ∧ rightBracket ∉ name

instance (name : Bytes) : Decidable (BracketFree name) :=
  inferInstanceAs (Decidable (_ ∧ _))

def Shaped (number : Bytes → Int) : Part → Prop
  | .plain name => BracketFree name
  | .item name range => BracketFree name ∧
    (IsSymbol range ∨ (IsNumber range ∧ 0 ≤ number range ∧ number range < maxArySize))

instance (number : Bytes → Int) : ∀ part, Decidable (Shaped number part)
  | .plain name => inferInstanceAs (Decidable (BracketFree name))
  | .item _ _ => inferInstanceAs (Decidable (_ ∧ (_ ∨ _)))

/-- One to ten parts, shorter than the limit and free of dots, of which the first two
have no index and only the last may be `[*]`. -/
structure Grammatical (number : Bytes → Int) (parts : List Part) : Prop where
  some : parts ≠ []
  few : parts.length ≤ maxDepthReq
  shaped : ∀ part ∈ parts, Shaped number part
  short : ∀ part ∈ parts, part.text.length < maxPreSegSize
  noDot : ∀ part ∈ parts, dot ∉ part.text
  levels : ∀ part ∈ parts.take 2, part.isPlain = true
  single : ∀ part ∈ parts.dropLast, part.isEntire = false

def keyOf (parts : List Part) : Bytes := [dot].intercalate (parts.map Part.text)

def levelOf (count depth : Nat) (part : Part) : Jsl :=
  match depth with
  | 0 => .dir
  | 1 => .archive
  | depth + 2 =>
    if part.isPlain then if depth + 3 = count then .field else .logicScope else .array

def segmentsOf (number : Bytes → Int) (parts : List Part) : List Segment :=
  parts.mapIdx fun depth part => ⟨part.name, indexOf number part, levelOf parts.length depth part⟩

/-- The key has the segments that its parts say. -/
def Spells (number : Bytes → Int) (key : Bytes) (segms : List Segment) : Prop :=
  ∃ parts, Grammatical number parts ∧ key = keyOf parts ∧ segms = segmentsOf number parts

section Pieces

theorem rtIsArraySyntax_plain {piece : Bytes} :
    rtIsArraySyntax piece = .no ↔ leftBracket ∉ piece ∧ rightBracket ∉ piece := by
  simp only [rtIsArraySyntax]
  split
  · rename_i none
    exact iff_of_true rfl ⟨List.count_eq_zero.mp none.1, List.count_eq_zero.mp none.2⟩
  · rename_i some
    constructor
    · intro no
      split at no <;> cases no
    · rintro ⟨noLeft, noRight⟩
      exact absurd ⟨List.count_eq_zero.mpr noLeft, List.count_eq_zero.mpr noRight⟩ some

/-- A piece with brackets is a name and a range, both without brackets. -/
theorem rtIsArraySyntax_yes {piece name range : Bytes} :
    rtIsArraySyntax piece = .yes name range ↔ BracketFree name ∧ BracketFree range ∧
      piece = name ++ leftBracket :: range ++ [rightBracket] := by
  constructor
  · intro yes
    simp only [rtIsArraySyntax] at yes
    split at yes
    · cases yes
    · split at yes
      · rename_i ok
        obtain ⟨one, one', named, filled, shape⟩ := ok
        obtain ⟨rfl, rfl⟩ := ArraySyntax.yes.inj yes
        have apart : (rightBracket == leftBracket) = false := rfl
        have apart' : (leftBracket == rightBracket) = false := rfl
        rw [shape] at one one'
        simp only [List.count_append, List.count_cons, List.count_nil, apart, apart',
          beq_self_eq_true] at one one'
        refine ⟨⟨named, ?_, ?_⟩, ⟨filled, ?_, ?_⟩, shape⟩ <;>
          apply List.count_eq_zero.mp <;> grind
      · cases yes
  · rintro ⟨⟨named, noLeft, noRight⟩, ⟨filled, noLeft', noRight'⟩, rfl⟩
    exact rtIsArraySyntax_item named noLeft noRight filled noLeft' noRight'

theorem isSymbol_singleton {code : UInt8} : IsSymbol [code] ↔
    code = jaCodeLast ∨ code = jaCodeQuerySize ∨ code = jaCodeAdd ∨ code = jaCodeEntire := by
  simp [IsSymbol]

theorem rtAnalysisArraySyntax_yes {piece name range : Bytes}
    (h : rtIsArraySyntax piece = .yes name range) :
    rtAnalysisArraySyntax piece =
      if IsSymbol range then some (name, jaCodeToSymbol (range.headD 0))
      else rtAnalysisArraySyntax.rtNumericIndex name range := by
  rw [rtAnalysisArraySyntax, h]
  split
  · rename_i error
    cases error
  · rename_i no
    cases no
  · rename_i left code yes
    obtain ⟨rfl, rfl⟩ := ArraySyntax.yes.inj yes
    simp only [isSymbol_singleton]
    rfl
  · rename_i left inner long yes
    obtain ⟨rfl, rfl⟩ := ArraySyntax.yes.inj yes
    have other : ¬ IsSymbol range := by
      rintro (h | h | h | h) <;> exact long _ (by rw [h])
    rw [if_neg other]

theorem rtNumericIndex_iff {left range name : Bytes} {index : Int} (filled : range ≠ []) :
    rtAnalysisArraySyntax.rtNumericIndex left range = some (name, index) ↔
      (IsNumber range ∧ 0 ≤ atoi range ∧ atoi range < maxArySize) ∧
        left = name ∧ atoi range = index := by
  rw [rtAnalysisArraySyntax.rtNumericIndex, IsNumber]
  split
  · rename_i digits
    split
    · rename_i outside
      constructor
      · intro h
        cases h
      · rintro ⟨⟨_, lower, upper⟩, _⟩
        omega
    · rename_i inside
      have lower : 0 ≤ atoi range := by omega
      have upper : atoi range < maxArySize := by omega
      simp [filled, digits, lower, upper]
  · rename_i other
    constructor
    · intro h
      cases h
    · rintro ⟨⟨⟨_, digits⟩, _⟩, _⟩
      exact absurd digits other

theorem symbol_bracketFree {range : Bytes} (h : IsSymbol range) : BracketFree range := by
  rcases h with rfl | rfl | rfl | rfl <;> decide

theorem number_bracketFree {range : Bytes} (h : IsNumber range) : BracketFree range :=
  have free := bracket_free h.2
  ⟨h.1, free.1, free.2.1⟩

theorem rtIsArraySyntax_text {number : Bytes → Int} {part : Part} (shaped : Shaped number part) :
    rtIsArraySyntax part.text = match part with
      | .plain _ => .no
      | .item name range => .yes name range := by
  cases part with
  | plain name => exact rtIsArraySyntax_plain.mpr shaped.2
  | item name range =>
    obtain ⟨free, symbol | ⟨digits, _⟩⟩ := shaped
    · exact rtIsArraySyntax_yes.mpr ⟨free, symbol_bracketFree symbol, rfl⟩
    · exact rtIsArraySyntax_yes.mpr ⟨free, number_bracketFree digits, rfl⟩

/-- `rt_analysis_array_syntax` takes a piece apart as the grammar does. -/
theorem rtAnalysisArraySyntax_iff {piece name : Bytes} {index : Int} (filled : piece ≠ []) :
    rtAnalysisArraySyntax piece = some (name, index) ↔
      ∃ part, part.text = piece ∧ Shaped atoi part ∧ part.name = name ∧
        indexOf atoi part = index := by
  constructor
  · intro h
    cases syntaxes : rtIsArraySyntax piece with
    | error =>
      rw [rtAnalysisArraySyntax, syntaxes] at h
      cases h
    | no =>
      rw [rtAnalysisArraySyntax, syntaxes] at h
      obtain ⟨rfl, rfl⟩ := Prod.mk.inj (Option.some.inj h)
      exact ⟨.plain piece, rfl, ⟨filled, rtIsArraySyntax_plain.mp syntaxes⟩, rfl, rfl⟩
    | yes left range =>
      obtain ⟨free, free', rfl⟩ := rtIsArraySyntax_yes.mp syntaxes
      rw [rtAnalysisArraySyntax_yes syntaxes] at h
      refine ⟨.item left range, rfl, ?_⟩
      by_cases symbol : IsSymbol range
      · rw [if_pos symbol] at h
        obtain ⟨rfl, rfl⟩ := Prod.mk.inj (Option.some.inj h)
        exact ⟨⟨free, Or.inl symbol⟩, rfl, if_pos symbol⟩
      · rw [if_neg symbol, rtNumericIndex_iff free'.1] at h
        obtain ⟨digits, rfl, rfl⟩ := h
        exact ⟨⟨free, Or.inr digits⟩, rfl, if_neg symbol⟩
  · rintro ⟨part, rfl, shaped, rfl, rfl⟩
    have syntaxes := rtIsArraySyntax_text shaped
    cases part with
    | plain name =>
      rw [rtAnalysisArraySyntax, syntaxes]
      rfl
    | item name range =>
      rw [rtAnalysisArraySyntax_yes syntaxes, indexOf]
      by_cases symbol : IsSymbol range
      · rw [if_pos symbol, if_pos symbol]
        rfl
      · have digits := shaped.2.resolve_left symbol
        rw [if_neg symbol, if_neg symbol, rtNumericIndex_iff digits.1.1]
        exact ⟨digits, rfl, rfl⟩

end Pieces

section Loop

/-- A segment as the loop of the parser leaves it. -/
def loopSegment (depth : Nat) (part : Part) : Segment :=
  ⟨part.name, indexOf atoi part, match depth with
    | 0 => .dir
    | 1 => .archive
    | _ => if part.isPlain then .logicScope else .array⟩

theorem indexOf_neg {part : Part} (shaped : Shaped atoi part) :
    indexOf atoi part < 0 ↔ part.isPlain = true := by
  cases part with
  | plain name =>
    refine iff_of_true ?_ rfl
    exact Int.negSucc_lt_zero 0
  | item name range =>
    refine iff_of_false ?_ Bool.false_ne_true
    rw [indexOf]
    split
    · have lower := jaCodeToSymbol_nonneg (range.headD 0)
      omega
    · rename_i other
      have lower := (shaped.2.resolve_left other).2.1
      omega

theorem rtAnalyzeSegment_iff {piece : Bytes} {depth : Nat} {segm : Segment}
    (filled : piece ≠ []) : rtAnalyzeSegment piece depth = some segm ↔
      ∃ part, part.text = piece ∧ Shaped atoi part ∧ (depth < 2 → part.isPlain = true) ∧
        loopSegment depth part = segm := by
  have analyzed : ∀ part, Shaped atoi part → part.text = piece →
      rtAnalyzeSegment piece depth =
        if depth < 2 ∧ part.isPlain = false then none else some (loopSegment depth part) := by
    intro part shaped text
    have parts := (rtAnalysisArraySyntax_iff filled).mpr ⟨part, text, shaped, rfl, rfl⟩
    have sign := indexOf_neg shaped
    simp only [rtAnalyzeSegment, parts, sign]
    rcases depth with _ | _ | depth
    · cases plain : part.isPlain <;> simp [loopSegment]
    · cases plain : part.isPlain <;> simp [loopSegment]
    · have deep : ¬ (depth + 1 + 1 < 2 ∧ part.isPlain = false) := by omega
      rw [if_neg deep]
      rfl
  constructor
  · intro h
    cases parts : rtAnalysisArraySyntax piece with
    | none => simp [rtAnalyzeSegment, parts] at h
    | some found =>
      obtain ⟨part, text, shaped, _, _⟩ := (rtAnalysisArraySyntax_iff filled).mp parts
      rw [analyzed part shaped text] at h
      split at h
      · cases h
      · rename_i level
        refine ⟨part, text, shaped, ?_, Option.some.inj h⟩
        intro shallow
        simpa using fun indexed => level ⟨shallow, indexed⟩
  · rintro ⟨part, text, shaped, level, rfl⟩
    have level' : ¬ (depth < 2 ∧ part.isPlain = false) := by
      rintro ⟨shallow, indexed⟩
      rw [level shallow] at indexed
      cases indexed
    rw [analyzed part shaped text, if_neg level']

theorem text_ne_nil {number : Bytes → Int} {part : Part} (shaped : Shaped number part) :
    part.text ≠ [] := by
  cases part with
  | plain name => exact shaped.1
  | item name range => simp [Part.text]

/-- The test of the loop on the segment before. -/
def isEntireSegment (segm : Segment) : Bool := segm.jsl = .array ∧ segm.index = jaSymEntire

theorem isEntireSegment_loopSegment {depth : Nat} {part : Part} (shaped : Shaped atoi part)
    (level : depth < 2 → part.isPlain = true) :
    isEntireSegment (loopSegment depth part) = part.isEntire := by
  cases part with
  | plain name =>
    have plain : (loopSegment depth (.plain name)).jsl ≠ .array := by
      match depth with
      | 0 => nofun
      | 1 => nofun
      | depth + 2 => nofun
    simp [isEntireSegment, plain, Part.isEntire]
  | item name range =>
    have array : (loopSegment depth (.item name range)).jsl = .array := by
      match depth with
      | 0 => cases level (by omega)
      | 1 => cases level (by omega)
      | depth + 2 => rfl
    have index : indexOf atoi (.item name range) = jaSymEntire ↔ range = [jaCodeEntire] := by
      rw [indexOf]
      by_cases symbol : IsSymbol range
      · rw [if_pos symbol]
        rcases symbol with rfl | rfl | rfl | rfl <;> decide
      · rw [if_neg symbol]
        obtain ⟨_, lower, upper⟩ := shaped.2.resolve_left symbol
        have big : maxArySize < jaSymEntire := by decide
        constructor
        · intro h
          omega
        · rintro rfl
          exact absurd (Or.inr (Or.inr (Or.inr rfl))) symbol
    simp only [isEntireSegment, array, true_and, Part.isEntire, Part.name, Part.item.injEq]
    exact decide_eq_decide.mpr index

/-- What the loop asks of the parts from `depth` on; `entire` says that the part
before them is `[*]`. -/
def LoopTakes : Nat → Bool → List Part → Prop
  | _, _, [] => True
  | depth, entire, part :: rest =>
    entire = false ∧ depth < maxDepthReq ∧ part.text.length < maxPreSegSize ∧
      Shaped atoi part ∧ (depth < 2 → part.isPlain = true) ∧
      LoopTakes (depth + 1) part.isEntire rest

theorem rtSeparateLoop_iff {depth : Nat} {previous : Option Segment} {pieces : List Bytes}
    {segms : List Segment} : rtSeparateLoop depth previous pieces = some segms ↔
      ∃ parts : List Part, parts.map Part.text = pieces ∧
        LoopTakes depth (previous.any isEntireSegment) parts ∧
        parts.mapIdx (fun i => loopSegment (depth + i)) = segms := by
  induction pieces generalizing depth previous segms with
  | nil =>
    rw [rtSeparateLoop, Option.some.injEq]
    constructor
    · rintro rfl
      exact ⟨[], rfl, trivial, rfl⟩
    · rintro ⟨parts, none, _, rfl⟩
      rw [List.map_eq_nil_iff.mp none]
      rfl
  | cons piece rest ih =>
    have shift : ∀ part (parts : List Part),
        (part :: parts).mapIdx (fun i => loopSegment (depth + i)) =
          loopSegment depth part :: parts.mapIdx (fun i => loopSegment (depth + 1 + i)) := by
      intro part parts
      rw [List.mapIdx_cons]
      simp only [Nat.add_zero, Nat.add_assoc, Nat.add_comm 1]
    rw [rtSeparateLoop]
    constructor
    · intro h
      split at h
      · cases h
      · rename_i fits
        obtain ⟨filled, deep, short⟩ : piece ≠ [] ∧ depth < maxDepthReq ∧
            piece.length < maxPreSegSize := by
          simp only [not_or] at fits
          refine ⟨fits.1, ?_, ?_⟩ <;> omega
        cases analyzed : rtAnalyzeSegment piece depth with
        | none =>
          rw [analyzed] at h
          cases h
        | some segm =>
          simp only [analyzed] at h
          split at h
          · cases h
          · rename_i notEntire
            obtain ⟨later, loop, rfl⟩ := Option.map_eq_some_iff.mp h
            obtain ⟨part, rfl, shaped, level, rfl⟩ := (rtAnalyzeSegment_iff filled).mp analyzed
            obtain ⟨parts, rfl, takes, rfl⟩ := ih.mp loop
            rw [Option.any_some, isEntireSegment_loopSegment shaped level] at takes
            exact ⟨part :: parts, rfl,
              ⟨Bool.eq_false_iff.mpr notEntire, deep, short, shaped, level, takes⟩,
              shift part parts⟩
    · rintro ⟨parts, texts, takes, rfl⟩
      cases parts with
      | nil => cases texts
      | cons part parts =>
        obtain ⟨rfl, rfl⟩ := List.cons.inj texts
        obtain ⟨notEntire, deep, short, shaped, level, takes⟩ := takes
        have filled := text_ne_nil shaped
        have fits : ¬ (part.text = [] ∨ maxDepthReq ≤ depth ∨
            maxPreSegSize ≤ part.text.length) := by
          rintro (h | h | h)
          · exact filled h
          · omega
          · omega
        have analyzed := (rtAnalyzeSegment_iff filled).mpr ⟨part, rfl, shaped, level, rfl⟩
        rw [← isEntireSegment_loopSegment shaped level] at takes
        have loop : rtSeparateLoop (depth + 1) (some (loopSegment depth part))
            (parts.map Part.text) = some _ := ih.mpr ⟨parts, rfl, takes, rfl⟩
        rw [if_neg fits, analyzed]
        dsimp only
        refine (if_neg (Bool.eq_false_iff.mp notEntire)).trans ?_
        rw [shift, loop]
        rfl

theorem loopTakes_iff {depth : Nat} {entire : Bool} {parts : List Part} :
    LoopTakes depth entire parts ↔
      (parts ≠ [] → entire = false ∧ depth + parts.length ≤ maxDepthReq) ∧
      (∀ part ∈ parts, part.text.length < maxPreSegSize ∧ Shaped atoi part) ∧
      (∀ part ∈ parts.take (2 - depth), part.isPlain = true) ∧
      (∀ part ∈ parts.dropLast, part.isEntire = false) := by
  induction parts generalizing depth entire with
  | nil => simp [LoopTakes]
  | cons part rest ih =>
    have first : (∀ q ∈ (part :: rest).take (2 - depth), q.isPlain = true) ↔
        (depth < 2 → part.isPlain = true) ∧ ∀ q ∈ rest.take (2 - (depth + 1)),
          q.isPlain = true := by
      by_cases shallow : depth < 2
      · have two : 2 - depth = (2 - (depth + 1)) + 1 := by omega
        rw [two, List.take_succ_cons, List.forall_mem_cons]
        simp [shallow]
      · have two : 2 - depth = 0 := by omega
        have two' : 2 - (depth + 1) = 0 := by omega
        simp [two, two', shallow]
    have last : (∀ q ∈ (part :: rest).dropLast, q.isEntire = false) ↔
        (rest ≠ [] → part.isEntire = false) ∧ ∀ q ∈ rest.dropLast, q.isEntire = false := by
      cases rest with
      | nil => simp
      | cons next rest => simp
    have count : depth + (part :: rest).length ≤ maxDepthReq ↔
        depth < maxDepthReq ∧ (rest ≠ [] → depth + 1 + rest.length ≤ maxDepthReq) := by
      cases rest with
      | nil =>
        simp only [List.length_cons, List.length_nil, ne_eq, not_true, false_implies, and_true]
        omega
      | cons next rest =>
        simp only [List.length_cons, ne_eq, reduceCtorEq, not_false_eq_true, true_implies]
        omega
    rw [LoopTakes, ih, first, last, count, List.forall_mem_cons]
    constructor
    · rintro ⟨notEntire, deep, short, shaped, level, tail, each, levels, single⟩
      exact ⟨fun _ => ⟨notEntire, deep, fun more => (tail more).2⟩, ⟨⟨short, shaped⟩, each⟩,
        ⟨level, levels⟩, fun more => (tail more).1, single⟩
    · rintro ⟨bound, ⟨⟨short, shaped⟩, each⟩, ⟨level, levels⟩, one, single⟩
      obtain ⟨notEntire, deep, tail⟩ := bound (List.cons_ne_nil part rest)
      exact ⟨notEntire, deep, short, shaped, level, fun more => ⟨one more, tail more⟩, each,
        levels, single⟩

end Loop

section Keys

theorem loopSegment_early {count depth : Nat} (early : depth + 1 ≠ count) (part : Part) :
    loopSegment depth part = ⟨part.name, indexOf atoi part, levelOf count depth part⟩ := by
  match depth with
  | 0 => rfl
  | 1 => rfl
  | depth + 2 => simp [loopSegment, levelOf, early]

theorem loopSegment_last (depth : Nat) (part : Part) :
    (if 3 ≤ depth + 1 ∧ (loopSegment depth part).jsl = .logicScope then
      { loopSegment depth part with jsl := .field } else loopSegment depth part) =
        ⟨part.name, indexOf atoi part, levelOf (depth + 1) depth part⟩ := by
  match depth with
  | 0 => rfl
  | 1 => rfl
  | depth + 2 => cases plain : part.isPlain <;> simp [loopSegment, levelOf, plain]

/-- Only the last part can be a field. -/
theorem lastToField_loopSegment {parts : List Part} (some : parts ≠ []) :
    lastToField (parts.mapIdx loopSegment) = segmentsOf atoi parts := by
  obtain ⟨init, last, rfl⟩ := List.eq_nil_or_concat' parts |>.resolve_left some
  have early : init.mapIdx loopSegment = init.mapIdx fun depth part =>
      ⟨part.name, indexOf atoi part, levelOf (init ++ [last]).length depth part⟩ := by
    apply List.ext_getElem
    · rw [List.length_mapIdx, List.length_mapIdx]
    · intro i hi _
      rw [List.length_mapIdx] at hi
      rw [List.getElem_mapIdx, List.getElem_mapIdx]
      apply loopSegment_early
      rw [List.length_append, List.length_singleton]
      omega
  rw [segmentsOf, List.mapIdx_concat, List.mapIdx_concat, ← early, List.length_append,
    List.length_singleton, ← loopSegment_last, lastToField, List.getLast?_concat,
    List.dropLast_concat, List.length_append, List.length_mapIdx, List.length_singleton]
  dsimp only
  split <;> rfl

theorem keyOf_cons (part : Part) {rest : List Part} (more : rest ≠ []) :
    keyOf (part :: rest) = part.text ++ dot :: keyOf rest := by
  have texts : rest.map Part.text ≠ [] := by simpa using more
  rw [keyOf, List.map_cons, List.intercalate_cons_of_ne_nil texts, keyOf]
  simp

theorem keyOf_append {front back : List Part} (hfront : front ≠ []) (hback : back ≠ []) :
    keyOf (front ++ back) = keyOf front ++ dot :: keyOf back := by
  induction front with
  | nil => exact absurd rfl hfront
  | cons part rest ih =>
    have more : rest ++ back ≠ [] := by simp [hback]
    rw [List.cons_append, keyOf_cons part more]
    cases rest with
    | nil => simp [keyOf]
    | cons next rest =>
      rw [ih (List.cons_ne_nil _ _), keyOf_cons part (List.cons_ne_nil next rest)]
      simp

theorem splitOn_keyOf {parts : List Part} (some : parts ≠ [])
    (noDot : ∀ part ∈ parts, dot ∉ part.text) :
    (keyOf parts).splitOn dot = parts.map Part.text := by
  apply List.splitOn_intercalate
  · intro text mem
    obtain ⟨part, hpart, rfl⟩ := List.mem_map.mp mem
    exact noDot part hpart
  · simpa using some

/-- `rt_separate_segment` accepts the keys of the grammar with the numbers of `atoi`. -/
theorem rtSeparateSegment_iff {key : Bytes} {segms : List Segment} (nonempty : key ≠ []) :
    rtSeparateSegment key = some segms ↔ Spells atoi key segms := by
  rw [rtSeparateSegment, if_neg nonempty, Option.map_eq_some_iff]
  simp only [rtSeparateLoop_iff, Option.any_none, Nat.zero_add]
  constructor
  · rintro ⟨raw, ⟨parts, texts, takes, rfl⟩, rfl⟩
    have key_eq : key = keyOf parts := by
      rw [keyOf, texts, List.intercalate_splitOn]
    have some : parts ≠ [] := by
      rintro rfl
      exact nonempty (by rw [key_eq]; rfl)
    obtain ⟨count, each, levels, single⟩ := loopTakes_iff.mp takes
    refine ⟨parts, ⟨some, ?_, fun part mem => (each part mem).2, fun part mem => (each part mem).1,
      ?_, levels, single⟩, key_eq, lastToField_loopSegment some⟩
    · have bound := (count some).2
      omega
    · intro part mem
      exact dot_not_mem_splitOn (texts ▸ List.mem_map_of_mem mem)
  · rintro ⟨parts, spelled, rfl, rfl⟩
    refine ⟨_, ⟨parts, (splitOn_keyOf spelled.some spelled.noDot).symm, ?_, rfl⟩,
      lastToField_loopSegment spelled.some⟩
    refine loopTakes_iff.mpr ⟨fun _ => ⟨rfl, ?_⟩, ?_, spelled.levels, spelled.single⟩
    · have bound := spelled.few
      omega
    · intro part mem
      exact ⟨spelled.short part mem, spelled.shaped part mem⟩

/-- A key has one list of parts. -/
theorem keyOf_inj {number number' : Bytes → Int} {parts parts' : List Part}
    (spelled : Grammatical number parts) (spelled' : Grammatical number' parts')
    (same : keyOf parts = keyOf parts') : parts = parts' := by
  have texts : parts.map Part.text = parts'.map Part.text := by
    rw [← splitOn_keyOf spelled.some spelled.noDot, same,
      splitOn_keyOf spelled'.some spelled'.noDot]
  have one : ∀ part ∈ parts, ∀ part' ∈ parts', part.text = part'.text → part = part' := by
    intro part mem part' mem' text
    have left := rtIsArraySyntax_text (spelled.shaped part mem)
    have right := rtIsArraySyntax_text (spelled'.shaped part' mem')
    rw [text, right] at left
    cases part with
    | plain name =>
      cases part' with
      | plain name' => exact congrArg Part.plain text
      | item name' range' => cases left
    | item name range =>
      cases part' with
      | plain name' => cases left
      | item name' range' =>
        obtain ⟨rfl, rfl⟩ := ArraySyntax.yes.inj left
        rfl
  have length := congrArg List.length texts
  rw [List.length_map, List.length_map] at length
  apply List.ext_getElem length
  intro i hi hi'
  apply one _ (List.getElem_mem hi) _ (List.getElem_mem hi')
  have at_i := congrArg (fun list => list[i]?) texts
  simpa [List.getElem?_eq_getElem, hi, hi'] using at_i

end Keys

section Numbers

theorem atoi_decimal {range : Bytes} (digits : range.all isdigit = true)
    (small : decimal range < maxArySize) : atoi range = decimal range := by
  have all : range.takeWhile isdigit = range := by
    rw [List.takeWhile_eq_self_iff]
    exact List.all_eq_true.mp digits
  have bound : maxArySize = 256 := rfl
  rw [decimal] at small
  rw [atoi, all, decimal]
  generalize range.foldl (fun n c => 10 * n + (c.toNat - 48)) 0 = value at small
  have narrow : min value (2 ^ 63 - 1) = value := by omega
  have fits : value < 2 ^ 32 := by omega
  rw [narrow, BitVec.toInt_eq_toNat_cond, BitVec.toNat_ofNat, Nat.mod_eq_of_lt fits]
  have positive : 2 * value < 2 ^ 32 := by omega
  rw [if_pos positive]

/-- The numbers below the limit are read right, so there the two grammars agree. -/
theorem shaped_decimal {part : Part} (shaped : Shaped decimal part) :
    Shaped atoi part ∧ indexOf atoi part = indexOf decimal part := by
  cases part with
  | plain name => exact ⟨shaped, rfl⟩
  | item name range =>
    obtain ⟨free, symbol | ⟨digits, lower, upper⟩⟩ := shaped
    · refine ⟨⟨free, Or.inl symbol⟩, ?_⟩
      rw [indexOf, indexOf, if_pos symbol, if_pos symbol]
    · have value := atoi_decimal digits.2 upper
      refine ⟨⟨free, Or.inr ⟨digits, ?_, ?_⟩⟩, ?_⟩
      · omega
      · omega
      · rw [indexOf, indexOf, value]

theorem shaped_atoi {part : Part} (shaped : Shaped atoi part)
    (small : ∀ name range, part = .item name range → IsNumber range → decimal range < maxArySize) :
    Shaped decimal part := by
  cases part with
  | plain name => exact shaped
  | item name range =>
    obtain ⟨free, symbol | ⟨digits, _⟩⟩ := shaped
    · exact ⟨free, Or.inl symbol⟩
    · exact ⟨free, Or.inr ⟨digits, Int.natCast_nonneg _, small name range rfl digits⟩⟩

theorem segmentsOf_decimal {parts : List Part} (shaped : ∀ part ∈ parts, Shaped decimal part) :
    segmentsOf atoi parts = segmentsOf decimal parts := by
  apply List.ext_getElem
  · rw [segmentsOf, segmentsOf, List.length_mapIdx, List.length_mapIdx]
  · intro i hi _
    have inside : i < parts.length := by simpa [segmentsOf] using hi
    have same := (shaped_decimal (shaped _ (List.getElem_mem inside))).2
    simp [segmentsOf, same]

/-- In a key that is well formed when its numbers are read by `atoi`, each of them is
below the limit. -/
def NoWrap (key : Bytes) : Prop :=
  ∀ parts, Grammatical atoi parts → key = keyOf parts →
    ∀ name range, Part.item name range ∈ parts → IsNumber range → decimal range < maxArySize

theorem small_of_spells {parts : List Part} (spelled : Grammatical atoi parts)
    {segms : List Segment} (grammar : Spells decimal (keyOf parts) segms) {name range : Bytes}
    (mem : Part.item name range ∈ parts) (digits : IsNumber range) :
    decimal range < maxArySize := by
  obtain ⟨parts', spelled', same, _⟩ := grammar
  obtain rfl := keyOf_inj spelled spelled' same
  obtain ⟨_, symbol | ⟨_, _, upper⟩⟩ := spelled'.shaped _ mem
  · rcases symbol with rfl | rfl | rfl | rfl <;> exact absurd digits.2 (by decide)
  · exact upper

/-- The parser accepts exactly the keys of the grammar, with the segments the grammar
gives them, unless `atoi` takes a number that is too large for one below the limit. -/
theorem key_grammar_iff {key : Bytes} (nonempty : key ≠ []) :
    (∀ segms, rtSeparateSegment key = some segms ↔ Spells decimal key segms) ↔ NoWrap key := by
  simp only [rtSeparateSegment_iff nonempty]
  constructor
  · rintro agree parts spelled rfl name range mem digits
    have grammar := (agree _).mp ⟨parts, spelled, rfl, rfl⟩
    exact small_of_spells spelled grammar mem digits
  · intro noWrap segms
    constructor
    · rintro ⟨parts, spelled, rfl, rfl⟩
      have shaped : ∀ part ∈ parts, Shaped decimal part := by
        intro part mem
        apply shaped_atoi (spelled.shaped part mem)
        rintro name range rfl digits
        exact noWrap parts spelled rfl name range mem digits
      exact ⟨parts, { spelled with shaped }, rfl, segmentsOf_decimal shaped⟩
    · rintro ⟨parts, spelled, rfl, rfl⟩
      have shaped : ∀ part ∈ parts, Shaped atoi part :=
        fun part mem => (shaped_decimal (spelled.shaped part mem)).1
      exact ⟨parts, { spelled with shaped }, rfl, (segmentsOf_decimal spelled.shaped).symm⟩

/-- `d.f.a[7]`. -/
def smallIndex : List Part :=
  [.plain (ofChars ['d']), .plain (ofChars ['f']), .item (ofChars ['a']) (ofChars ['7'])]

theorem key_grammar_iff_small :
    (∀ segms, rtSeparateSegment (keyOf smallIndex) = some segms ↔
      Spells decimal (keyOf smallIndex) segms) ↔ NoWrap (keyOf smallIndex) :=
  key_grammar_iff (by decide)

/-- `d.f.a[4294967296]`. -/
def wrappedIndex : List Part :=
  [.plain (ofChars ['d']), .plain (ofChars ['f']),
    .item (ofChars ['a']) (ofChars ['4', '2', '9', '4', '9', '6', '7', '2', '9', '6'])]

/-- Index 2^32 is taken for the index 0. -/
theorem key_grammar_fails : ¬ ∀ segms, rtSeparateSegment (keyOf wrappedIndex) = some segms ↔
    Spells decimal (keyOf wrappedIndex) segms := by
  intro agree
  have spelled : Grammatical atoi wrappedIndex := by
    refine ⟨?_, ?_, ?_, ?_, ?_, ?_, ?_⟩ <;> decide +kernel
  have accepted : rtSeparateSegment (keyOf wrappedIndex) =
      some [⟨ofChars ['d'], -1, .dir⟩, ⟨ofChars ['f'], -1, .archive⟩,
        ⟨ofChars ['a'], 0, .array⟩] := by decide +kernel
  have small := small_of_spells spelled ((agree _).mp accepted)
    (List.mem_cons_of_mem _ (List.mem_cons_of_mem _ (List.mem_singleton.mpr rfl))) (by decide)
  revert small
  decide

end Numbers

end KeyGrammar
