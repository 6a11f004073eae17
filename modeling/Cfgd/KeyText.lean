import Cfgd.KeyShape
import Mathlib.Data.List.TakeWhile

/-!
# Writing keys

The text of a key, and that the parser reads back what is written: a key whose
names are free of the four bytes that have a meaning for the parser, and whose
segments are short enough, is accepted and has the segments it was written from.
-/

namespace KeyText

open CText Request KeyShape

/-- A name that stands for itself in a key. -/
structure KeyName (name : Bytes) : Prop where
  filled : name ≠ []
  noDot : dot ∉ name
  noLeft : leftBracket ∉ name
  noRight : rightBracket ∉ name
  noEqual : equalSign ∉ name

/-- A symbol is written as its code, which is its lowest byte. -/
def indexText (index : Int) : Bytes :=
  if index < maxArySize then printInt index else [(index % 256).toNat.toUInt8]

def segmentText (segm : Segment) : Bytes :=
  if segm.jsl = .array then segm.name ++ leftBracket :: indexText segm.index ++ [rightBracket]
  else segm.name

def keyText (segms : List Segment) : Bytes := [dot].intercalate (segms.map segmentText)

/-- What the parser asks of a segment that is written. -/
structure Written (segm : Segment) : Prop where
  name : KeyName segm.name
  short : (segmentText segm).length < maxPreSegSize

/-- A segment as the loop of the parser leaves it, before the last one becomes a field. -/
def beforeField (segm : Segment) : Segment :=
  if segm.jsl = .field then { segm with jsl := .logicScope } else segm

section Pieces

theorem rtIsArraySyntax_name {name : Bytes} (h : KeyName name) : rtIsArraySyntax name = .no := by
  have left := List.count_eq_zero_of_not_mem h.noLeft
  have right := List.count_eq_zero_of_not_mem h.noRight
  rw [rtIsArraySyntax, if_pos ⟨left, right⟩]

theorem rtIsArraySyntax_item {name text : Bytes} (named : name ≠ [])
    (noLeft' : leftBracket ∉ name) (noRight' : rightBracket ∉ name) (filled : text ≠ [])
    (noLeft : leftBracket ∉ text) (noRight : rightBracket ∉ text) :
    rtIsArraySyntax (name ++ leftBracket :: text ++ [rightBracket]) = .yes name text := by
  have apart : (rightBracket == leftBracket) = false := rfl
  have apart' : (leftBracket == rightBracket) = false := rfl
  have one : (name ++ leftBracket :: text ++ [rightBracket]).count leftBracket = 1 := by
    simp [List.count_append, List.count_cons, apart, List.count_eq_zero_of_not_mem noLeft',
      List.count_eq_zero_of_not_mem noLeft]
  have one' : (name ++ leftBracket :: text ++ [rightBracket]).count rightBracket = 1 := by
    simp [List.count_append, List.count_cons, apart', List.count_eq_zero_of_not_mem noRight',
      List.count_eq_zero_of_not_mem noRight]
  have before : (name ++ leftBracket :: text ++ [rightBracket]).takeWhile (· ≠ leftBracket) =
      name := by
    rw [List.append_assoc, List.takeWhile_append_of_pos]
    · simp
    · intro c hc
      have other : c ≠ leftBracket := by
        rintro rfl
        exact noLeft' hc
      simp [other]
  have between : ((name ++ leftBracket :: text ++ [rightBracket]).drop
      (name.length + 1)).takeWhile (· ≠ rightBracket) = text := by
    have cut : (name ++ leftBracket :: text ++ [rightBracket]).drop (name.length + 1) =
        text ++ [rightBracket] := by
      rw [List.append_assoc, List.drop_append, List.drop_of_length_le (Nat.le_succ _)]
      simp
    rw [cut, List.takeWhile_append_of_pos]
    · simp
    · intro c hc
      have other : c ≠ rightBracket := by
        rintro rfl
        exact noRight hc
      simp [other]
  have brackets : ¬ ((name ++ leftBracket :: text ++ [rightBracket]).count leftBracket = 0 ∧
      (name ++ leftBracket :: text ++ [rightBracket]).count rightBracket = 0) := by
    rw [one]
    omega
  simp only [rtIsArraySyntax]
  rw [if_neg brackets, before, between]
  exact if_pos ⟨one, one', named, filled, rfl⟩

theorem indexText_symbols : indexText jaSymLast = [jaCodeLast] ∧
    indexText jaSymQuerySize = [jaCodeQuerySize] ∧ indexText jaSymAdd = [jaCodeAdd] ∧
    indexText jaSymEntire = [jaCodeEntire] := by
  decide +kernel

theorem indexText_digits {index : Int} (lower : 0 ≤ index) (upper : index < maxArySize) :
    atoi (indexText index) = index ∧ (indexText index).all isdigit = true ∧
      indexText index ≠ [] := by
  obtain ⟨k, rfl⟩ := Int.eq_ofNat_of_zero_le lower
  have small : k < 256 := by
    have bound : maxArySize = 256 := rfl
    omega
  rw [indexText, if_pos upper]
  exact atoi_printInt ⟨k, small⟩

theorem bracket_free {text : Bytes} (digits : text.all isdigit = true) :
    leftBracket ∉ text ∧ rightBracket ∉ text ∧ equalSign ∉ text ∧ dot ∉ text := by
  rw [List.all_eq_true] at digits
  refine ⟨fun h => ?_, fun h => ?_, fun h => ?_, fun h => ?_⟩ <;>
    exact absurd (digits _ h) (by decide)

/-- The text of an index stays clear of the bytes with a meaning for the parser. -/
theorem indexText_free {index : Int} (range : IndexFits index) : indexText index ≠ [] ∧
    leftBracket ∉ indexText index ∧ rightBracket ∉ indexText index ∧
    equalSign ∉ indexText index ∧ dot ∉ indexText index := by
  obtain ⟨last, size, add, entire⟩ := indexText_symbols
  rcases range with ⟨lower, upper⟩ | rfl | rfl | rfl | rfl
  · obtain ⟨_, digits, filled⟩ := indexText_digits lower upper
    exact ⟨filled, bracket_free digits⟩
  · rw [last]
    decide
  · rw [size]
    decide
  · rw [add]
    decide
  · rw [entire]
    decide

theorem rtAnalysisArraySyntax_numeric {piece name range : Bytes}
    (h : rtIsArraySyntax piece = .yes name range) (digits : range.all isdigit = true) :
    rtAnalysisArraySyntax piece = rtAnalysisArraySyntax.rtNumericIndex name range := by
  rw [rtAnalysisArraySyntax, h]
  split
  · rename_i heq
    cases heq
  · rename_i heq
    cases heq
  · rename_i left code heq
    obtain ⟨rfl, rfl⟩ := ArraySyntax.yes.inj heq
    have digit : isdigit code = true := by simpa using digits
    have plain : ¬ (code = jaCodeLast ∨ code = jaCodeQuerySize ∨ code = jaCodeAdd ∨
        code = jaCodeEntire) := by
      rintro (rfl | rfl | rfl | rfl) <;> exact absurd digit (by decide)
    rw [if_neg plain]
  · rename_i heq
    obtain ⟨rfl, rfl⟩ := ArraySyntax.yes.inj heq
    rfl

theorem rtAnalysisArraySyntax_item {name : Bytes} {index : Int} (h : KeyName name)
    (range : IndexFits index) : rtAnalysisArraySyntax
      (name ++ leftBracket :: indexText index ++ [rightBracket]) = some (name, index) := by
  obtain ⟨filled, noLeft, noRight, _, _⟩ := indexText_free range
  have syntaxes := rtIsArraySyntax_item h.filled h.noLeft h.noRight filled noLeft noRight
  obtain ⟨last, size, add, entire⟩ := indexText_symbols
  rcases range with ⟨lower, upper⟩ | rfl | rfl | rfl | rfl
  · obtain ⟨value, digits, _⟩ := indexText_digits lower upper
    have inside : ¬ (maxArySize ≤ index ∨ index < 0) := by omega
    rw [rtAnalysisArraySyntax_numeric syntaxes digits, rtAnalysisArraySyntax.rtNumericIndex,
      if_pos digits, value, if_neg inside]
  · rw [rtAnalysisArraySyntax, syntaxes, last]
    rfl
  · rw [rtAnalysisArraySyntax, syntaxes, size]
    rfl
  · rw [rtAnalysisArraySyntax, syntaxes, add]
    rfl
  · rw [rtAnalysisArraySyntax, syntaxes, entire]
    rfl

theorem rtAnalysisArraySyntax_name {name : Bytes} (h : KeyName name) :
    rtAnalysisArraySyntax name = some (name, -1) := by
  rw [rtAnalysisArraySyntax, rtIsArraySyntax_name h]

end Pieces

section Loop

/-- One turn of the loop on a segment that is written. -/
theorem rtSeparateLoop_written {segm segm' : Segment} (written : Written segm) {depth : Nat}
    (deep : depth < maxDepthReq) {previous : Option Segment}
    (single : ∀ p ∈ previous, p.jsl = .array → p.index ≠ jaSymEntire)
    (analyzed : rtAnalyzeSegment (segmentText segm) depth = some segm') (rest : List Bytes) :
    rtSeparateLoop depth previous (segmentText segm :: rest) =
      (rtSeparateLoop (depth + 1) (some segm') rest).map (segm' :: ·) := by
  have filled : segmentText segm ≠ [] := by
    rw [segmentText]
    split
    · simp
    · exact written.name.filled
  have accepted : ¬ (segmentText segm = [] ∨ maxDepthReq ≤ depth ∨
      maxPreSegSize ≤ (segmentText segm).length) := by
    have short := written.short
    rintro (h | h | h)
    · exact filled h
    · omega
    · omega
  have inside : ¬ (previous.any fun p => p.jsl = .array ∧ p.index = jaSymEntire) = true := by
    cases previous with
    | none => exact nofun
    | some p =>
      intro entire
      simp only [Option.any_some, decide_eq_true_eq] at entire
      exact single p rfl entire.1 entire.2
  rw [rtSeparateLoop, if_neg accepted, analyzed]
  dsimp only
  rw [if_neg inside]

theorem rtSeparateLoop_below {segms : List Segment} (below : Below segms)
    (written : ∀ segm ∈ segms, Written segm) {depth : Nat} (deep : 2 ≤ depth)
    (short : depth + segms.length ≤ maxDepthReq) {previous : Option Segment}
    (single : ∀ p ∈ previous, p.jsl = .array → p.index ≠ jaSymEntire) :
    rtSeparateLoop depth previous (segms.map segmentText) = some (segms.map beforeField) := by
  induction below generalizing depth previous with
  | field fits =>
    have here := written _ (List.mem_singleton.mpr rfl)
    have analyzed := rtAnalyzeSegment_below (rtAnalysisArraySyntax_name here.name) deep
    rw [List.length_singleton] at short
    rw [List.map_singleton, rtSeparateLoop_written here (by omega) single analyzed]
    rfl
  | @scope name rest fits below ih =>
    have here := written _ (List.mem_cons_self ..)
    have analyzed := rtAnalyzeSegment_below (rtAnalysisArraySyntax_name here.name) deep
    rw [List.length_cons] at short
    rw [List.map_cons, rtSeparateLoop_written here (by omega) single analyzed,
      ih (fun s hs => written s (List.mem_cons_of_mem _ hs)) (by omega) (by omega)]
    · rfl
    · rintro p ⟨⟩ array
      cases array
  | array fits range =>
    have here := written _ (List.mem_singleton.mpr rfl)
    have analyzed := rtAnalyzeSegment_below (rtAnalysisArraySyntax_item here.name range) deep
    have lower : ¬ (_ : Int) < 0 := Int.not_lt.mpr (indexFits_nonneg range)
    rw [if_neg lower] at analyzed
    rw [List.length_singleton] at short
    rw [List.map_singleton, rtSeparateLoop_written here (by omega) single analyzed]
    rfl
  | @item name index rest fits range one below ih =>
    have here := written _ (List.mem_cons_self ..)
    have analyzed := rtAnalyzeSegment_below (rtAnalysisArraySyntax_item here.name range) deep
    have lower : ¬ (_ : Int) < 0 := Int.not_lt.mpr (indexFits_nonneg range)
    rw [if_neg lower] at analyzed
    rw [List.length_cons] at short
    rw [List.map_cons, rtSeparateLoop_written here (by omega) single analyzed,
      ih (fun s hs => written s (List.mem_cons_of_mem _ hs)) (by omega) (by omega)]
    · rfl
    · rintro p ⟨⟩ _
      exact one

theorem endField_beforeField {segms : List Segment} (below : Below segms) :
    endField (segms.map beforeField) = segms := by
  induction below with
  | field fits => rfl
  | @scope name rest fits below ih =>
    obtain ⟨segm, later, rfl⟩ := List.exists_cons_of_ne_nil below.ne_nil
    rw [List.map_cons] at ih ⊢
    rw [List.map_cons, endField, ih]
    rfl
  | array fits range => rfl
  | @item name index rest fits range one below ih =>
    obtain ⟨segm, later, rfl⟩ := List.exists_cons_of_ne_nil below.ne_nil
    rw [List.map_cons] at ih ⊢
    rw [List.map_cons, endField, ih]
    rfl

end Loop

/-- A written key has room for all its segments. -/
theorem length_keyText {segms : List Segment} (written : ∀ segm ∈ segms, Written segm)
    (nonempty : segms ≠ []) :
    (keyText segms).length + 1 ≤ segms.length * maxPreSegSize := by
  induction segms with
  | nil => exact absurd rfl nonempty
  | cons segm rest ih =>
    have here := (written segm (List.mem_cons_self ..)).short
    cases rest with
    | nil =>
      simp only [keyText, List.map_singleton, List.intercalate_singleton, List.length_singleton]
      omega
    | cons next rest =>
      have later := ih (fun s hs => written s (List.mem_cons_of_mem _ hs)) (List.cons_ne_nil _ _)
      have longer : (keyText (segm :: next :: rest)).length =
          (segmentText segm).length + 1 + (keyText (next :: rest)).length := by
        simp only [keyText, List.map_cons, List.intercalate_cons_cons, List.length_append,
          List.length_singleton]
      rw [longer, List.length_cons, Nat.add_one_mul]
      omega

theorem rtSeparateLoop_accepted {segms : List Segment} (accepted : AcceptedKey segms)
    (written : ∀ segm ∈ segms, Written segm) (depth : segms.length ≤ maxDepthReq) :
    (rtSeparateLoop 0 none (segms.map segmentText)).map lastToField = some segms := by
  have single : ∀ p ∈ (none : Option Segment), p.jsl = .array → p.index ≠ jaSymEntire := nofun
  have first : ∀ {dir : Bytes}, Written ⟨dir, -1, .dir⟩ →
      rtAnalyzeSegment (segmentText ⟨dir, -1, .dir⟩) 0 = some ⟨dir, -1, .dir⟩ := by
    intro dir h
    simp [rtAnalyzeSegment, segmentText, rtAnalysisArraySyntax_name h.name]
  have second : ∀ {archive : Bytes}, Written ⟨archive, -1, .archive⟩ →
      rtAnalyzeSegment (segmentText ⟨archive, -1, .archive⟩) 1 =
        some ⟨archive, -1, .archive⟩ := by
    intro archive h
    simp [rtAnalyzeSegment, segmentText, rtAnalysisArraySyntax_name h.name]
  have enter : ∀ dir : Bytes,
      ∀ p ∈ some (⟨dir, -1, .dir⟩ : Segment), p.jsl = .array → p.index ≠ jaSymEntire := by
    rintro dir p ⟨⟩ array
    cases array
  have enter' : ∀ archive : Bytes,
      ∀ p ∈ some (⟨archive, -1, .archive⟩ : Segment), p.jsl = .array → p.index ≠ jaSymEntire := by
    rintro archive p ⟨⟩ array
    cases array
  have room : 2 < maxDepthReq := by decide
  cases accepted with
  | dir fits =>
    have here := written _ (List.mem_singleton.mpr rfl)
    rw [List.map_singleton, rtSeparateLoop_written here (by omega) single (first here)]
    rfl
  | archive fits fits' =>
    have here := written _ (List.mem_cons_self ..)
    have here' := written _ (List.mem_cons_of_mem _ (List.mem_singleton.mpr rfl))
    rw [List.map_cons, rtSeparateLoop_written here (by omega) single (first here),
      List.map_singleton, rtSeparateLoop_written here' (by omega) (enter _) (second here')]
    rfl
  | @below dir archive rest fits fits' below =>
    have here := written _ (List.mem_cons_self ..)
    have here' := written _ (List.mem_cons_of_mem _ (List.mem_cons_self ..))
    have later := rtSeparateLoop_below below
      (fun s hs => written s (List.mem_cons_of_mem _ (List.mem_cons_of_mem _ hs)))
      (Nat.le_refl 2) (by rw [List.length_cons, List.length_cons] at depth; omega) (enter' archive)
    have raw : rest.map beforeField ≠ [] := by
      rw [ne_eq, List.map_eq_nil_iff]
      exact below.ne_nil
    rw [List.map_cons, rtSeparateLoop_written here (by omega) single (first here),
      List.map_cons, rtSeparateLoop_written here' (by omega) (enter _) (second here'), later]
    simp only [Option.map_some]
    rw [lastToField_below _ _ raw, endField_beforeField below]

/-- A written segment is free of the bytes that end a key or a segment. -/
theorem segmentText_free {segm : Segment} (name : KeyName segm.name)
    (range : segm.jsl = .array → IndexFits segm.index) :
    dot ∉ segmentText segm ∧ equalSign ∉ segmentText segm := by
  by_cases array : segm.jsl = .array
  · obtain ⟨_, _, _, noEqual, noDot⟩ := indexText_free (range array)
    have other : dot ≠ leftBracket ∧ dot ≠ rightBracket ∧ equalSign ≠ leftBracket ∧
        equalSign ≠ rightBracket := by decide
    rw [segmentText, if_pos array]
    simp [name.noDot, name.noEqual, noEqual, noDot, other]
  · rw [segmentText, if_neg array]
    exact ⟨name.noDot, name.noEqual⟩

theorem range_of_below {segms : List Segment} (below : Below segms) :
    ∀ segm ∈ segms, segm.jsl = .array → IndexFits segm.index := by
  induction below with
  | field fits => simp
  | scope fits below ih => simpa using ih
  | array fits range => simpa using range
  | item fits range one below ih => exact List.forall_mem_cons.mpr ⟨fun _ => range, ih⟩

theorem range_of_accepted {segms : List Segment} (accepted : AcceptedKey segms) :
    ∀ segm ∈ segms, segm.jsl = .array → IndexFits segm.index := by
  cases accepted with
  | dir fits => simp
  | archive fits fits' => simp
  | below fits fits' below => simpa using range_of_below below

theorem equalSign_not_mem_keyText {segms : List Segment}
    (free : ∀ segm ∈ segms, equalSign ∉ segmentText segm) : equalSign ∉ keyText segms := by
  induction segms with
  | nil => simp [keyText]
  | cons segm rest ih =>
    have here := free segm (List.mem_cons_self ..)
    have later := ih fun s hs => free s (List.mem_cons_of_mem _ hs)
    cases rest with
    | nil => simpa [keyText] using here
    | cons next rest =>
      have other : equalSign ≠ dot := by decide
      rw [keyText, List.map_cons] at later
      rw [keyText, List.map_cons, List.map_cons, List.intercalate_cons_cons]
      simp [here, later, other]

/-- An accepted key is read back as it is written. -/
theorem rtCreateJrp_keyText {segms : List Segment} (accepted : AcceptedKey segms)
    (written : ∀ segm ∈ segms, Written segm) (depth : segms.length ≤ maxDepthReq) :
    rtCreateJrp (keyText segms) = some ⟨segms, none, keyText segms, []⟩ := by
  have free := fun segm hs =>
    segmentText_free (written segm hs).name (range_of_accepted accepted segm hs)
  have whole : (keyText segms).takeWhile (· ≠ equalSign) = keyText segms := by
    rw [List.takeWhile_eq_self_iff]
    intro c hc
    have other : c ≠ equalSign := by
      rintro rfl
      exact equalSign_not_mem_keyText (fun segm hs => (free segm hs).2) hc
    simp [other]
  have filled : keyText segms ≠ [] := by
    obtain ⟨segm, rest, rfl⟩ := List.exists_cons_of_ne_nil accepted.ne_nil
    have here : segmentText segm ≠ [] := by
      have name := (written segm (List.mem_cons_self ..)).name.filled
      rw [segmentText]
      split <;> simp [name]
    rw [keyText, List.map_cons]
    cases rest.map segmentText with
    | nil => simpa using here
    | cons next later => simp [here]
  have room : (keyText segms).length < maxKeySize := by
    have length := length_keyText written accepted.ne_nil
    have most : segms.length * maxPreSegSize ≤ maxDepthReq * maxPreSegSize :=
      Nat.mul_le_mul_right _ depth
    have size : maxDepthReq * maxPreSegSize ≤ maxKeySize := by decide
    omega
  have split : (keyText segms).splitOn dot = segms.map segmentText := by
    refine List.splitOn_intercalate dot ?_ (by simpa using accepted.ne_nil)
    intro text htext
    obtain ⟨segm, hs, rfl⟩ := List.mem_map.mp htext
    exact (free segm hs).1
  have key : rtSeparateSegment (keyText segms) = some segms := by
    rw [rtSeparateSegment, if_neg filled, split]
    exact rtSeparateLoop_accepted accepted written depth
  have kv : rtSeparateKvField (keyText segms) = some (keyText segms, none) := by
    simp only [rtSeparateKvField]
    rw [whole, if_neg (not_or.mpr ⟨filled, Nat.not_le.mpr room⟩), if_pos rfl]
  rw [rtCreateJrp, kv]
  dsimp only
  rw [key]
  rfl

end KeyText
