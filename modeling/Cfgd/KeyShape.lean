import Cfgd.Request

/-!
# The keys that the parser accepts

What `rt_create_jrp` promises about the segments of a key: the first two name a
directory and an archive, the others name scopes and array items, the last one a
field or an array. `[*]` stands in the last segment only.
-/

namespace KeyShape

open CText Request

def NameFits (name : Bytes) : Prop := name ≠ [] ∧ name.length < maxPreSegSize

def IndexFits (index : Int) : Prop :=
  (0 ≤ index ∧ index < maxArySize) ∨ index = jaSymLast ∨ index = jaSymQuerySize ∨
    index = jaSymAdd ∨ index = jaSymEntire

/-- The segments below an archive. -/
inductive Below : List Segment → Prop where
  | field {name : Bytes} (fits : NameFits name) : Below [⟨name, -1, .field⟩]
  | scope {name : Bytes} {rest : List Segment} (fits : NameFits name) (below : Below rest) :
      Below (⟨name, -1, .logicScope⟩ :: rest)
  | array {name : Bytes} {index : Int} (fits : NameFits name) (range : IndexFits index) :
      Below [⟨name, index, .array⟩]
  | item {name : Bytes} {index : Int} {rest : List Segment} (fits : NameFits name)
      (range : IndexFits index) (single : index ≠ jaSymEntire) (below : Below rest) :
      Below (⟨name, index, .array⟩ :: rest)

inductive AcceptedKey : List Segment → Prop where
  | dir {dir : Bytes} (fits : NameFits dir) : AcceptedKey [⟨dir, -1, .dir⟩]
  | archive {dir archive : Bytes} (fits : NameFits dir) (fits' : NameFits archive) :
      AcceptedKey [⟨dir, -1, .dir⟩, ⟨archive, -1, .archive⟩]
  | below {dir archive : Bytes} {rest : List Segment} (fits : NameFits dir)
      (fits' : NameFits archive) (below : Below rest) :
      AcceptedKey (⟨dir, -1, .dir⟩ :: ⟨archive, -1, .archive⟩ :: rest)

theorem Below.ne_nil {segms : List Segment} (h : Below segms) : segms ≠ [] := by
  cases h <;> exact List.cons_ne_nil _ _

theorem AcceptedKey.ne_nil {segms : List Segment} (h : AcceptedKey segms) : segms ≠ [] := by
  cases h <;> exact List.cons_ne_nil _ _

theorem indexFits_nonneg {index : Int} (h : IndexFits index) : 0 ≤ index := by
  rcases h with ⟨lower, _⟩ | rfl | rfl | rfl | rfl
  · exact lower
  · decide
  · decide
  · decide
  · decide

theorem jaCodeToSymbol_nonneg (code : UInt8) : 0 ≤ jaCodeToSymbol code := Int.natCast_nonneg _

section Names

theorem length_takeWhile_le {α : Type} (p : α → Bool) (l : List α) :
    (l.takeWhile p).length ≤ l.length := (List.takeWhile_prefix p).length_le

/-- What the name and the index of a segment are, whether it has brackets or not. -/
theorem rtAnalysisArraySyntax_spec {piece name : Bytes} {index : Int} (nonempty : piece ≠ [])
    (short : piece.length < maxPreSegSize)
    (h : rtAnalysisArraySyntax piece = some (name, index)) :
    NameFits name ∧ (index = -1 ∨ (0 ≤ index ∧ IndexFits index)) := by
  have numeric : ∀ {left range : Bytes}, NameFits left →
      rtAnalysisArraySyntax.rtNumericIndex left range = some (name, index) →
      NameFits name ∧ (index = -1 ∨ (0 ≤ index ∧ IndexFits index)) := by
    intro left range fits hn
    rw [rtAnalysisArraySyntax.rtNumericIndex] at hn
    split at hn
    · split at hn
      · cases hn
      · rename_i inside
        obtain ⟨rfl, rfl⟩ := Prod.mk.inj (Option.some.inj hn)
        have lower : 0 ≤ atoi range := by omega
        have upper : atoi range < maxArySize := by omega
        exact ⟨fits, Or.inr ⟨lower, Or.inl ⟨lower, upper⟩⟩⟩
    · cases hn
  have left : ∀ {left range : Bytes}, rtIsArraySyntax piece = .yes left range →
      NameFits left := by
    intro left range hy
    rw [rtIsArraySyntax] at hy
    split at hy
    · cases hy
    · split at hy
      · rename_i ok
        obtain ⟨rfl, rfl⟩ := ArraySyntax.yes.inj hy
        exact ⟨ok.2.2.1, Nat.lt_of_le_of_lt (length_takeWhile_le _ piece) short⟩
      · cases hy
  rw [rtAnalysisArraySyntax] at h
  split at h
  · cases h
  · obtain ⟨rfl, rfl⟩ := Prod.mk.inj (Option.some.inj h)
    exact ⟨⟨nonempty, short⟩, Or.inl rfl⟩
  · rename_i left' code hy
    split at h
    · rename_i symbol
      obtain ⟨rfl, rfl⟩ := Prod.mk.inj (Option.some.inj h)
      refine ⟨left hy, Or.inr ⟨jaCodeToSymbol_nonneg code, Or.inr ?_⟩⟩
      rcases symbol with rfl | rfl | rfl | rfl
      · exact Or.inl rfl
      · exact Or.inr (Or.inl rfl)
      · exact Or.inr (Or.inr (Or.inl rfl))
      · exact Or.inr (Or.inr (Or.inr rfl))
    · exact numeric (left hy) h
  · rename_i left' range _ hy
    exact numeric (left hy) h

end Names

section Loop

/-- `lastToField` on the segments below an archive. -/
def endField : List Segment → List Segment
  | [] => []
  | [segm] => [if segm.jsl = .logicScope then { segm with jsl := .field } else segm]
  | segm :: next :: rest => segm :: endField (next :: rest)

theorem getLast?_endField_eq (segms : List Segment) : endField segms =
    match segms.getLast? with
    | none => segms
    | some last =>
      if last.jsl = .logicScope then segms.dropLast ++ [{ last with jsl := .field }]
      else segms := by
  induction segms with
  | nil => rfl
  | cons segm rest ih =>
    cases rest with
    | nil =>
      simp only [endField, List.getLast?_singleton, List.dropLast_singleton, List.nil_append]
      split <;> rfl
    | cons next rest =>
      rw [endField, ih, List.getLast?_cons_cons]
      cases (next :: rest).getLast? with
      | none => rfl
      | some last =>
        dsimp only
        split <;> rfl

theorem lastToField_below (dir archive : Segment) {segms : List Segment} (nonempty : segms ≠ []) :
    lastToField (dir :: archive :: segms) = dir :: archive :: endField segms := by
  obtain ⟨segm, rest, rfl⟩ := List.exists_cons_of_ne_nil nonempty
  rw [getLast?_endField_eq, lastToField, List.getLast?_cons_cons, List.getLast?_cons_cons]
  cases hlast : (segm :: rest).getLast? with
  | none => simp at hlast
  | some last =>
    have long : 3 ≤ (dir :: archive :: segm :: rest).length := by simp
    dsimp only
    by_cases scope : last.jsl = .logicScope
    · rw [if_pos ⟨long, scope⟩, if_pos scope]
      rfl
    · rw [if_neg (fun h => scope h.2), if_neg scope]

/-- One turn of the loop of `rt_separate_segment`. -/
theorem rtSeparateLoop_cons {depth : Nat} {previous : Option Segment} {piece : Bytes}
    {rest : List Bytes} {segms : List Segment}
    (h : rtSeparateLoop depth previous (piece :: rest) = some segms) :
    ∃ name index segm later, NameFits name ∧ rtAnalysisArraySyntax piece = some (name, index) ∧
      (index = -1 ∨ (0 ≤ index ∧ IndexFits index)) ∧
      rtAnalyzeSegment piece depth = some segm ∧
      (∀ p ∈ previous, p.jsl = .array → p.index ≠ jaSymEntire) ∧
      rtSeparateLoop (depth + 1) (some segm) rest = some later ∧ segms = segm :: later := by
  rw [rtSeparateLoop] at h
  split at h
  · cases h
  · rename_i accepted
    obtain ⟨filled, deep⟩ := not_or.mp accepted
    obtain ⟨_, short⟩ := not_or.mp deep
    cases hs : rtAnalyzeSegment piece depth with
    | none => simp [hs] at h
    | some segm =>
      simp only [hs] at h
      split at h
      · cases h
      · rename_i single
        obtain ⟨later, hlater, rfl⟩ := Option.map_eq_some_iff.mp h
        cases hn : rtAnalysisArraySyntax piece with
        | none => simp [rtAnalyzeSegment, hn] at hs
        | some found =>
          obtain ⟨name, index⟩ := found
          obtain ⟨fits, range⟩ := rtAnalysisArraySyntax_spec filled (Nat.lt_of_not_le short) hn
          refine ⟨name, index, segm, later, fits, rfl, range, rfl, ?_, hlater, rfl⟩
          intro p hp array entire
          rw [Option.mem_def] at hp
          subst hp
          exact single (by simp [array, entire])

theorem rtAnalyzeSegment_below {piece name : Bytes} {index : Int} {depth : Nat}
    (h : rtAnalysisArraySyntax piece = some (name, index)) (deep : 2 ≤ depth) :
    rtAnalyzeSegment piece depth =
      some ⟨name, index, if index < 0 then .logicScope else .array⟩ := by
  obtain ⟨d, rfl⟩ := Nat.exists_eq_add_of_le' deep
  simp only [rtAnalyzeSegment, h]

theorem below_of_loop {depth : Nat} {previous : Option Segment} {pieces : List Bytes}
    {segms : List Segment} (nonempty : pieces ≠ []) (deep : 2 ≤ depth)
    (h : rtSeparateLoop depth previous pieces = some segms) :
    Below (endField segms) ∧ ∀ p ∈ previous, p.jsl = .array → p.index ≠ jaSymEntire := by
  induction pieces generalizing depth previous segms with
  | nil => exact absurd rfl nonempty
  | cons piece rest ih =>
    obtain ⟨name, index, segm, later, fits, hn, range, hs, single, hlater, rfl⟩ :=
      rtSeparateLoop_cons h
    rw [rtAnalyzeSegment_below hn deep, Option.some.injEq] at hs
    refine ⟨?_, single⟩
    cases rest with
    | nil =>
      rw [rtSeparateLoop, Option.some.injEq] at hlater
      subst hlater hs
      rcases range with rfl | ⟨lower, range⟩
      · exact .field fits
      · have array : ¬ index < 0 := by omega
        simp only [endField, if_neg array]
        exact .array fits range
    | cons next rest =>
      obtain ⟨below, one⟩ := ih (List.cons_ne_nil _ _) (by omega) hlater
      have more : later ≠ [] := by
        rintro rfl
        exact below.ne_nil rfl
      obtain ⟨segm', later', rfl⟩ := List.exists_cons_of_ne_nil more
      rw [endField]
      subst hs
      rcases range with rfl | ⟨lower, range⟩
      · exact .scope fits below
      · have array : ¬ index < 0 := by omega
        simp only [if_neg array] at one ⊢
        exact .item fits range (one _ rfl rfl) below

end Loop

theorem rtAnalyzeSegment_dir {piece name : Bytes} {index : Int} {segm : Segment}
    (h : rtAnalysisArraySyntax piece = some (name, index))
    (range : index = -1 ∨ (0 ≤ index ∧ IndexFits index)) :
    (rtAnalyzeSegment piece 0 = some segm → segm = ⟨name, -1, .dir⟩) ∧
      (rtAnalyzeSegment piece 1 = some segm → segm = ⟨name, -1, .archive⟩) := by
  rcases range with rfl | ⟨lower, _⟩
  · constructor
    · intro hs
      simpa [rtAnalyzeSegment, h, eq_comm] using hs
    · intro hs
      simpa [rtAnalyzeSegment, h, eq_comm] using hs
  · have array : ¬ index < 0 := by omega
    constructor
    · intro hs
      simp [rtAnalyzeSegment, h, array] at hs
    · intro hs
      simp [rtAnalyzeSegment, h, array] at hs

theorem acceptedKey_of_rtSeparateSegment {key : Bytes} {segms : List Segment} (nonempty : key ≠ [])
    (h : rtSeparateSegment key = some segms) : AcceptedKey segms := by
  rw [rtSeparateSegment, if_neg nonempty] at h
  obtain ⟨raw, hraw, rfl⟩ := Option.map_eq_some_iff.mp h
  obtain ⟨piece, pieces, hp⟩ := List.exists_cons_of_ne_nil (List.splitOn_ne_nil dot key)
  rw [hp] at hraw
  obtain ⟨dir, index, segm, later, fits, hn, range, hs, _, hlater, rfl⟩ :=
    rtSeparateLoop_cons hraw
  obtain rfl := (rtAnalyzeSegment_dir hn range).1 hs
  cases pieces with
  | nil =>
    rw [rtSeparateLoop, Option.some.injEq] at hlater
    subst hlater
    exact .dir fits
  | cons piece' pieces =>
    obtain ⟨archive, index', segm', later', fits', hn', range', hs', _, hlater', rfl⟩ :=
      rtSeparateLoop_cons hlater
    obtain rfl := (rtAnalyzeSegment_dir hn' range').2 hs'
    cases pieces with
    | nil =>
      rw [rtSeparateLoop, Option.some.injEq] at hlater'
      subst hlater'
      exact .archive fits fits'
    | cons next pieces =>
      obtain ⟨below, _⟩ := below_of_loop (List.cons_ne_nil _ _) (Nat.le_refl 2) hlater'
      have more : later' ≠ [] := by
        rintro rfl
        exact below.ne_nil rfl
      rw [lastToField_below _ _ more]
      exact .below fits fits' below

/-- Every payload that is accepted has an accepted key, and a value that fits. -/
theorem acceptedKey_of_rtCreateJrp {payload : Bytes} {jrp : Jrp}
    (h : rtCreateJrp payload = some jrp) : AcceptedKey jrp.segm ∧
      ∀ v, jrp.valuestring = some v → jrp.dupvalue = v ∧ v ≠ [] ∧ v.length < maxValueSize := by
  rw [rtCreateJrp] at h
  cases hk : rtSeparateKvField payload with
  | none => simp [hk] at h
  | some found =>
    obtain ⟨key, value⟩ := found
    simp only [hk] at h
    obtain ⟨segms, hs, rfl⟩ := Option.map_eq_some_iff.mp h
    simp only [rtSeparateKvField] at hk
    split at hk
    · cases hk
    · rename_i accepted
      obtain ⟨filled, _⟩ := not_or.mp accepted
      split at hk
      · obtain ⟨rfl, rfl⟩ := Prod.mk.inj (Option.some.inj hk)
        refine ⟨acceptedKey_of_rtSeparateSegment filled hs, ?_⟩
        rintro v ⟨⟩
      · split at hk
        · cases hk
        · rename_i fits
          obtain ⟨filled', short⟩ := not_or.mp fits
          obtain ⟨rfl, rfl⟩ := Prod.mk.inj (Option.some.inj hk)
          refine ⟨acceptedKey_of_rtSeparateSegment filled hs, ?_⟩
          rintro v ⟨⟩
          exact ⟨rfl, filled', Nat.lt_of_not_le short⟩

section Dots

theorem dot_not_mem_splitOn {key piece : Bytes} (h : piece ∈ key.splitOn dot) : dot ∉ piece := by
  induction key generalizing piece with
  | nil =>
    rw [List.splitOn_nil, List.mem_singleton] at h
    simp [h]
  | cons c rest ih =>
    rw [List.splitOn, List.splitOnP_cons_eq_if_modifyHead] at h
    split at h
    · rcases List.mem_cons.mp h with rfl | later
      · exact List.not_mem_nil
      · exact ih later
    · rename_i other
      obtain ⟨first, later, pieces⟩ :=
        List.exists_cons_of_ne_nil (List.splitOnP_ne_nil (· == dot) rest)
      have each : ∀ q ∈ first :: later, dot ∉ q := by
        intro q hq
        apply ih
        rw [List.splitOn, pieces]
        exact hq
      rw [pieces, List.modifyHead_cons, List.mem_cons] at h
      rcases h with rfl | later'
      · have apart : ¬ dot = c := by
          rintro rfl
          exact other (beq_self_eq_true dot)
        exact fun mem => (List.mem_cons.mp mem).elim apart (each first (List.mem_cons_self ..))
      · exact each piece (List.mem_cons_of_mem _ later')

theorem name_subset_piece {piece name : Bytes} {index : Int}
    (h : rtAnalysisArraySyntax piece = some (name, index)) : name ⊆ piece := by
  have numeric : ∀ {left range : Bytes},
      rtAnalysisArraySyntax.rtNumericIndex left range = some (name, index) → name = left := by
    intro left range hn
    rw [rtAnalysisArraySyntax.rtNumericIndex] at hn
    split at hn
    · split at hn
      · cases hn
      · exact (Prod.mk.inj (Option.some.inj hn)).1.symm
    · cases hn
  have left : ∀ {left range : Bytes}, rtIsArraySyntax piece = .yes left range → left ⊆ piece := by
    intro left range hy
    rw [rtIsArraySyntax] at hy
    split at hy
    · cases hy
    · split at hy
      · obtain ⟨rfl, rfl⟩ := ArraySyntax.yes.inj hy
        exact (List.takeWhile_prefix _).subset
      · cases hy
  rw [rtAnalysisArraySyntax] at h
  split at h
  · cases h
  · obtain ⟨rfl, rfl⟩ := Prod.mk.inj (Option.some.inj h)
    exact List.Subset.refl _
  · rename_i hy
    split at h
    · obtain ⟨rfl, rfl⟩ := Prod.mk.inj (Option.some.inj h)
      exact left hy
    · exact numeric h ▸ left hy
  · rename_i hy
    exact numeric h ▸ left hy

theorem names_of_loop {depth : Nat} {previous : Option Segment} {pieces : List Bytes}
    {segms : List Segment} (h : rtSeparateLoop depth previous pieces = some segms) :
    ∀ segm ∈ segms, ∃ piece ∈ pieces, segm.name ⊆ piece := by
  induction pieces generalizing depth previous segms with
  | nil =>
    rw [rtSeparateLoop, Option.some.injEq] at h
    subst h
    exact nofun
  | cons piece rest ih =>
    obtain ⟨name, index, segm, later, _, hn, _, hs, _, hlater, rfl⟩ := rtSeparateLoop_cons h
    have named : segm.name = name := by
      simp only [rtAnalyzeSegment, hn] at hs
      split at hs
      · split at hs
        · exact (Option.some.inj hs) ▸ rfl
        · cases hs
      · split at hs
        · exact (Option.some.inj hs) ▸ rfl
        · cases hs
      · exact (Option.some.inj hs) ▸ rfl
    intro segm' mem
    rcases List.mem_cons.mp mem with rfl | mem
    · exact ⟨piece, List.mem_cons_self .., named ▸ name_subset_piece hn⟩
    · obtain ⟨piece', mem', subset⟩ := ih hlater segm' mem
      exact ⟨piece', List.mem_cons_of_mem _ mem', subset⟩

theorem names_lastToField {segms : List Segment} {segm : Segment}
    (h : segm ∈ lastToField segms) : ∃ segm' ∈ segms, segm'.name = segm.name := by
  rw [lastToField] at h
  split at h
  · exact ⟨segm, h, rfl⟩
  · rename_i last final
    split at h
    · rcases List.mem_append.mp h with early | late
      · exact ⟨segm, List.dropLast_subset _ early, rfl⟩
      · refine ⟨last, List.mem_of_getLast? final, ?_⟩
        rw [List.mem_singleton.mp late]
    · exact ⟨segm, h, rfl⟩

/-- No name in an accepted key has a dot. -/
theorem noDot_of_rtSeparateSegment {key : Bytes} {segms : List Segment}
    (h : rtSeparateSegment key = some segms) : ∀ segm ∈ segms, dot ∉ segm.name := by
  intro segm mem hdot
  rw [rtSeparateSegment] at h
  split at h
  · obtain rfl := Option.some.inj h
    cases mem
  · obtain ⟨raw, hraw, rfl⟩ := Option.map_eq_some_iff.mp h
    obtain ⟨segm', mem', same⟩ := names_lastToField mem
    obtain ⟨piece, hpiece, subset⟩ := names_of_loop hraw segm' mem'
    exact dot_not_mem_splitOn hpiece (subset (same ▸ hdot))

end Dots

end KeyShape
