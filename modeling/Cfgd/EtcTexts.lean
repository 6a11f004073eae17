import Mathlib.Data.List.Nodup
import Mathlib.Data.List.Perm.Subperm
import Cfgd.EtcPairs

/-!
# The texts that `etc_reader.c` reads right

A text is a row of lines with their line ends and what follows the last of them. Since
the first character of a line is not looked at, a line that is a `\n` alone does not end:
it runs on into the line behind it.
-/

namespace EtcReader

open CText

section Lines

structure Line where
  content : Bytes
  crlf : Bool

/-- The characters in front of the `\n`. -/
def Line.text (line : Line) : Bytes := line.content ++ List.replicate line.crlf.toNat 13

/-- The key and the value of a `key=value` line. -/
def Line.pair (line : Line) : Option (Bytes × Bytes) := pairOf (stripped line.content)

def textOf (lines : List Line) (last : Bytes) : Bytes :=
  lines.flatMap (fun line => line.text ++ [10]) ++ last

/-- The pairs of a text in their order; `last` has no line end. -/
def pairsOf (lines : List Line) (last : Bytes) : List (Bytes × Bytes) :=
  lines.filterMap Line.pair ++ (pairOf (stripped last)).toList

/-- A text whose keys are there and differ. -/
structure WellFormed (lines : List Line) (last : Bytes) : Prop where
  plain : ∀ line ∈ lines, Plain line.content
  plain_last : Plain last
  named : ∀ pair ∈ pairsOf lines last, pair.1 ≠ []
  distinct : ((pairsOf lines last).map Prod.fst).Nodup

/-- The buffer is loaded and queried without a read outside it, and a query answers with
the value of each key and with nothing else. -/
def Answers (buffer : Bytes) (pairs : List (Bytes × Bytes)) : Prop :=
  ∃ loaded, etcrLoadFromMemory buffer = some loaded ∧ ∀ file, loaded = some file → ∀ k,
    ∃ answer, etcrQueryValueBykey file k = some answer ∧
      ((∃ ptr, answer = some ptr) ↔ k ∈ pairs.map Prod.fst) ∧
      ∀ ptr, answer = some ptr → ∃ v, (k, v) ∈ pairs ∧ Holds file.data ptr v

/-- A string up to a carriage return behind its first character. -/
def uncarried : Bytes → Bytes
  | [] => []
  | c :: body => c :: body.takeWhile (· != 13)

/-- No `key=value` line is run into by a line that is a `\n` alone, and none has a carriage
return of its own; `running` behind such a line that did not end. -/
def Separate : Bool → List Line → Prop
  | _, [] => True
  | true, line :: rest => line.pair = none ∧ Separate false rest
  | false, line :: rest =>
    (line.pair ≠ none → 13 ∉ (stripped line.content).tail) ∧ Separate line.text.isEmpty rest

/-- The first line is spaces alone, up to its carriage return and its comment. -/
def BlankFirst : List Line → Prop
  | [] => False
  | line :: _ => stripped (uncarried line.text) ≠ [] ∧
    ∀ b ∈ stripped (uncarried line.text), space b = true

structure Parsable (lines : List Line) (last : Bytes) : Prop where
  separate : Separate false lines
  unterminated : pairOf (stripped last) = none
  opened : ¬ BlankFirst lines

end Lines

section Seen

/-- The lines as the parser sees them. -/
def segsOf : Bool → List Line → List Seg
  | _, [] => []
  | true, line :: rest => ⟨10, line.text⟩ :: segsOf false rest
  | false, line :: rest =>
    match line.text with
    | [] => segsOf true rest
    | c :: body => ⟨c, body⟩ :: segsOf false rest

/-- Whether a line that is a `\n` alone runs on at the end. -/
def pending : Bool → List Line → Bool
  | running, [] => running
  | true, _ :: rest => pending false rest
  | false, line :: rest => pending line.text.isEmpty rest

theorem segs_raw (running : Bool) (lines : List Line) :
    List.replicate running.toNat 10 ++ lines.flatMap (fun line => line.text ++ [10]) =
      (segsOf running lines).flatMap Seg.raw ++
        List.replicate (pending running lines).toNat 10 := by
  induction lines generalizing running with
  | nil => cases running <;> rfl
  | cons line rest ih =>
    cases running with
    | true =>
      have next := ih false
      simp only [Bool.toNat_false, List.replicate_zero, List.nil_append] at next
      simp [segsOf, pending, Seg.raw, next]
    | false =>
      cases text : line.text with
      | nil =>
        have next := ih true
        simp only [Bool.toNat_true, List.replicate_one] at next
        simpa [segsOf, pending, text] using next
      | cons c body =>
        have next := ih false
        simp only [Bool.toNat_false, List.replicate_zero, List.nil_append] at next
        simp [segsOf, pending, text, Seg.raw, next]

theorem text_plain {line : Line} (plain : Plain line.content) : Plain line.text := by
  refine List.forall_mem_append.mpr ⟨plain, fun b member => ?_⟩
  rw [List.eq_of_mem_replicate member]
  decide

theorem segs_clean {lines : List Line} (plain : ∀ line ∈ lines, Plain line.content)
    (running : Bool) : ∀ seg ∈ segsOf running lines, seg.Clean := by
  have lf : (10 : UInt8) ≠ 0 := by decide
  induction lines generalizing running with
  | nil => cases running <;> exact fun _ h => nomatch h
  | cons line rest ih =>
    obtain ⟨here, later⟩ := List.forall_mem_cons.mp plain
    have here := text_plain here
    cases running with
    | true => exact List.forall_mem_cons.mpr ⟨⟨lf, here⟩, ih later false⟩
    | false =>
      rw [segsOf]
      split
      · exact ih later true
      · rename_i c body text
        rw [text] at here
        obtain ⟨first, body⟩ := List.forall_mem_cons.mp here
        exact List.forall_mem_cons.mpr ⟨⟨first.1, body⟩, ih later false⟩

theorem stripped_cons {b : UInt8} (text : b ≠ 35) (s : Bytes) :
    stripped (b :: s) = b :: stripped s :=
  List.takeWhile_cons_of_pos (bne_iff_ne.mpr text)

/-- A line that is run into starts with the `\n` in front of it. -/
theorem segs_open {running : Bool} {lines : List Line}
    (opened : running = true ∨ ¬ BlankFirst lines) : Opens (segsOf running lines) := by
  have run_into : ∀ lines : List Line, Opens (segsOf true lines) := by
    intro lines
    cases lines with
    | nil => trivial
    | cons line rest =>
      refine Or.inr ⟨10, ?_, rfl⟩
      have lf : (10 : UInt8) ≠ 35 := by decide
      rw [Seg.string, stripped_cons lf]
      exact List.mem_cons_self
  cases running with
  | true => exact run_into lines
  | false =>
    have opened := opened.resolve_left (by decide)
    cases lines with
    | nil => trivial
    | cons line rest =>
      rw [segsOf]
      split
      · exact run_into rest
      · rename_i c body text
        rw [BlankFirst, text] at opened
        by_cases none : stripped (Seg.string ⟨c, body⟩) = []
        · exact Or.inl none
        · refine Or.inr ?_
          by_contra solid
          refine opened ⟨none, fun b member => ?_⟩
          by_contra other
          exact solid ⟨b, member, Bool.not_eq_true _ ▸ other⟩

/-- The pairs of the lines that the parser sees as they are. -/
def plainPairs : Bool → List Line → List (Bytes × Bytes)
  | _, [] => []
  | true, _ :: rest => plainPairs false rest
  | false, line :: rest =>
    (if 13 ∈ (stripped line.content).tail then [] else line.pair.toList) ++
      plainPairs line.text.isEmpty rest

end Seen

section Pairs

variable {s : Bytes}

theorem mem_trimmed_solid {b : UInt8} (h : b ∈ s) (solid : space b = false) : b ∈ trimmed s := by
  obtain ⟨m, n, split, _⟩ := trimmed_split ⟨b, h, solid⟩
  have spaces : ∀ m, b ∉ List.replicate m 0x20 := by
    intro m member
    rw [List.eq_of_mem_replicate member] at solid
    cases solid
  rw [split] at h
  rcases List.mem_append.mp h with lead | h
  · exact absurd lead (spaces m)
  · rcases List.mem_append.mp h with inside | trail
    · exact inside
    · exact absurd trail (spaces n)

theorem pairOf_append {k : Bytes} (first : 61 ∉ k) (v : Bytes) :
    pairOf (k ++ 61 :: v) = some (trimmed k, trimmed v) := by
  have passes : ∀ b ∈ k, (b != 61) = true := fun b member =>
    bne_iff_ne.mpr fun same => first (same ▸ member)
  have sign : 61 ∈ k ++ 61 :: v := List.mem_append_right _ List.mem_cons_self
  rw [pairOf, if_pos sign, List.takeWhile_append_of_pos passes,
    List.takeWhile_cons_of_neg (by decide), List.append_nil, List.dropWhile_append_of_pos passes,
    List.dropWhile_cons_of_neg (by decide), List.tail_cons]

/-- Spaces around a line do not change its pair. -/
theorem pairOf_trimmed (s : Bytes) : pairOf (trimmed s) = pairOf s := by
  by_cases sign : 61 ∈ s
  · obtain ⟨m, n, split, _⟩ := trimmed_split ⟨61, sign, rfl⟩
    have inside : 61 ∈ trimmed s := mem_trimmed_solid sign rfl
    obtain ⟨k, v, whole, first, pair⟩ := pairOf_split inside
    have lead : ∀ b ∈ List.replicate m (0x20 : UInt8), space b = true :=
      fun b member => by rw [List.eq_of_mem_replicate member]; rfl
    have trail : ∀ b ∈ List.replicate n (0x20 : UInt8), space b = true :=
      fun b member => by rw [List.eq_of_mem_replicate member]; rfl
    have first' : 61 ∉ List.replicate m 0x20 ++ k := fun member =>
      (List.mem_append.mp member).elim (fun lead => by cases List.eq_of_mem_replicate lead) first
    have layout : s = List.replicate m 0x20 ++ k ++ 61 :: (v ++ List.replicate n 0x20) := by
      rw [split, whole]
      simp only [List.append_assoc, List.cons_append]
    rw [pair, layout, pairOf_append first', trimmed_spaces_append lead,
      trimmed_append_spaces v trail]
  · have outside : 61 ∉ trimmed s := fun member => sign (mem_trimmed member)
    rw [pairOf, pairOf, if_neg sign, if_neg outside]

theorem Seg.pair_eq (seg : Seg) : seg.pair = pairOf (stripped seg.string) := by
  rw [Seg.pair, lineOf]
  split
  · rename_i none
    rw [none]
    rfl
  · exact pairOf_trimmed _

/-- The line end in front of the line that is run into belongs to its key. -/
theorem pair_run_into {p : Bytes × Bytes} (h : pairOf (stripped (10 :: s)) = some p) :
    10 ∈ p.1 ∧ 61 ∈ stripped s := by
  rw [stripped_cons (by decide)] at h
  by_cases sign : 61 ∈ 10 :: stripped s
  · rw [pairOf, if_pos sign, List.takeWhile_cons_of_pos (by decide)] at h
    obtain rfl := Option.some.inj h
    exact ⟨mem_trimmed_solid List.mem_cons_self rfl,
      (List.mem_cons.mp sign).resolve_left (by decide)⟩
  · rw [pairOf, if_neg sign] at h
    cases h

theorem pairOf_none : pairOf s = none ↔ 61 ∉ s := by
  rw [pairOf]
  split <;> simp [*]

theorem mem_pairOf {p : Bytes × Bytes} (h : pairOf s = some p) {b : UInt8} (member : b ∈ p.1) :
    b ∈ s := by
  rw [pairOf] at h
  split at h
  · obtain rfl := Option.some.inj h
    exact (List.takeWhile_sublist _).subset (mem_trimmed member)
  · cases h

theorem uncarried_split (s : Bytes) : ∃ rest, s = uncarried s ++ rest ∧
    13 ∉ (uncarried s).tail ∧ (13 ∈ s.tail → 13 ∈ rest) := by
  cases s with
  | nil => exact ⟨[], rfl, by decide, fun h => h⟩
  | cons c body =>
    have whole := @List.takeWhile_append_dropWhile _ (· != 13) body
    have clear : 13 ∉ body.takeWhile (· != 13) := fun member =>
      absurd (@List.mem_takeWhile_imp _ (· != 13) body 13 member) (by decide)
    refine ⟨body.dropWhile (· != 13), by rw [uncarried, List.cons_append, whole], clear, ?_⟩
    intro member
    rw [List.tail_cons, ← whole] at member
    exact (List.mem_append.mp member).resolve_left clear

theorem uncarried_eq (clear : 13 ∉ s.tail) : uncarried s = s := by
  cases s with
  | nil => rfl
  | cons c body =>
    rw [uncarried, List.takeWhile_eq_self_iff.mpr]
    exact fun b member => bne_iff_ne.mpr fun same => clear (same ▸ member)

theorem takeWhile_comm (p q : UInt8 → Bool) (s : Bytes) :
    (s.takeWhile p).takeWhile q = (s.takeWhile q).takeWhile p := by
  rw [List.takeWhile_takeWhile, List.takeWhile_takeWhile]
  exact congrArg (List.takeWhile · s) (funext fun b => by simp [and_comm])

/-- The carriage return of the line end is the first thing to go. -/
theorem stripped_line (s : Bytes) (n : Nat) :
    stripped ((s ++ List.replicate n 13).takeWhile (· != 13)) =
      (stripped s).takeWhile (· != 13) := by
  have ends : (List.replicate n (13 : UInt8)).takeWhile (· != 13) = [] := by
    cases n <;> rfl
  have cut : (s ++ List.replicate n 13).takeWhile (· != 13) = s.takeWhile (· != 13) := by
    rw [List.takeWhile_append]
    split
    · rename_i all
      rw [ends, List.append_nil, List.Sublist.eq_of_length (List.takeWhile_sublist _) all]
    · rfl
  rw [cut, stripped, stripped, takeWhile_comm]

/-- What the parser sees of a line that is not run into. -/
theorem pair_seen (line : Line) : pairOf (stripped (uncarried line.text)) =
    pairOf (uncarried (stripped line.content)) := by
  obtain ⟨content, crlf⟩ := line
  cases content with
  | nil => cases crlf <;> rfl
  | cons c body =>
    by_cases comment : c = 35
    · subst comment
      rfl
    · rw [Line.text, List.cons_append, uncarried, stripped_cons comment, stripped_line,
        stripped_cons comment, uncarried]

/-- A carriage return in a `key=value` line cuts off its value, or its `=`. -/
theorem pair_cut {k v : Bytes} (pair : pairOf s = some (k, v)) (cr : 13 ∈ s.tail) :
    pairOf (uncarried s) = none ∨ ∃ v', pairOf (uncarried s) = some (k, v') ∧ v ≠ v' := by
  obtain ⟨rest, whole, clear, behind⟩ := uncarried_split s
  by_cases sign : 61 ∈ uncarried s
  · refine Or.inr ?_
    obtain ⟨k', v', split, first, pair'⟩ := pairOf_split sign
    have longer : s = k' ++ 61 :: (v' ++ rest) := by
      conv_lhs => rw [whole, split]
      simp only [List.append_assoc, List.cons_append]
    have both := pairOf_append first (v' ++ rest)
    rw [← longer, pair] at both
    obtain ⟨rfl, rfl⟩ := Prod.mk.inj (Option.some.inj both)
    refine ⟨trimmed v', pair', fun same => clear ?_⟩
    have inside : 13 ∈ trimmed (v' ++ rest) :=
      mem_trimmed_solid (List.mem_append_right _ (behind cr)) rfl
    have value : 13 ∈ v' := mem_trimmed (same ▸ inside)
    rw [split]
    cases k' with
    | nil => exact value
    | cons c k' => exact List.mem_append_right _ (List.mem_cons_of_mem _ value)
  · exact Or.inl (pairOf_none.mpr sign)

/-- Where nothing is run into or cut off, the parser sees all pairs of the lines. -/
theorem segs_pairs {running : Bool} {lines : List Line} (separate : Separate running lines) :
    (segsOf running lines).filterMap Seg.pair = lines.filterMap Line.pair := by
  induction lines generalizing running with
  | nil => cases running <;> rfl
  | cons line rest ih =>
    cases running with
    | true =>
      obtain ⟨none, separate⟩ := separate
      have none' : Seg.pair ⟨10, line.text⟩ = Option.none := by
        rw [Seg.pair_eq, Option.eq_none_iff_forall_ne_some]
        intro p found
        have sign := (pair_run_into found).2
        rw [Line.text, stripped_line] at sign
        exact pairOf_none.mp none ((List.takeWhile_sublist _).subset sign)
      rw [segsOf, List.filterMap_cons_none none', List.filterMap_cons_none none, ih separate]
    | false =>
      obtain ⟨whole, separate⟩ := separate
      have seen : pairOf (stripped (uncarried line.text)) = line.pair := by
        rw [pair_seen]
        by_cases none : line.pair = Option.none
        · rw [none, pairOf_none]
          obtain ⟨more, split, _⟩ := uncarried_split (stripped line.content)
          intro sign
          refine pairOf_none.mp none ?_
          rw [split]
          exact List.mem_append_left _ sign
        · rw [uncarried_eq (whole none), Line.pair]
      rw [segsOf]
      split
      · rename_i text
        rw [text] at separate seen
        have none : line.pair = Option.none := seen.symm
        exact (ih separate).trans (List.filterMap_cons_none none).symm
      · rename_i c body text
        rw [text] at separate seen
        have next : (segsOf false rest).filterMap Seg.pair = rest.filterMap Line.pair :=
          ih separate
        rw [List.filterMap_cons, List.filterMap_cons, Seg.pair_eq, next, Seg.string, ← seen]
        rfl

/-- Every pair that the parser sees is that of a line, or has a line end in its key, or
has another value than in its line. -/
theorem segs_pairs_from (running : Bool) (lines : List Line) :
    ∀ p ∈ (segsOf running lines).filterMap Seg.pair,
      p ∈ plainPairs running lines ∨ 10 ∈ p.1 ∨
      ∃ v, (p.1, v) ∈ lines.filterMap Line.pair ∧ v ≠ p.2 := by
  induction lines generalizing running with
  | nil => cases running <;> exact fun _ h => nomatch h
  | cons line rest ih =>
    intro p member
    have behind : ∀ running', p ∈ (segsOf running' rest).filterMap Seg.pair →
        p ∈ plainPairs running' rest ∨ 10 ∈ p.1 ∨
          ∃ v, (p.1, v) ∈ (line :: rest).filterMap Line.pair ∧ v ≠ p.2 := by
      intro running' later
      refine (ih running' p later).imp_right fun other => other.imp_right ?_
      rintro ⟨v, seen, differs⟩
      exact ⟨v, (List.Sublist.filterMap _ (List.sublist_cons_self _ _)).subset seen, differs⟩
    cases running with
    | true =>
      obtain ⟨seg, seen, pair⟩ := List.mem_filterMap.mp member
      rcases List.mem_cons.mp seen with rfl | later
      · rw [Seg.pair_eq] at pair
        exact Or.inr (Or.inl (pair_run_into pair).1)
      · exact behind false (List.mem_filterMap.mpr ⟨seg, later, pair⟩)
    | false =>
      have further : p ∈ plainPairs line.text.isEmpty rest →
          p ∈ plainPairs false (line :: rest) := List.mem_append_right _
      rw [segsOf] at member
      cases text : line.text with
      | nil =>
        rw [text] at member further
        exact (behind true member).imp_left further
      | cons c body =>
        rw [text] at member further
        obtain ⟨seg, seen, pair⟩ := List.mem_filterMap.mp member
        rcases List.mem_cons.mp seen with rfl | later
        · have pair : pairOf (stripped (uncarried line.text)) = some p := by
            rw [text, ← pair, Seg.pair_eq]
            rfl
          rw [pair_seen] at pair
          by_cases cr : 13 ∈ (stripped line.content).tail
          · cases own : line.pair with
            | none =>
              obtain ⟨more, split, _⟩ := uncarried_split (stripped line.content)
              refine absurd pair ?_
              rw [pairOf_none.mpr fun sign => pairOf_none.mp own (by
                rw [split]
                exact List.mem_append_left _ sign)]
              exact nofun
            | some whole =>
              obtain none | ⟨v', same, differs⟩ := pair_cut own cr
              · exact nomatch none.symm.trans pair
              · obtain rfl := Option.some.inj (same.symm.trans pair)
                refine Or.inr (Or.inr ⟨whole.2, ?_, differs⟩)
                exact List.mem_filterMap.mpr ⟨line, List.mem_cons_self, own⟩
          · rw [uncarried_eq cr] at pair
            refine Or.inl (List.mem_append_left _ ?_)
            rw [if_neg cr]
            exact Option.mem_toList.mpr pair
        · exact (behind false (List.mem_filterMap.mpr ⟨seg, later, pair⟩)).imp_left further

theorem filterMap_cons_toList (line : Line) (rest : List Line) :
    (line :: rest).filterMap Line.pair = line.pair.toList ++ rest.filterMap Line.pair := by
  rw [List.filterMap_eq_flatMap_toList, List.flatMap_cons, List.filterMap_eq_flatMap_toList]

theorem plainPairs_sublist (running : Bool) (lines : List Line) :
    (plainPairs running lines).Sublist (lines.filterMap Line.pair) := by
  induction lines generalizing running with
  | nil => cases running <;> exact List.Sublist.refl _
  | cons line rest ih =>
    rw [filterMap_cons_toList]
    cases running with
    | true => exact (ih false).trans (List.sublist_append_right ..)
    | false =>
      refine List.Sublist.append ?_ (ih line.text.isEmpty)
      split
      · exact List.nil_sublist _
      · exact List.Sublist.refl _

/-- If no pair is missing, no `key=value` line is run into. -/
theorem separate_of_length {running : Bool} {lines : List Line}
    (all : (lines.filterMap Line.pair).length ≤ (plainPairs running lines).length) :
    Separate running lines := by
  induction lines generalizing running with
  | nil => cases running <;> trivial
  | cons line rest ih =>
    rw [filterMap_cons_toList, List.length_append] at all
    cases running with
    | true =>
      rw [plainPairs] at all
      have fewer := (plainPairs_sublist false rest).length_le
      have none : line.pair.toList = [] := List.length_eq_zero_iff.mp (by omega)
      refine ⟨Option.toList_eq_nil_iff.mp none, ih (by omega)⟩
    | false =>
      rw [plainPairs, List.length_append] at all
      have fewer := (plainPairs_sublist line.text.isEmpty rest).length_le
      split at all
      · have none : line.pair.toList = [] := List.length_eq_zero_iff.mp (by
          rw [List.length_nil] at all
          omega)
        exact ⟨fun own => absurd (Option.toList_eq_nil_iff.mp none) own, ih (by
          rw [none] at all
          exact Nat.le_of_add_le_add_left all)⟩
      · rename_i clear
        exact ⟨fun _ => clear, ih (by omega)⟩

end Pairs

section Texts

variable {lines : List Line} {last : Bytes}

/-- The buffer of a text, once its first line leaves nothing to run back over. -/
theorem load_text (wf : WellFormed lines last) (opened : ¬ BlankFirst lines)
    (nonempty : textOf lines last ≠ []) :
    ∃ file, etcrLoadFromMemory (textOf lines last) = some (some file) ∧
      Kept file.data file ((segsOf false lines).filterMap Seg.pair) := by
  have plain_tail : Plain (List.replicate (pending false lines).toNat 10 ++ last).tail := by
    cases pending false lines with
    | true => exact wf.plain_last
    | false => exact fun b member => wf.plain_last b (List.mem_of_mem_tail member)
  have named : ∀ seg ∈ segsOf false lines, ∀ pair, seg.pair = some pair → pair.1 ≠ [] := by
    intro seg seen pair found
    obtain plain | run_into | ⟨v, own, _⟩ :=
      segs_pairs_from false lines pair (List.mem_filterMap.mpr ⟨seg, seen, found⟩)
    · exact wf.named pair (List.mem_append_left _ ((plainPairs_sublist false lines).subset plain))
    · exact List.ne_nil_of_mem run_into
    · exact wf.named (pair.1, v) (List.mem_append_left _ own)
  obtain ⟨file, parsed, kept⟩ := etcrParse_eq (segs_clean wf.plain false)
    (segs_open (Or.inr opened)) plain_tail named
  have raw := segs_raw false lines
  rw [Bool.toNat_false, List.replicate_zero, List.nil_append] at raw
  rw [← List.append_assoc, ← raw] at parsed
  refine ⟨file, ?_, kept⟩
  rw [etcrLoadFromMemory, if_neg (by simpa using nonempty), textOf, parsed]
  rfl

/-- A blank first line makes the parser read in front of the buffer. -/
theorem load_outside (wf : WellFormed lines last) (blank : BlankFirst lines) :
    etcrLoadFromMemory (textOf lines last) = none := by
  cases lines with
  | nil => exact blank.elim
  | cons line rest =>
    obtain ⟨nonempty, spaces⟩ := blank
    have plain := text_plain (List.forall_mem_cons.mp wf.plain).1
    cases text : line.text with
    | nil =>
      rw [text] at nonempty
      exact absurd rfl nonempty
    | cons c body =>
      rw [text] at nonempty spaces plain
      obtain ⟨first, plain⟩ := List.forall_mem_cons.mp plain
      have outside := @etcrParseLine_outside ⟨c, body⟩ (textOf rest last) ⟨first.1, plain⟩
        nonempty spaces
      have layout : textOf (line :: rest) last = Seg.raw ⟨c, body⟩ ++ textOf rest last := by
        rw [textOf, List.flatMap_cons, List.append_assoc, text]
        rfl
      rw [etcrLoadFromMemory, layout, if_neg (by simp [Seg.raw]), etcrParse, outside]
      rfl

theorem textOf_eq_nil (h : textOf lines last = []) : lines = [] ∧ last = [] := by
  obtain ⟨none, rfl⟩ := List.append_eq_nil_iff.mp h
  refine ⟨?_, rfl⟩
  cases lines with
  | nil => rfl
  | cons line rest => simp at none

/-- Keys of lines contain no line end. -/
theorem key_plain (wf : WellFormed lines last) :
    ∀ p ∈ pairsOf lines last, 10 ∉ p.1 := by
  intro p member lf
  rcases List.mem_append.mp member with inside | behind
  · obtain ⟨line, seen, pair⟩ := List.mem_filterMap.mp inside
    exact (wf.plain line seen 10 (mem_stripped (mem_pairOf pair lf))).2 rfl
  · have pair := Option.mem_toList.mp behind
    exact (wf.plain_last 10 (mem_stripped (mem_pairOf pair lf))).2 rfl

theorem answers_of_parsable (wf : WellFormed lines last) (parsable : Parsable lines last) :
    Answers (textOf lines last) (pairsOf lines last) := by
  by_cases empty : textOf lines last = []
  · rw [empty]
    exact ⟨none, rfl, fun _ h => nomatch h⟩
  obtain ⟨file, loaded, kept⟩ := load_text wf parsable.opened empty
  have all : (segsOf false lines).filterMap Seg.pair = pairsOf lines last := by
    rw [segs_pairs parsable.separate, pairsOf, parsable.unterminated, Option.toList_none,
      List.append_nil]
  rw [all] at kept
  refine ⟨some file, loaded, fun file' same k => ?_⟩
  obtain rfl := Option.some.inj same
  obtain ⟨none, missing⟩ | ⟨ptr, pair, some', found, holds⟩ := kept.query k
  · refine ⟨Option.none, none, ⟨fun ⟨_, h⟩ => (nomatch h), fun member => ?_⟩, nofun⟩
    obtain ⟨pair, seen, key⟩ := List.mem_map.mp member
    exact absurd (decide_eq_true key) (List.find?_eq_none.mp missing pair seen)
  · have seen := List.mem_of_find?_eq_some found
    have key : pair.1 = k := by simpa using List.find?_some found
    refine ⟨some ptr, some', ⟨fun _ => key ▸ List.mem_map_of_mem seen, fun _ => ⟨ptr, rfl⟩⟩, ?_⟩
    intro ptr' same
    obtain rfl := Option.some.inj same
    exact ⟨pair.2, key ▸ seen, holds⟩

/-- A pair that is run into, or not ended, is not found. -/
theorem parsable_of_answers (wf : WellFormed lines last)
    (answers : Answers (textOf lines last) (pairsOf lines last)) : Parsable lines last := by
  obtain ⟨loaded, load, answers⟩ := answers
  have opened : ¬ BlankFirst lines := fun blank =>
    nomatch load.symm.trans (load_outside wf blank)
  by_cases empty : textOf lines last = []
  · obtain ⟨rfl, rfl⟩ := textOf_eq_nil empty
    exact ⟨trivial, rfl, opened⟩
  obtain ⟨file, loaded', kept⟩ := load_text wf opened empty
  obtain rfl := Option.some.inj (load.symm.trans loaded')
  -- every key is that of a line that the parser saw the start of
  have found : (pairsOf lines last).map Prod.fst ⊆ (plainPairs false lines).map Prod.fst := by
    intro k member
    obtain ⟨answer, query, asked, valued⟩ := answers file rfl k
    obtain ⟨ptr, rfl⟩ := asked.mpr member
    obtain ⟨v, own, reads⟩ := valued ptr rfl
    obtain ⟨none, _⟩ | ⟨_, pair, same, found, holds⟩ := kept.query k
    · exact nomatch none.symm.trans query
    · obtain rfl := Option.some.inj (Option.some.inj (same.symm.trans query))
      have key : pair.1 = k := by simpa using List.find?_some found
      have own : pair ∈ pairsOf lines last := by
        have value := holds.text_eq.symm.trans reads.text_eq
        rwa [← key, ← value] at own
      obtain plain | lf | ⟨w, seen, differs⟩ :=
        segs_pairs_from false lines pair (List.mem_of_find?_eq_some found)
      · exact List.mem_map.mpr ⟨pair, plain, key⟩
      · exact absurd lf (key_plain wf pair own)
      · have one := List.inj_on_of_nodup_map wf.distinct (List.mem_append_left _ seen) own rfl
        exact absurd (congrArg Prod.snd one) differs
  have fewer := (wf.distinct.subperm found).length_le
  have some' := (plainPairs_sublist false lines).length_le
  rw [List.length_map, List.length_map, pairsOf, List.length_append] at fewer
  have none : (pairOf (stripped last)).toList = [] := List.length_eq_zero_iff.mp (by omega)
  exact ⟨separate_of_length (by omega), Option.toList_eq_nil_iff.mp none, opened⟩

/-- The reader answers right exactly for the texts without a `key=value` line behind a
line that is a `\n` alone, at the unterminated end or with a carriage return of its own, and
without a blank first line. -/
theorem etcr_answers (lines : List Line) (last : Bytes) (wf : WellFormed lines last) :
    Answers (textOf lines last) (pairsOf lines last) ↔ Parsable lines last :=
  ⟨parsable_of_answers wf, answers_of_parsable wf⟩

/-- `k = v # c`, a blank line and a comment. -/
theorem etcr_answers_two :
    Answers [107, 32, 61, 32, 118, 32, 35, 99, 13, 10, 10, 35, 99, 10] [([107], [118])] := by
  have wf : WellFormed [⟨[107, 32, 61, 32, 118, 32, 35, 99], true⟩, ⟨[], false⟩,
      ⟨[35, 99], false⟩] [] := ⟨by decide, by decide, by decide, by decide⟩
  refine (etcr_answers _ _ wf).mpr
    ⟨⟨fun _ => by decide, fun _ => by decide, rfl, trivial⟩, rfl, ?_⟩
  exact fun blank => absurd (blank.2 107 (by decide)) (by decide)

/-- Behind a blank line `k=v` is not found. -/
theorem etcr_answers_not : ¬ ∀ (lines : List Line) (last : Bytes), WellFormed lines last →
    Answers (textOf lines last) (pairsOf lines last) := by
  intro all
  have wf : WellFormed [⟨[], false⟩, ⟨[107, 61, 118], false⟩] [] :=
    ⟨by decide, by decide, by decide, by decide⟩
  obtain ⟨⟨_, none, _⟩, _, _⟩ := parsable_of_answers wf (all _ _ wf)
  exact absurd none (by decide)

end Texts

end EtcReader
