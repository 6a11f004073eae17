import Cfgd.DeleteLaw

/-!
# The plain key of an array

A key without an index in its last segment names a field, a scope or a file. The walk
refuses it where the tree has an array, so that no array is deleted through its plain key.
-/

namespace PlainArrayKey

open AvlTree CText CJson Request ConfigNode Loader Runtime KeyShape Reach Levels DeleteRange
open WriteFrame WriteThenRead DeleteLaw

variable {ν : Type} [DoubleText ν]

/-- The member `name` of the node at the place is gone with all that is below it, and every
other key is answered as before. -/
def DeletesWhole (world : World ν) (jrp : Jrp) (place : Path) (name : Bytes) : Prop :=
  ∃ u, rtConfigUpdate world jrp = some u ∧ 0 ≤ u.retval ∧
    (∀ q : Jrp, Through (rootNode world.root) place name q.segm →
      (rtSearch u.world.root q).1 < 0) ∧
    ∀ q : Jrp, ¬ Through (rootNode world.root) place name q.segm →
      rtSearch u.world.root q = rtSearch world.root q

/-- The last segment of the key has no index, and it names an array that is not empty. -/
structure NamesArray (world : World ν) (segms : List Segment) (place : Path) (segm : Segment) :
    Prop where
  last : segms.getLast? = some segm
  plain : segm.index = -1
  led : keyPlace (rootNode world.root) segms.dropLast = some place
  array : ∃ m c, (rootNode world.root).getAt place = some m ∧
    m.follow (.scope (fold segm.name)) = some c ∧ c.info.jsl = .array ∧ c.array ≠ []

theorem below_index {segms : List Segment} (below : Below segms) :
    ∀ segm ∈ segms, segm.jsl = .array → 0 ≤ segm.index := by
  induction below with
  | field fits =>
    intro segm mem array
    rw [List.mem_singleton.mp mem] at array
    cases array
  | scope fits _ ih =>
    intro segm mem array
    rcases List.mem_cons.mp mem with rfl | mem
    · cases array
    · exact ih segm mem array
  | array fits range =>
    intro segm mem _
    rw [List.mem_singleton.mp mem]
    exact indexFits_nonneg range
  | item fits range _ _ ih =>
    intro segm mem array
    rcases List.mem_cons.mp mem with rfl | mem
    · exact indexFits_nonneg range
    · exact ih segm mem array

/-- In a key that the parser accepts only a segment with an index stands for an array. -/
theorem plain_level {segms : List Segment} (accepted : AcceptedKey segms) {segm : Segment}
    (mem : segm ∈ segms) (plain : segm.index = -1) : segm.jsl ≠ .array := by
  intro array
  have index : 0 ≤ segm.index := by
    cases accepted with
    | dir fits =>
      rw [List.mem_singleton.mp mem] at array
      cases array
    | archive fits fits' =>
      rcases List.mem_cons.mp mem with rfl | mem
      · cases array
      · rw [List.mem_singleton.mp mem] at array
        cases array
    | below fits fits' below =>
      rcases List.mem_cons.mp mem with rfl | mem
      · cases array
      · rcases List.mem_cons.mp mem with rfl | mem
        · cases array
        · exact below_index below segm mem array
  omega

section Walk
variable {n m c : Node} {pre : List Segment} {segm : Segment} {place : Path}

/-- The walk along the key finds no last node. -/
theorem reach_plain (roomy : Roomy n) (led : keyPlace n pre = some place)
    (there : n.getAt place = some m) (found : m.follow (.scope (fold segm.name)) = some c)
    (array : c.info.jsl = .array) (plain : segm.jsl ≠ .array)
    {above : Path} {node previous archive : Option Path} {before : List Segment} {r : Reached}
    (reach : rtReachLoop n.nextScope above node previous archive before (pre ++ [segm]) =
      some r) : r.last = none := by
  induction pre generalizing n place above node previous archive before with
  | nil =>
    obtain rfl := Option.some.inj led
    obtain rfl := Option.some.inj there
    rw [List.nil_append, rtReachLoop, searchScope_eq_follow, found] at reach
    dsimp only at reach
    rw [if_pos ⟨.inl array, fun same => plain (same ▸ array)⟩] at reach
    cases reach
  | cons s rest ih =>
    rw [List.cons_append, rtReachLoop, searchScope_eq_follow] at reach
    rw [keyPlace] at led
    obtain ⟨d, hd, led⟩ := Option.bind_eq_some_iff.mp led
    rw [hd] at reach
    dsimp only at reach
    by_cases mismatch : (d.info.jsl = .array ∨ s.jsl = .array) ∧ d.info.jsl ≠ s.jsl
    · rw [if_pos mismatch] at reach
      cases reach
    rw [if_neg mismatch] at reach
    by_cases level : d.info.jsl = .array
    · rw [if_pos level] at led reach
      have room : d.info.arraysize < jaSymLast := roomy [.scope (fold s.name)] d (by
        rw [Node.getAt, hd]
        rfl)
      -- the item that the index leads to
      have enters : ∀ which : Int, 0 ≤ which → s.index ≠ jaSymQuerySize →
          placeOf d.info.arraysize s.index = some which.toNat →
          ∃ e path, rtSeekArrayNode d which = some e ∧ d.follow (.item which.toNat) = some e ∧
            keyPlace e rest = some path ∧ e.getAt path = some m := by
        intro which positive notSize entered
        rw [if_neg notSize, entered, Option.bind_some] at led
        obtain ⟨e, he, led⟩ := Option.bind_eq_some_iff.mp led
        obtain ⟨path, way, rfl⟩ := Option.map_eq_some_iff.mp led
        rw [Node.getAt, hd, Option.bind_some, Node.getAt, he] at there
        refine ⟨e, path, ?_, he, way, there⟩
        rw [← he, ← rtSeekArrayNode_eq_follow, Int.toNat_of_nonneg positive]
      by_cases next : 0 ≤ d.info.arraysize ∧ s.index = d.info.arraysize
      · rw [if_pos next] at reach
        obtain rfl := Option.some.inj reach
        rfl
      rw [if_neg next] at reach
      by_cases empty : d.info.arraysize ≤ 0 ∨ d.array = []
      · rw [if_pos empty] at reach
        by_cases add : s.index = jaSymAdd
        · rw [if_pos add] at reach
          obtain rfl := Option.some.inj reach
          rfl
        · rw [if_neg add] at reach
          cases reach
      rw [if_neg empty] at reach
      by_cases inside : 0 ≤ s.index ∧ s.index < d.info.arraysize
      · rw [if_pos inside] at reach
        have wide : jaSymLast < jaSymQuerySize := by decide
        obtain ⟨e, path, seek, he, way, there⟩ := enters s.index inside.1 (by omega) (by
          rw [placeOf, if_pos inside])
        rw [seek] at reach
        exact ih ((roomy.down hd).down he) way there reach
      rw [if_neg inside] at reach
      by_cases last : s.index = jaSymLast
      · rw [if_pos last] at reach
        have positive : 0 < d.info.arraysize := by omega
        obtain ⟨e, path, seek, he, way, there⟩ := enters (d.info.arraysize - 1) (by omega)
          (last ▸ by decide) (by rw [placeOf, if_neg inside, if_pos ⟨positive, last⟩])
        rw [seek] at reach
        exact ih ((roomy.down hd).down he) way there reach
      rw [if_neg last] at reach
      by_cases size : s.index = jaSymQuerySize
      · rw [if_pos size] at reach
        cases reach
      -- `[+]` stands for a new item, and `[*]` leads to no item
      have nowhere : placeOf d.info.arraysize s.index = none := by
        rw [placeOf, if_neg inside, if_neg fun h => last h.2]
      rw [if_neg size, nowhere] at led
      cases led
    · rw [if_neg level] at led reach
      obtain ⟨path, way, rfl⟩ := Option.map_eq_some_iff.mp led
      rw [Node.getAt, hd] at there
      exact ih (roomy.down hd) way there reach

end Walk

section Refusal
variable {world : World ν} {jrp : Jrp} {place : Path} {segm : Segment}

/-- The request is refused, and nothing changes. -/
theorem plain_refused (wf : WellFormed world) {payload : Bytes}
    (parsed : rtCreateJrp payload = some jrp) (value : jrp.valuestring = some keywordDeleted)
    (names : NamesArray world jrp.segm place segm) :
    ∃ archive, rtConfigUpdate world jrp = some ⟨world, -1, archive⟩ := by
  have plain := plain_level (acceptedKey_of_rtCreateJrp parsed).1
    (List.mem_of_getLast? names.last) names.plain
  obtain ⟨m, c, there, found, array, _⟩ := names.array
  have split : jrp.segm = jrp.segm.dropLast ++ [segm] :=
    (List.dropLast_append_getLast? segm names.last).symm
  rw [rtConfigUpdate, value]
  dsimp only
  split_ifs
  · exact ⟨none, rfl⟩
  cases reach : rtReachLastMatchScope world.root jrp.segm with
  | none => exact ⟨none, rfl⟩
  | some reached =>
    rw [rtReachLastMatchScope, split] at reach
    have missing : reached.last = none :=
      @reach_plain (rootNode world.root) m c _ segm place (roomy_root wf) names.led there found
        array plain [] none none none [] reached reach
    dsimp only
    rw [missing]
    cases reached.previous with
    | none => exact ⟨reached.archive, rfl⟩
    | some previous =>
      refine ⟨reached.archive, congrArg some ?_⟩
      rw [updateMissing]
      cases (rootNode world.root).getAt previous with
      | none => rfl
      | some node =>
        dsimp only
        split_ifs with field dir deleted
        · rfl
        · rfl
        · rfl
        · exact absurd rfl deleted

/-- No array is deleted by its plain key. -/
theorem not_deletesWhole (wf : WellFormed world) {payload : Bytes}
    (parsed : rtCreateJrp payload = some jrp) (value : jrp.valuestring = some keywordDeleted)
    (names : NamesArray world jrp.segm place segm) :
    ¬ DeletesWhole world jrp place (fold segm.name) := by
  rintro ⟨u, done, ok, _⟩
  obtain ⟨archive, refused⟩ := plain_refused wf parsed value names
  obtain rfl := Option.some.inj (refused.symm.trans done)
  exact absurd ok (show ¬ (0 : Int) ≤ -1 by decide)

end Refusal

section OneArray

def arr : Segment := ⟨ofChars ['a', 'r', 'r'], -1, .field⟩

/-- `d.a.arr=deleted` -/
def arrayRequest : Jrp where
  segm := [⟨ofChars ['d'], -1, .dir⟩, ⟨ofChars ['a'], -1, .archive⟩, arr]
  valuestring := some keywordDeleted
  dupkey := ofChars ['d', '.', 'a', '.', 'a', 'r', 'r']
  dupvalue := keywordDeleted

theorem arrayRequest_parsed :
    rtCreateJrp (arrayRequest.dupkey ++ equalSign :: keywordDeleted) = some arrayRequest := by
  decide +kernel

def arrayPlace : Path := [.scope (ofChars ['d']), .scope (ofChars ['a'])]

theorem arrayRequest_names : NamesArray itemWorld arrayRequest.segm arrayPlace arr :=
  ⟨rfl, rfl, rfl, _, _, rfl, rfl, rfl, by decide⟩

/-- The array `["x"]` stays, and `d.a.arr[0]` is still there. -/
theorem arrayRequest_stays : ¬ ∀ (world : World Nat) (payload : Bytes) (jrp : Jrp) (place : Path)
    (segm : Segment), WellFormed world → rtCreateJrp payload = some jrp →
    jrp.valuestring = some keywordDeleted → NamesArray world jrp.segm place segm →
    DeletesWhole world jrp place (fold segm.name) := by
  intro deletes
  obtain ⟨u, done, ok, _⟩ := deletes itemWorld _ arrayRequest arrayPlace arr itemWorld_wellFormed
    arrayRequest_parsed rfl arrayRequest_names
  obtain ⟨archive, refused⟩ :=
    plain_refused itemWorld_wellFormed arrayRequest_parsed rfl arrayRequest_names
  obtain rfl := Option.some.inj (refused.symm.trans done)
  exact absurd ok (show ¬ (0 : Int) ≤ -1 by decide)

theorem not_deletesWhole_arr : WellFormed itemWorld ∧
    NamesArray itemWorld arrayRequest.segm arrayPlace arr ∧
    ¬ DeletesWhole itemWorld arrayRequest arrayPlace (fold arr.name) :=
  ⟨itemWorld_wellFormed, arrayRequest_names,
    not_deletesWhole itemWorld_wellFormed arrayRequest_parsed rfl arrayRequest_names⟩

end OneArray

end PlainArrayKey
