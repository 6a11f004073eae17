import Cfgd.DocTree
import Cfgd.Runtime

/-!
# What a key denotes in a document

`Denotes` says on the document alone which keys lead to something and which text
is shown there. On a tree that holds the members of a document `rt_search` answers
exactly that, apart from one kind of key: one that arrives at an element which is
no object, string or number.
-/

namespace DocSearch

open AvlTree CText CJson Request ConfigNode Loader Runtime DocTree

variable {ν : Type} [DoubleText ν]

/-- The element of an array that an index means. -/
def elementAt (child : List (Item ν)) (index : Int) : Option (Item ν) :=
  if index = jaSymQuerySize ∨ index = jaSymAdd ∨ index = jaSymEntire then none
  else if index = jaSymLast then child.getLast?
  else if index < child.length ∧ 0 ≤ index then child[index.toNat]?
  else none

/-- The key below an object with these members denotes a leaf or the size of an
array, and shows this text. -/
inductive Denotes : List (Item ν) → List Segment → Bytes → Prop where
  | field {members : List (Item ν)} {segm : Segment} {d : Item ν}
      (found : memberOf members (fold segm.name) = some d) (leaf : itemJsl d = .field)
      (level : segm.jsl = .field) : Denotes members [segm] (valueText d)
  | scope {members : List (Item ν)} {segm : Segment} {rest : List Segment} {d : Item ν}
      {v : Bytes} (found : memberOf members (fold segm.name) = some d)
      (object : itemJsl d = .logicScope) (level : segm.jsl = .logicScope)
      (below : Denotes d.child rest v) : Denotes members (segm :: rest) v
  | size {members : List (Item ν)} {segm : Segment} {d : Item ν}
      (found : memberOf members (fold segm.name) = some d) (array : itemJsl d = .array)
      (level : segm.jsl = .array) (query : segm.index = jaSymQuerySize)
      (filled : d.child ≠ []) : Denotes members [segm] (printInt d.child.length)
  | element {members : List (Item ν)} {segm : Segment} {d e : Item ν}
      (found : memberOf members (fold segm.name) = some d) (array : itemJsl d = .array)
      (level : segm.jsl = .array) (place : elementAt d.child segm.index = some e)
      (leaf : itemJsl e = .arrayItemAsField) : Denotes members [segm] (valueText e)
  | through {members : List (Item ν)} {segm : Segment} {rest : List Segment} {d e : Item ν}
      {v : Bytes} (found : memberOf members (fold segm.name) = some d)
      (array : itemJsl d = .array) (level : segm.jsl = .array)
      (place : elementAt d.child segm.index = some e) (object : itemJsl e = .arrayItem)
      (below : Denotes e.child rest v) : Denotes members (segm :: rest) v

/-- The key arrives at an element that is null, true, false or an array. -/
inductive ArrivesAtOdd : List (Item ν) → List Segment → Prop where
  | here {members : List (Item ν)} {segm : Segment} {rest : List Segment} {d e : Item ν}
      (found : memberOf members (fold segm.name) = some d) (array : itemJsl d = .array)
      (level : segm.jsl = .array) (place : elementAt d.child segm.index = some e)
      (odd : itemJsl e ≠ .arrayItem) (odd' : itemJsl e ≠ .arrayItemAsField) :
      ArrivesAtOdd members (segm :: rest)
  | scope {members : List (Item ν)} {segm : Segment} {rest : List Segment} {d : Item ν}
      (found : memberOf members (fold segm.name) = some d)
      (object : itemJsl d = .logicScope) (level : segm.jsl = .logicScope)
      (below : ArrivesAtOdd d.child rest) : ArrivesAtOdd members (segm :: rest)
  | through {members : List (Item ν)} {segm : Segment} {rest : List Segment} {d e : Item ν}
      (found : memberOf members (fold segm.name) = some d)
      (array : itemJsl d = .array) (level : segm.jsl = .array)
      (place : elementAt d.child segm.index = some e) (object : itemJsl e = .arrayItem)
      (below : ArrivesAtOdd e.child rest) : ArrivesAtOdd members (segm :: rest)

omit [DoubleText ν] in
theorem named_of_memberOf {members : List (Item ν)} {key : Bytes} {d : Item ν}
    (h : memberOf members key = some d) : ∃ name, d.string = some name := by
  have right : (memberName d).map fold = some key := by
    rw [memberOf] at h
    simpa using List.find?_some h
  obtain ⟨_, loaded, _⟩ := Option.map_eq_some_iff.mp right
  obtain ⟨name, named, _⟩ := Option.bind_eq_some_iff.mp loaded
  exact ⟨name, named⟩

omit [DoubleText ν] in
theorem array_of_itemJsl {d : Item ν} (h : itemJsl d = .array) :
    d.kind = .cjsonArray ∧ ∃ name, d.string = some name := by
  cases hs : d.string with
  | none => cases hk : d.kind <;> simp [itemJsl, hs, hk] at h
  | some name => exact ⟨(itemJsl_array_iff hs).mp h, name, rfl⟩

omit [DoubleText ν] in
theorem object_of_itemJsl {d : Item ν} (h : itemJsl d = .logicScope ∨ itemJsl d = .arrayItem) :
    d.kind = .cjsonObject := by
  cases hs : d.string <;> cases hk : d.kind <;> simp [itemJsl, hs, hk] at h ⊢

/-- The items of a node and the elements of the array that it mirrors. -/
theorem follow_item_of_mirrors {c : Node} {d : Item ν} (h : Mirrors c d)
    (array : itemJsl d = .array) (i : Nat) :
    (c.array[i]? = none ∧ d.child[i]? = none) ∨
      ∃ c' e, c.array[i]? = some c' ∧ d.child[i]? = some e ∧ Shows c' e ∧ Mirrors c' e := by
  obtain ⟨kind, name, named⟩ := array_of_itemJsl array
  have step : follow d (.item i) = d.child[i]? := by rw [follow, kind, named]
  cases hc : c.follow (.item i) with
  | none => exact Or.inl ⟨hc, step ▸ (h.none_iff (.item i)).mp hc⟩
  | some c' =>
    obtain ⟨e, he, shown, mirrors⟩ := h.down hc
    exact Or.inr ⟨c', e, hc, step ▸ he, shown, mirrors⟩

theorem length_of_mirrors {c : Node} {d : Item ν} (h : Mirrors c d)
    (array : itemJsl d = .array) : c.array.length = d.child.length := by
  have same : ∀ i, i < c.array.length ↔ i < d.child.length := by
    intro i
    rcases follow_item_of_mirrors h array i with ⟨hc, hd⟩ | ⟨c', e, hc, hd, _⟩
    · rw [List.getElem?_eq_none_iff] at hc hd
      omega
    · have left := (List.getElem?_eq_some_iff.mp hc).1
      have right := (List.getElem?_eq_some_iff.mp hd).1
      omega
  have h1 := same c.array.length
  have h2 := same d.child.length
  omega

theorem arraysize_of_mirrors {c : Node} {d : Item ν} (h : Mirrors c d)
    (array : itemJsl d = .array) : c.info.arraysize = d.child.length := by
  rw [h.linked.size, length_of_mirrors h array]

theorem searchItem_of_mirrors {c : Node} {d : Item ν} (h : Mirrors c d)
    (array : itemJsl d = .array) (filled : d.child ≠ []) {index : Int}
    (plain : ¬ (index = jaSymQuerySize ∨ index = jaSymAdd ∨ index = jaSymEntire)) :
    (searchItem c index = none ∧ elementAt d.child index = none) ∨
      ∃ c' e, searchItem c index = some c' ∧ elementAt d.child index = some e ∧
        Shows c' e ∧ Mirrors c' e := by
  have size := arraysize_of_mirrors h array
  have positive : 0 < d.child.length := List.length_pos_iff.mpr filled
  rw [searchItem, elementAt, size, if_neg plain]
  by_cases last : index = jaSymLast
  · rw [if_pos last, if_pos last]
    have position : ((d.child.length : Int) - 1) = ((d.child.length - 1 : Nat) : Int) := by omega
    rw [position, rtSeekArrayNode_eq_follow, List.getLast?_eq_getElem?]
    exact follow_item_of_mirrors h array (d.child.length - 1)
  · rw [if_neg last, if_neg last]
    by_cases inside : index < d.child.length ∧ 0 ≤ index
    · rw [if_pos inside, if_pos inside]
      obtain ⟨i, rfl⟩ := Int.eq_ofNat_of_zero_le inside.2
      rw [rtSeekArrayNode_eq_follow]
      exact follow_item_of_mirrors h array i
    · rw [if_neg inside, if_neg inside]
      exact Or.inl ⟨rfl, rfl⟩

omit [DoubleText ν] in
theorem elementAt_plain {child : List (Item ν)} {index : Int} {e : Item ν}
    (h : elementAt child index = some e) :
    ¬ (index = jaSymQuerySize ∨ index = jaSymAdd ∨ index = jaSymEntire) := by
  intro symbol
  rw [elementAt, if_pos symbol] at h
  cases h

omit [DoubleText ν] in
theorem elementAt_filled {child : List (Item ν)} {index : Int} {e : Item ν}
    (h : elementAt child index = some e) : child ≠ [] := by
  rintro rfl
  rw [elementAt, if_neg (elementAt_plain h)] at h
  split at h <;> simp at h

theorem ne_nil_of_denotes {members : List (Item ν)} {segms : List Segment} {v : Bytes}
    (h : Denotes members segms v) : segms ≠ [] := by
  cases h <;> exact List.cons_ne_nil _ _

omit [DoubleText ν] in
theorem ne_nil_of_odd {members : List (Item ν)} {segms : List Segment}
    (h : ArrivesAtOdd members segms) : segms ≠ [] := by
  cases h <;> exact List.cons_ne_nil _ _

section Answers
variable {tree : Avl Node} {members : List (Item ν)} {segm : Segment} {rest : List Segment}

theorem holds_some (holds : Holds tree members) {key : Bytes} {d : Item ν}
    (found : memberOf members key = some d) :
    ∃ c, avlsearch Node.scopeKey tree key = some c ∧ Shows c d ∧ Mirrors c d := by
  rcases holds key with ⟨_, none⟩ | ⟨c, d', hc, hd, shown, mirrors⟩
  · rw [none] at found
    cases found
  · obtain rfl := Option.some.inj (hd.symm.trans found)
    exact ⟨c, hc, shown, mirrors⟩

/-- The branch of `rt_search` for a scope. -/
theorem rtSearchLoop_scope (holds : Holds tree members) {d : Item ν}
    (found : memberOf members (fold segm.name) = some d) (object : itemJsl d = .logicScope)
    (level : segm.jsl = .logicScope) (more : rest ≠ []) (retval : Int) (dupvalue : Bytes) :
    ∃ below : Avl Node, Holds below d.child ∧
      rtSearchLoop retval tree dupvalue (segm :: rest) = rtSearchLoop 0 below dupvalue rest := by
  obtain ⟨c, hc, shown, mirrors⟩ := holds_some holds found
  refine ⟨c.nextScope, mirrors.holds (object_of_itemJsl (Or.inl object)), ?_⟩
  have search : searchScope tree segm.name = some c := hc
  rw [rtSearchLoop, search]
  simp [shown.jsl, object, level, more]

/-- The branch of `rt_search` for an array, when an element is asked for. -/
theorem rtSearchLoop_array (holds : Holds tree members) {d e : Item ν}
    (found : memberOf members (fold segm.name) = some d) (array : itemJsl d = .array)
    (level : segm.jsl = .array) (place : elementAt d.child segm.index = some e)
    (rest : List Segment) (retval : Int) (dupvalue : Bytes) :
    ∃ item : Node, Shows item e ∧ Mirrors item e ∧
      rtSearchLoop retval tree dupvalue (segm :: rest) = match item.info.jsl with
        | .arrayItem => rtSearchLoop (-1) item.nextScope dupvalue rest
        | .arrayItemAsField => (if rest = [] then 0 else -1, item.info.scopeValue)
        | _ => (0, dupvalue) := by
  obtain ⟨c, hc, shown, mirrors⟩ := holds_some holds found
  have plain := elementAt_plain place
  have filled := elementAt_filled place
  rcases searchItem_of_mirrors mirrors array filled plain with
    ⟨_, none⟩ | ⟨item, e', chosen, he, both⟩
  · rw [none] at place
    cases place
  obtain rfl := Option.some.inj (he.symm.trans place)
  refine ⟨item, both.1, both.2, ?_⟩
  have search : searchScope tree segm.name = some c := hc
  have length := length_of_mirrors mirrors array
  have size := arraysize_of_mirrors mirrors array
  have positive : 0 < d.child.length := List.length_pos_iff.mpr filled
  have listed : c.array ≠ [] := by
    rw [ne_eq, ← List.length_eq_zero_iff, length]
    omega
  have usable : ¬ (segm.jsl ≠ .array ∨ c.array = [] ∨ c.info.arraysize ≤ 0) := by
    rintro (h | h | h)
    · exact h level
    · exact listed h
    · omega
  obtain ⟨single, notAdd, notEntire⟩ := not_or.mp plain |>.imp_right not_or.mp
  rw [rtSearchLoop, search]
  simp only [shown.jsl, array]
  rw [if_neg usable, if_neg single, if_neg (not_or.mpr ⟨notAdd, notEntire⟩)]
  cases jsl : item.info.jsl <;> simp only [chosen, jsl]

theorem rtSearchLoop_through (holds : Holds tree members) {d e : Item ν}
    (found : memberOf members (fold segm.name) = some d) (array : itemJsl d = .array)
    (level : segm.jsl = .array) (place : elementAt d.child segm.index = some e)
    (object : itemJsl e = .arrayItem) (retval : Int) (dupvalue : Bytes) :
    ∃ below : Avl Node, Holds below e.child ∧
      rtSearchLoop retval tree dupvalue (segm :: rest) =
        rtSearchLoop (-1) below dupvalue rest := by
  obtain ⟨item, shown, mirrors, answer⟩ :=
    rtSearchLoop_array holds found array level place rest retval dupvalue
  refine ⟨item.nextScope, mirrors.holds (object_of_itemJsl (Or.inr object)), ?_⟩
  rw [answer, shown.jsl, object]

/-- A key that denotes something is found, with the text that the document shows. -/
theorem rtSearchLoop_of_denotes {segms : List Segment} {v : Bytes}
    (h : Denotes members segms v) (holds : Holds tree members) (retval : Int)
    (dupvalue : Bytes) : rtSearchLoop retval tree dupvalue segms = (0, v) := by
  induction h generalizing tree retval with
  | field found leaf level =>
    obtain ⟨c, hc, shown, mirrors⟩ := holds_some holds found
    have search : searchScope tree _ = some c := hc
    have value := shown.value (by rw [shown.jsl, leaf]; rfl)
    rw [rtSearchLoop, search]
    simp [shown.jsl, leaf, level, value]
  | scope found object level below ih =>
    obtain ⟨next, holds', answer⟩ :=
      rtSearchLoop_scope holds found object level (ne_nil_of_denotes below) retval dupvalue
    rw [answer]
    exact ih holds' 0
  | @size members segm d found array level query filled =>
    obtain ⟨c, hc, shown, mirrors⟩ := holds_some holds found
    have search : searchScope tree segm.name = some c := hc
    have length := length_of_mirrors mirrors array
    have size := arraysize_of_mirrors mirrors array
    have positive : 0 < d.child.length := List.length_pos_iff.mpr filled
    have listed : c.array ≠ [] := by
      rw [ne_eq, ← List.length_eq_zero_iff, length]
      omega
    have usable : ¬ (segm.jsl ≠ .array ∨ c.array = [] ∨ c.info.arraysize ≤ 0) := by
      rintro (h | h | h)
      · exact h level
      · exact listed h
      · omega
    rw [rtSearchLoop, search]
    simp only [shown.jsl, array]
    rw [if_neg usable, if_pos query, size]
    rfl
  | element found array level place leaf =>
    obtain ⟨item, shown, mirrors, answer⟩ :=
      rtSearchLoop_array holds found array level place [] retval dupvalue
    have value := shown.value (by rw [shown.jsl, leaf]; rfl)
    rw [answer, shown.jsl, leaf]
    simp [value]
  | through found array level place object below ih =>
    obtain ⟨next, holds', answer⟩ :=
      rtSearchLoop_through holds found array level place object retval dupvalue
    rw [answer]
    exact ih holds' (-1)

/-- A key that arrives at an odd element is answered with success and no text. -/
theorem rtSearchLoop_of_odd {segms : List Segment} (h : ArrivesAtOdd members segms)
    (holds : Holds tree members) (retval : Int) (dupvalue : Bytes) :
    rtSearchLoop retval tree dupvalue segms = (0, dupvalue) := by
  induction h generalizing tree retval with
  | here found array level place odd odd' =>
    obtain ⟨item, shown, mirrors, answer⟩ :=
      rtSearchLoop_array holds found array level place _ retval dupvalue
    rw [answer]
    split
    · exact absurd (shown.jsl.symm.trans ‹_›) odd
    · exact absurd (shown.jsl.symm.trans ‹_›) odd'
    · rfl
  | scope found object level below ih =>
    obtain ⟨next, holds', answer⟩ :=
      rtSearchLoop_scope holds found object level (ne_nil_of_odd below) retval dupvalue
    rw [answer]
    exact ih holds' 0
  | through found array level place object below ih =>
    obtain ⟨next, holds', answer⟩ :=
      rtSearchLoop_through holds found array level place object retval dupvalue
    rw [answer]
    exact ih holds' (-1)

theorem holds_of_search (holds : Holds tree members) {key : Bytes} {c : Node}
    (found : avlsearch Node.scopeKey tree key = some c) :
    ∃ d, memberOf members key = some d ∧ Shows c d ∧ Mirrors c d := by
  rcases holds key with ⟨none, _⟩ | ⟨c', d, hc, hd, shown, mirrors⟩
  · rw [none] at found
    cases found
  · obtain rfl := Option.some.inj (hc.symm.trans found)
    exact ⟨d, hd, shown, mirrors⟩

omit [DoubleText ν] in
/-- The levels that a loaded member can have. -/
theorem itemJsl_of_memberOf {key : Bytes} {d : Item ν} (found : memberOf members key = some d) :
    itemJsl d = .logicScope ∨ itemJsl d = .field ∨ itemJsl d = .array := by
  have right : (memberName d).map fold = some key := by
    rw [memberOf] at found
    simpa using List.find?_some found
  obtain ⟨name, named⟩ := named_of_memberOf found
  cases hk : d.kind <;> simp [memberName, itemJsl, named, hk] at right ⊢

/-- A key that is answered with success denotes something, or arrives at an odd element. -/
theorem denotes_or_odd {segms : List Segment} (holds : Holds tree members) {retval : Int}
    (some_segm : segms ≠ [] ∨ retval < 0) {dupvalue : Bytes}
    (success : 0 ≤ (rtSearchLoop retval tree dupvalue segms).1) :
    (∃ v, Denotes members segms v) ∨ ArrivesAtOdd members segms := by
  induction segms generalizing tree members retval with
  | nil =>
    rw [rtSearchLoop] at success
    rcases some_segm with h | h
    · exact absurd rfl h
    · omega
  | cons segm rest ih =>
    rw [rtSearchLoop] at success
    cases hc : searchScope tree segm.name with
    | none => simp [hc] at success
    | some c =>
      obtain ⟨d, found, shown, mirrors⟩ := holds_of_search holds hc
      simp only [hc, shown.jsl] at success
      rcases itemJsl_of_memberOf found with object | leaf | array
      · simp only [object] at success
        split at success
        · simp at success
        · rename_i enter
          obtain ⟨level, more⟩ := not_or.mp enter
          have level := not_not.mp level
          have below := mirrors.holds (object_of_itemJsl (Or.inl object))
          rcases ih below (Or.inl more) success with ⟨v, denotes⟩ | odd
          · exact Or.inl ⟨v, .scope found object level denotes⟩
          · exact Or.inr (.scope found object level odd)
      · simp only [leaf] at success
        split at success
        · rename_i last
          obtain ⟨rfl, level⟩ := last
          exact Or.inl ⟨_, .field found leaf level⟩
        · simp at success
      · simp only [array] at success
        have length := length_of_mirrors mirrors array
        split at success
        · simp at success
        · rename_i usable
          obtain ⟨level, more⟩ := not_or.mp usable
          obtain ⟨listed, _⟩ := not_or.mp more
          have level := not_not.mp level
          have filled : d.child ≠ [] := by
            rw [ne_eq, ← List.length_eq_zero_iff, ← length, List.length_eq_zero_iff]
            exact listed
          split at success
          · rename_i query
            by_cases last : rest = []
            · subst last
              exact Or.inl ⟨_, .size found array level query filled⟩
            · simp [last] at success
          · rename_i single
            split at success
            · simp at success
            · rename_i other
              have plain := not_or.mpr ⟨single, other⟩
              rcases searchItem_of_mirrors mirrors array filled plain with
                ⟨none, _⟩ | ⟨item, e, chosen, place, shown', mirrors'⟩
              · simp [none] at success
              · simp only [chosen, shown'.jsl] at success
                split at success
                · rename_i object
                  have below := mirrors'.holds (object_of_itemJsl (Or.inr object))
                  rcases ih below (Or.inr (by decide)) success with ⟨v, denotes⟩ | odd
                  · exact Or.inl ⟨v, .through found array level place object denotes⟩
                  · exact Or.inr (.through found array level place object odd)
                · rename_i leaf
                  by_cases last : rest = []
                  · subst last
                    exact Or.inl ⟨_, .element found array level place leaf⟩
                  · simp [last] at success
                · rename_i odd odd'
                  exact Or.inr (.here found array level place odd odd')

end Answers

/-- A key that arrives at an odd element denotes nothing. -/
theorem not_denotes_of_odd {members : List (Item ν)} {segms : List Segment}
    (odd : ArrivesAtOdd members segms) (v : Bytes) : ¬ Denotes members segms v := by
  intro denotes
  induction odd with
  | here found array level place odd odd' =>
    cases denotes with
    | field found' leaf _ =>
      obtain rfl := Option.some.inj (found'.symm.trans found)
      rw [leaf] at array
      cases array
    | scope found' object _ _ =>
      obtain rfl := Option.some.inj (found'.symm.trans found)
      rw [object] at array
      cases array
    | size found' _ _ query _ => exact elementAt_plain place (Or.inl query)
    | element found' _ _ place' leaf =>
      obtain rfl := Option.some.inj (found'.symm.trans found)
      obtain rfl := Option.some.inj (place'.symm.trans place)
      exact odd' leaf
    | through found' _ _ place' object _ =>
      obtain rfl := Option.some.inj (found'.symm.trans found)
      obtain rfl := Option.some.inj (place'.symm.trans place)
      exact odd object
  | scope found object level below ih =>
    cases denotes with
    | field found' leaf _ => exact ne_nil_of_odd below rfl
    | scope found' _ _ below' =>
      obtain rfl := Option.some.inj (found'.symm.trans found)
      exact ih below'
    | size found' array _ _ _ => exact ne_nil_of_odd below rfl
    | element found' array _ _ _ => exact ne_nil_of_odd below rfl
    | through found' array _ _ _ _ =>
      obtain rfl := Option.some.inj (found'.symm.trans found)
      rw [object] at array
      cases array
  | through found array level place object below ih =>
    cases denotes with
    | field found' leaf _ => exact ne_nil_of_odd below rfl
    | scope found' object' _ _ =>
      obtain rfl := Option.some.inj (found'.symm.trans found)
      rw [object'] at array
      cases array
    | size found' _ _ query _ => exact ne_nil_of_odd below rfl
    | element found' _ _ place' leaf => exact ne_nil_of_odd below rfl
    | through found' _ _ place' _ below' =>
      obtain rfl := Option.some.inj (found'.symm.trans found)
      obtain rfl := Option.some.inj (place'.symm.trans place)
      exact ih below'

end DocSearch
