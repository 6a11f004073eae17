import Cfgd.ChangeNotice
import Cfgd.Reload

/-!
# What a document answers

A search among the members of a document, which says what `rt_search` means below an
archive: a tree that holds the members answers as they do. The addresses of the items play
no part in it, so two documents that differ in nothing else are answered alike.
-/

namespace AnsweredAlike

open AvlTree CText CJson Item Request ConfigNode Loader Runtime DocTree DocSearch

variable {ν : Type}

section Search
variable [DoubleText ν]

/-- What a key is answered by the members of an object. -/
def searchMembers (retval : Int) (members : List (Item ν)) (dupvalue : Bytes) :
    List Segment → Int × Bytes
  | [] => (retval, dupvalue)
  | segm :: rest =>
    match memberOf members (fold segm.name) with
    | none => (-1, dupvalue)
    | some d => match itemJsl d with
      | .logicScope =>
        if segm.jsl ≠ .logicScope ∨ rest = [] then (-1, dupvalue)
        else searchMembers 0 d.child dupvalue rest
      | .field => (if rest = [] ∧ segm.jsl = .field then 0 else -1, valueText d)
      | .array =>
        if segm.jsl ≠ .array ∨ d.child = [] then (-1, dupvalue)
        else if segm.index = jaSymQuerySize then
          (if rest = [] then 0 else -1, printInt d.child.length)
        else match elementAt d.child segm.index with
          | none => (-1, dupvalue)
          | some e => match itemJsl e with
            | .arrayItem => searchMembers (-1) e.child dupvalue rest
            | .arrayItemAsField => (if rest = [] then 0 else -1, valueText e)
            | _ => (0, dupvalue)
      | _ => (-1, dupvalue)

variable {tree : Avl Node} {members : List (Item ν)}

/-- The search below an archive is the search in its document. -/
theorem rtSearchLoop_eq (holds : Holds tree members) (segms : List Segment) (retval : Int)
    (dupvalue : Bytes) :
    rtSearchLoop retval tree dupvalue segms = searchMembers retval members dupvalue segms := by
  induction segms generalizing tree members retval with
  | nil => rfl
  | cons segm rest ih =>
    rcases holds (fold segm.name) with ⟨none, nowhere⟩ | ⟨c, d, found, member, shows, mirrors⟩
    · have search : searchScope tree segm.name = .none := none
      rw [rtSearchLoop, searchMembers, search, nowhere]
    · have search : searchScope tree segm.name = some c := found
      rw [rtSearchLoop, searchMembers, search, member]
      dsimp only
      rw [shows.jsl]
      rcases itemJsl_of_memberOf member with object | leaf | array
      · simp only [object]
        split
        · rfl
        · exact ih (mirrors.holds (object_of_itemJsl (Or.inl object))) 0
      · have isValue : isLeaf (itemJsl d) = true := by rw [leaf]; rfl
        simp only [leaf, shows.value (shows.jsl ▸ isValue)]
      · have size := arraysize_of_mirrors mirrors array
        have length := length_of_mirrors mirrors array
        have empty : c.array = [] ↔ d.child = [] := by
          rw [← List.length_eq_zero_iff, length, List.length_eq_zero_iff]
        have none : (d.child.length : Int) ≤ 0 ↔ d.child = [] := by
          rw [← List.length_eq_zero_iff]
          omega
        simp only [array, size, empty, none, or_self]
        split
        · rfl
        · rename_i usable
          split
          · rfl
          · rename_i single
            split
            · rename_i special
              rw [elementAt, if_pos (Or.inr special)]
            · rename_i plain
              have filled : d.child ≠ [] := fun none => usable (Or.inr none)
              rcases searchItem_of_mirrors mirrors array filled (not_or.mpr ⟨single, plain⟩) with
                ⟨none, nowhere⟩ | ⟨e, x, chosen, place, shown, below⟩
              · rw [none, nowhere]
              · rw [chosen, place]
                dsimp only
                rw [shown.jsl]
                cases level : itemJsl x with
                | arrayItem => exact ih (below.holds (object_of_itemJsl (Or.inr level))) (-1)
                | arrayItemAsField =>
                  have isValue : isLeaf (itemJsl x) = true := by rw [level]; rfl
                  simp only [shown.value (shown.jsl ▸ isValue)]
                | _ => rfl

end Search

section Addresses
variable {x y : Item ν} {members : List (Item ν)}

@[simp] theorem string_bare (x : Item ν) : x.bare.string = x.string := by
  rw [bare_eq, string_mk]

@[simp] theorem child_bare (x : Item ν) : x.bare.child = x.child.map bare := by
  rw [bare_eq, child_mk]

@[simp] theorem memberName_bare (x : Item ν) : memberName x.bare = memberName x := by
  rw [memberName, memberName, string_bare, kind_bare]

@[simp] theorem itemJsl_bare (x : Item ν) : itemJsl x.bare = itemJsl x := by
  rw [itemJsl, itemJsl, string_bare, kind_bare]

variable [DoubleText ν]

@[simp] theorem valueText_bare (x : Item ν) : valueText x.bare = valueText x := by
  rw [valueText, valueText, string_bare, kind_bare]

omit [DoubleText ν] in
theorem memberOf_bare (members : List (Item ν)) (key : Bytes) :
    memberOf (members.map bare) key = (memberOf members key).map bare := by
  rw [memberOf, memberOf, List.find?_map]
  simp only [Function.comp_def, memberName_bare]

omit [DoubleText ν] in
theorem elementAt_bare (child : List (Item ν)) (index : Int) :
    elementAt (child.map bare) index = (elementAt child index).map bare := by
  rw [elementAt, elementAt, List.getLast?_map, List.length_map, List.getElem?_map]
  split
  · rfl
  · split
    · rfl
    · split <;> rfl

theorem searchMembers_bare (segms : List Segment) (retval : Int) (members : List (Item ν))
    (dupvalue : Bytes) : searchMembers retval (members.map bare) dupvalue segms =
      searchMembers retval members dupvalue segms := by
  induction segms generalizing retval members with
  | nil => rfl
  | cons segm rest ih =>
    rw [searchMembers, searchMembers, memberOf_bare]
    cases memberOf members (fold segm.name) with
    | none => rfl
    | some d =>
      simp only [Option.map_some, itemJsl_bare, child_bare, valueText_bare, ih, elementAt_bare,
        List.length_map, List.map_eq_nil_iff]
      cases elementAt d.child segm.index with
      | none => rfl
      | some e => simp only [Option.map_some, itemJsl_bare, child_bare, valueText_bare, ih]

/-- Documents that differ in their addresses only are answered alike. -/
theorem searchMembers_congr {members' : List (Item ν)}
    (same : members.map bare = members'.map bare) (retval : Int) (dupvalue : Bytes)
    (segms : List Segment) : searchMembers retval members dupvalue segms =
      searchMembers retval members' dupvalue segms := by
  rw [← searchMembers_bare segms retval members, same, searchMembers_bare]

omit [DoubleText ν] in
theorem child_alike (same : x.bare = y.bare) {c : Item ν} (child : c ∈ x.child) :
    ∃ c' ∈ y.child, c'.string = c.string ∧ c.bare = c'.bare := by
  have there : c.bare ∈ x.child.map bare := List.mem_map_of_mem child
  rw [child_of_bare same] at there
  obtain ⟨c', child', alike⟩ := List.mem_map.mp there
  exact ⟨c', child', by rw [← string_bare, alike, string_bare], alike.symm⟩

omit [DoubleText ν] in
/-- What the parser can build is seen without the addresses. -/
theorem producible_congr (h : Producible y) (same : x.bare = y.bare) : Producible x := by
  induction h generalizing x with
  | object names below ih =>
    have alike := fun c => @child_alike _ _ _ same c
    have kind := (kind_bare x).symm.trans ((congrArg Item.kind same).trans (kind_bare _))
    obtain ⟨addr, string, type, child⟩ := x
    obtain rfl : type = .cjsonObject := kind
    refine .object (fun c mem => ?_) fun c mem => ?_
    · obtain ⟨c', mem', named, _⟩ := alike c mem
      exact named ▸ names c' mem'
    · obtain ⟨c', mem', _, same'⟩ := alike c mem
      exact ih c' mem' same'
  | array names below ih =>
    have alike := fun c => @child_alike _ _ _ same c
    have kind := (kind_bare x).symm.trans ((congrArg Item.kind same).trans (kind_bare _))
    obtain ⟨addr, string, type, child⟩ := x
    obtain rfl : type = .cjsonArray := kind
    refine .array (fun c mem => ?_) fun c mem => ?_
    · obtain ⟨c', mem', named, _⟩ := alike c mem
      exact named ▸ names c' mem'
    · obtain ⟨c', mem', _, same'⟩ := alike c mem
      exact ih c' mem' same'
  | @leaf _ _ kind notObject notArray =>
    have children := child_of_bare same
    have kind' := (kind_bare x).symm.trans ((congrArg Item.kind same).trans (kind_bare _))
    obtain ⟨addr, string, type, child⟩ := x
    obtain rfl : type = kind := kind'
    obtain rfl : child = [] := List.map_eq_nil_iff.mp children
    exact .leaf notObject notArray

end Addresses

end AnsweredAlike
