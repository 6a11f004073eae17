import Cfgd.ReadBack
import Cfgd.UpdateCases

/-!
# What an update leaves alone

Where a key leads in a tree, and which array sizes are read on its way. A tree has
grown out of another when what stood at a path still stands there, apart from the
value at some paths, the size at others and what is gone; a key that meets none of
these is answered as before.
-/

namespace WriteFrame

open AvlTree CText CJson Request ConfigNode Loader FsImage Runtime DeleteRange KeyShape Reach
open Levels AppendSteps ReadBack UpdateCases

variable {ν : Type} [DoubleText ν]

/-- The place that a key leads to: the node that it reads, or the array whose size it reads. -/
def keyPlace : Node → List Segment → Option Path
  | _, [] => some []
  | n, segm :: rest =>
    (n.follow (.scope (fold segm.name))).bind fun c =>
      if c.info.jsl = .array then
        if segm.index = jaSymQuerySize then some [.scope (fold segm.name)]
        else (placeOf c.info.arraysize segm.index).bind fun k =>
          (c.follow (.item k)).bind fun e =>
            (keyPlace e rest).map fun path => .scope (fold segm.name) :: .item k :: path
      else (keyPlace c rest).map fun path => .scope (fold segm.name) :: path

/-- How far a key leads, whether it leads all the way or not. -/
def keyTrail : Node → List Segment → Path
  | _, [] => []
  | n, segm :: rest =>
    ((n.follow (.scope (fold segm.name))).map fun c =>
      Step.scope (fold segm.name) ::
        if c.info.jsl = .array then
          ((placeOf c.info.arraysize segm.index).bind fun k =>
            (c.follow (.item k)).map fun e => .item k :: keyTrail e rest).getD []
        else keyTrail c rest).getD []

/-- The arrays of which the key asks for the size or for the last item. -/
def keyViews : Node → List Segment → List Path
  | _, [] => []
  | n, segm :: rest =>
    ((n.follow (.scope (fold segm.name))).map fun c =>
      if c.info.jsl = .array then
        (if segm.index = jaSymQuerySize ∨ segm.index = jaSymLast then
          [[.scope (fold segm.name)]] else []) ++
        (((placeOf c.info.arraysize segm.index).bind fun k =>
          (c.follow (.item k)).map fun e =>
            (keyViews e rest).map fun path => .scope (fold segm.name) :: .item k :: path).getD [])
      else (keyViews c rest).map fun path => .scope (fold segm.name) :: path).getD []

/-- The existing array to which a write of the key appends an item. -/
def extendedArray : Node → List Segment → Option Path
  | _, [] => none
  | n, segm :: rest =>
    (n.follow (.scope (fold segm.name))).bind fun c =>
      if c.info.jsl = .array then
        if segm.index = c.info.arraysize ∨ segm.index = jaSymAdd then
          some [.scope (fold segm.name)]
        else (placeOf c.info.arraysize segm.index).bind fun k =>
          (c.follow (.item k)).bind fun e =>
            (extendedArray e rest).map fun path => .scope (fold segm.name) :: .item k :: path
      else (extendedArray c rest).map fun path => .scope (fold segm.name) :: path

/-- What a key may rely on in a node after a change. -/
structure Stays (written extended : Prop) (m m' : Node) : Prop where
  jsl : m'.info.jsl = m.info.jsl
  value : ¬ written → m'.info.scopeValue = m.info.scopeValue
  more : m.info.arraysize ≤ m'.info.arraysize
  size : ¬ extended → m'.info.arraysize = m.info.arraysize
  filled : m.array ≠ [] → m'.array ≠ []

/-- Outside the paths that are gone, everything stays; values may change at the written
paths and arrays may be longer at the extended ones. -/
def Grows (gone written extended : Path → Prop) (n n' : Node) : Prop :=
  ∀ q m, n.getAt q = some m → ¬ gone q →
    ∃ m', n'.getAt q = some m' ∧ Stays (written q) (extended q) m m'

section Growth
variable {gone written extended : Path → Prop}

theorem stays_refl (w x : Prop) (m : Node) : Stays w x m m :=
  ⟨rfl, fun _ => rfl, Int.le_refl _, fun _ => rfl, id⟩

theorem grows_refl (n : Node) : Grows gone written extended n n :=
  fun _ m there _ => ⟨m, there, stays_refl _ _ m⟩

/-- One step down. -/
theorem Grows.down {n n' c : Node} (grows : Grows gone written extended n n') {s : Step}
    (found : n.follow s = some c) (here : ¬ gone [s]) :
    ∃ c', n'.follow s = some c' ∧ Stays (written [s]) (extended [s]) c c' ∧
      Grows (fun q => gone (s :: q)) (fun q => written (s :: q)) (fun q => extended (s :: q))
        c c' := by
  have one : n.getAt [s] = some c := by
    rw [Node.getAt, found]
    rfl
  obtain ⟨c', one', stays⟩ := grows [s] c one here
  have found' : n'.follow s = some c' := by
    rw [Node.getAt] at one'
    obtain ⟨c'', hc, same⟩ := Option.bind_eq_some_iff.mp one'
    exact hc.trans same
  refine ⟨c', found', stays, ?_⟩
  intro q m there stay
  have there' : n.getAt (s :: q) = some m := by
    rw [Node.getAt, found]
    exact there
  obtain ⟨m', hm', stays'⟩ := grows (s :: q) m there' stay
  rw [Node.getAt, found', Option.bind_some] at hm'
  exact ⟨m', hm', stays'⟩

/-- A change below a node is a change of the whole tree. -/
theorem grows_modifyAt {n m : Node} {path : Path} {write : Node → Node}
    (there : n.getAt path = some m) (key : (write m).scopeKey = m.scopeKey)
    (grows : Grows gone written extended m (write m)) :
    Grows (fun q => ∃ q', q = path ++ q' ∧ gone q') (fun q => ∃ q', q = path ++ q' ∧ written q')
      (fun q => ∃ q', q = path ++ q' ∧ extended q') n (n.modifyAt write path) := by
  induction path generalizing n with
  | nil =>
    obtain rfl := Option.some.inj there
    intro q x hx stay
    obtain ⟨x', hx', stays⟩ := grows q x hx fun g => stay ⟨q, rfl, g⟩
    refine ⟨x', hx', stays.jsl, fun w => stays.value fun h => w ⟨q, rfl, h⟩, stays.more, ?_,
      stays.filled⟩
    exact fun e => stays.size fun h => e ⟨q, rfl, h⟩
  | cons s rest ih =>
    have keeps : ∀ m', n.getAt (s :: rest) = some m' → (write m').scopeKey = m'.scopeKey := by
      intro m' hm'
      obtain rfl := Option.some.inj (there.symm.trans hm')
      exact key
    rw [Node.getAt] at there
    obtain ⟨c, hc, below⟩ := Option.bind_eq_some_iff.mp there
    intro q x hx stay
    cases q with
    | nil =>
      obtain rfl := Option.some.inj hx
      refine ⟨_, rfl, ?_⟩
      have info : (n.modifyAt write (s :: rest)).info = n.info := modifyAt_info
      refine ⟨by rw [info], fun _ => by rw [info], by rw [info], fun _ => by rw [info], ?_⟩
      cases s with
      | scope key => simp [Node.modifyAt]
      | item i => simp [Node.modifyAt]
    | cons s' q =>
      rw [Node.getAt] at hx ⊢
      rw [follow_modifyAt keeps]
      by_cases same : s' = s
      · subst same
        rw [hc, Option.bind_some] at hx
        rw [if_pos rfl, hc, Option.map_some, Option.bind_some]
        have stay' : ¬ ∃ q', q = rest ++ q' ∧ gone q' := by
          rintro ⟨q', same, g⟩
          exact stay ⟨q', by rw [same]; rfl, g⟩
        obtain ⟨x', hx', stays⟩ := ih below q x hx stay'
        refine ⟨x', hx', stays.jsl, fun w => stays.value ?_, stays.more, fun e => stays.size ?_,
          stays.filled⟩
        · rintro ⟨q', rfl, h⟩
          exact w ⟨q', rfl, h⟩
        · rintro ⟨q', rfl, h⟩
          exact e ⟨q', rfl, h⟩
      · rw [if_neg same]
        obtain ⟨c', hc', there'⟩ := Option.bind_eq_some_iff.mp hx
        refine ⟨x, ?_, stays_refl _ _ x⟩
        rw [hc', Option.bind_some]
        exact there'

end Growth

/-- No array is as long as the number that stands for its last item. -/
def Roomy (n : Node) : Prop := ∀ q m, n.getAt q = some m → m.info.arraysize < jaSymLast

theorem Roomy.down {n c : Node} (roomy : Roomy n) {s : Step} (found : n.follow s = some c) :
    Roomy c := by
  intro q m there
  apply roomy (s :: q) m
  rw [Node.getAt, found]
  exact there

theorem Roomy.here {n : Node} (roomy : Roomy n) : n.info.arraysize < jaSymLast :=
  roomy [] n rfl

theorem roomy_of_leveled {n : Node} (leveled : Leveled n) : Roomy n := by
  intro q
  induction q generalizing n with
  | nil =>
    rintro m ⟨⟩
    exact leveled.room
  | cons s q ih =>
    intro m there
    rw [Node.getAt] at there
    obtain ⟨c, hc, below⟩ := Option.bind_eq_some_iff.mp there
    cases s with
    | scope key => exact ih (leveled.found hc).2.2 m below
    | item i => exact ih (leveled.items c (List.mem_of_getElem? hc)) m below

/-- Where the search goes in an array, the reach goes too. -/
theorem place_of_searchItem {c e : Node} {index : Int} (room : c.info.arraysize < jaSymLast)
    (found : searchItem c index = some e) :
    ∃ k, placeOf c.info.arraysize index = some k ∧ c.follow (.item k) = some e := by
  rw [searchItem] at found
  split at found
  · rename_i last
    rw [rtSeekArrayNode] at found
    split at found
    · cases found
    · rename_i positive
      rw [placeOf]
      split
      · omega
      · rw [if_pos ⟨by omega, last⟩]
        exact ⟨_, rfl, found⟩
  · split at found
    · rename_i inside
      rw [placeOf, if_pos ⟨inside.2, inside.1⟩]
      rw [rtSeekArrayNode, if_neg (by omega)] at found
      exact ⟨_, rfl, found⟩
    · cases found

/-- The item that an index meant is the one that it means in a longer array. -/
theorem searchItem_grown {c c' e : Node} {index : Int} (room : c.info.arraysize < jaSymLast)
    (found : searchItem c index = some e) (more : c.info.arraysize ≤ c'.info.arraysize)
    (last : index = jaSymLast → c'.info.arraysize = c.info.arraysize) :
    ∃ k, placeOf c.info.arraysize index = some k ∧ c.follow (.item k) = some e ∧
      searchItem c' index = c'.follow (.item k) := by
  obtain ⟨k, place, entered⟩ := place_of_searchItem room found
  refine ⟨k, place, entered, ?_⟩
  rw [placeOf] at place
  rw [searchItem]
  by_cases atEnd : index = jaSymLast
  · rw [if_neg (by omega)] at place
    split at place
    · obtain rfl := Option.some.inj place
      have cast : c.info.arraysize - 1 = ((c.info.arraysize - 1).toNat : Int) := by omega
      rw [if_pos atEnd, last atEnd]
      conv_lhs => rw [cast]
      exact rtSeekArrayNode_eq_follow c' _
    · cases place
  · split at place
    · obtain rfl := Option.some.inj place
      have cast : index = (index.toNat : Int) := by omega
      rw [if_neg atEnd, if_pos (by omega)]
      conv_lhs => rw [cast]
      exact rtSeekArrayNode_eq_follow c' _
    · rw [if_neg (fun h => atEnd h.2)] at place
      cases place

/-- A key that is found and meets no change is answered as before. -/
theorem search_of_grows {gone written extended : Path → Prop} {n n' : Node}
    (grows : Grows gone written extended n n') (roomy : Roomy n) {segms : List Segment}
    {retval : Int} {dupvalue : Bytes}
    (resolved : 0 ≤ (rtSearchLoop retval n.nextScope dupvalue segms).1)
    (trail : ∀ q, q <+: keyTrail n segms → q ≠ [] → ¬ gone q)
    (place : ∀ q, keyPlace n segms = some q → q ≠ [] → ¬ written q)
    (views : ∀ a ∈ keyViews n segms, ¬ extended a) :
    rtSearchLoop retval n'.nextScope dupvalue segms =
      rtSearchLoop retval n.nextScope dupvalue segms := by
  induction segms generalizing n n' gone written extended retval with
  | nil => rw [rtSearchLoop, rtSearchLoop]
  | cons segm rest ih =>
    rw [rtSearchLoop, searchScope_eq_follow] at resolved
    rw [rtSearchLoop, rtSearchLoop, searchScope_eq_follow, searchScope_eq_follow]
    cases hc : n.follow (.scope (fold segm.name)) with
    | none => simp [hc] at resolved
    | some c =>
      simp only [keyTrail, keyPlace, keyViews, hc, Option.map_some, Option.getD_some,
        Option.bind_some] at trail place views
      simp only [hc] at resolved ⊢
      have first : ¬ gone [.scope (fold segm.name)] :=
        trail _ (by simp) (List.cons_ne_nil _ _)
      obtain ⟨c', hc', stays, below⟩ := grows.down hc first
      have roomyC := roomy.down hc
      simp only [hc', stays.jsl]
      -- what the hypotheses say of the keys below a scope
      have further : c.info.jsl ≠ .array → ∀ retval,
          0 ≤ (rtSearchLoop retval c.nextScope dupvalue rest).1 →
          rtSearchLoop retval c'.nextScope dupvalue rest =
            rtSearchLoop retval c.nextScope dupvalue rest := by
        intro scope retval resolved
        simp only [if_neg scope] at trail place views
        apply ih below roomyC resolved
        · intro q hq _
          exact trail _ (List.cons_prefix_cons.mpr ⟨rfl, hq⟩) (List.cons_ne_nil _ _)
        · intro q hq _
          exact place _ (by rw [hq]; rfl) (List.cons_ne_nil _ _)
        · intro a ha
          exact views _ (List.mem_map_of_mem ha)
      have value : c.info.jsl ≠ .array → rest = [] → c'.info.scopeValue = c.info.scopeValue := by
        intro scope last
        subst last
        apply stays.value
        exact place _ (by rw [if_neg scope]; rfl) (List.cons_ne_nil _ _)
      cases level : c.info.jsl with
      | logicScope =>
        have scope : c.info.jsl ≠ .array := by rw [level]; exact nofun
        simp only [level] at resolved ⊢
        split at resolved
        · rename_i wrong
          rw [if_pos wrong, if_pos wrong]
        · rename_i right
          rw [if_neg right, if_neg right]
          exact further scope 0 resolved
      | dir =>
        have scope : c.info.jsl ≠ .array := by rw [level]; exact nofun
        simp only [level] at resolved ⊢
        split at resolved
        · rename_i last
          rw [if_pos last, if_pos last, value scope last]
        · rename_i more
          rw [if_neg more, if_neg more]
          exact further scope 0 resolved
      | archive =>
        have scope : c.info.jsl ≠ .array := by rw [level]; exact nofun
        simp only [level] at resolved ⊢
        split at resolved
        · rename_i last
          rw [if_pos last, if_pos last, value scope last]
        · rename_i more
          rw [if_neg more, if_neg more]
          exact further scope 0 resolved
      | field =>
        have scope : c.info.jsl ≠ .array := by rw [level]; exact nofun
        simp only [level] at resolved ⊢
        split at resolved
        · rename_i last
          rw [value scope last.1]
        · cases resolved
      | arrayItem => simp [level] at resolved
      | arrayItemAsField => simp [level] at resolved
      | array =>
        simp only [level, if_true] at trail place views resolved ⊢
        split at resolved
        · cases resolved
        · rename_i usable
          obtain ⟨level', more⟩ := not_or.mp usable
          obtain ⟨filled, positive⟩ := not_or.mp more
          have longer := stays.more
          have usable' : ¬ (segm.jsl ≠ .array ∨ c'.array = [] ∨ c'.info.arraysize ≤ 0) := by
            rintro (h | h | h)
            · exact level' h
            · exact stays.filled filled h
            · omega
          rw [if_neg usable, if_neg usable']
          split at resolved
          · rename_i query
            have same := stays.size (views _ (List.mem_append_left _ (by simp [query])))
            rw [if_pos query, if_pos query, same]
          · rename_i notSize
            split at resolved
            · cases resolved
            · rename_i single
              rw [if_neg notSize, if_neg notSize, if_neg single, if_neg single]
              cases hitem : searchItem c segm.index with
              | none => simp [hitem] at resolved
              | some e =>
                obtain ⟨k, at', entered, found'⟩ := searchItem_grown roomyC.here hitem longer
                  fun last => stays.size (views _ (List.mem_append_left _ (by simp [last])))
                simp only [if_neg notSize, at', entered, Option.bind_some, Option.map_some,
                  Option.getD_some] at trail place views
                have second : ¬ gone [.scope (fold segm.name), .item k] :=
                  trail _ (by simp) (List.cons_ne_nil _ _)
                obtain ⟨e', he', stays', below'⟩ := below.down entered second
                rw [found', he']
                simp only [hitem, stays'.jsl] at resolved ⊢
                split at resolved
                · apply ih below' (roomyC.down entered) resolved
                  · intro q hq _
                    exact trail _ (by simpa using hq) (List.cons_ne_nil _ _)
                  · intro q hq _
                    exact place _ (by rw [hq]; rfl) (List.cons_ne_nil _ _)
                  · intro a ha
                    exact views _ (List.mem_append_right _ (List.mem_map_of_mem ha))
                · by_cases last : rest = []
                  · subst last
                    have value := stays'.value (place _ rfl (List.cons_ne_nil _ _))
                    simp only [value]
                  · rw [if_neg last] at resolved
                    cases resolved
                · rfl

end WriteFrame
