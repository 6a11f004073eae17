import Cfgd.DeleteDoc
import Cfgd.RegularTree
import Cfgd.WriteThenRead

/-!
# The delete law

What every key is answered after a deletion. The write changes one node; a key that
does not lead through it is answered as before, and one that does lead there goes on
in what has become of the node: nothing behind a name that is gone, and behind an
item that is gone the items that followed it, one index lower.
-/

namespace DeleteLaw

open AvlTree CText CJson Item Request ConfigNode Loader FsImage Runtime DocTree DeleteRange
open DeleteTargets KeyShape Reach Levels ReadBack UpdateCases WriteFrame WriteThenRead HeapEdit
open DeleteDoc RegularTree SearchSound PlainDoc

variable {ν : Type} [DoubleText ν]

section Searching
variable {n m c : Node} {path : Path} {segms rest left : List Segment}

/-- The item that the search goes to is the one that the reach goes to. -/
theorem searchItem_place (room : c.info.arraysize < jaSymLast) (index : Int) :
    searchItem c index = (placeOf c.info.arraysize index).bind fun k => c.follow (.item k) := by
  cases place : placeOf c.info.arraysize index with
  | some k => exact searchItem_of_place place room
  | none =>
    cases found : searchItem c index with
    | none => rfl
    | some e =>
      obtain ⟨k, place', _⟩ := place_of_searchItem room found
      rw [place] at place'
      cases place'

/-- What a write may not change in the node that it is made to. -/
structure Unmarked (write : Node → Node) (m : Node) : Prop where
  info : (write m).info = m.info
  array : (write m).array = m.array

theorem Unmarked.key {write : Node → Node} (h : Unmarked write m) :
    (write m).scopeKey = m.scopeKey := by
  rw [Node.scopeKey, h.info, Node.scopeKey]

/-- A node on the way to the write. -/
structure OnWay (write : Node → Node) (c : Node) (path : Path) (c' : Node) : Prop where
  info : c'.info = c.info
  empty : c'.array = [] ↔ c.array = []
  items : ∀ k, c'.follow (.item k) = if path.head? = some (.item k) then
    (c.follow (.item k)).map fun e => e.modifyAt write path.tail else c.follow (.item k)

theorem onWay {write : Node → Node} (there : c.getAt path = some m) (unmarked : Unmarked write m) :
    OnWay write c path (c.modifyAt write path) := by
  cases path with
  | nil =>
    obtain rfl := Option.some.inj there
    refine ⟨unmarked.info, ?_, fun k => ?_⟩
    · rw [Node.modifyAt, unmarked.array]
    · simp [Node.modifyAt, Node.follow, unmarked.array]
  | cons s rest =>
    have keeps : ∀ m', c.getAt (s :: rest) = some m' → (write m').scopeKey = m'.scopeKey := by
      intro m' hm'
      obtain rfl := Option.some.inj (there.symm.trans hm')
      exact unmarked.key
    refine ⟨modifyAt_info, ?_, fun k => ?_⟩
    · cases s with
      | scope key => simp [Node.modifyAt]
      | item i => simp [Node.modifyAt]
    · rw [follow_modifyAt keeps]
      by_cases same : s = .item k
      · simp [same]
      · simp [same, Ne.symm same]

/-- A key that does not lead to the place of the write is answered as before. -/
theorem search_elsewhere {write : Node → Node} (there : n.getAt path = some m)
    (unmarked : Unmarked write m) (roomy : Roomy n)
    (elsewhere : ∀ pre left, segms = pre ++ left → left ≠ [] → keyPlace n pre ≠ some path)
    (retval : Int) (dupvalue : Bytes) :
    rtSearchLoop retval (n.modifyAt write path).nextScope dupvalue segms =
      rtSearchLoop retval n.nextScope dupvalue segms := by
  induction segms generalizing n path retval with
  | nil => rw [rtSearchLoop, rtSearchLoop]
  | cons segm rest ih =>
    cases path with
    | nil => exact absurd rfl (elsewhere [] (segm :: rest) rfl (List.cons_ne_nil _ _))
    | cons s path =>
      cases s with
      | item i => rw [Node.modifyAt, Node.nextScope_setArray]
      | scope key =>
        have keeps : ∀ m', n.getAt (.scope key :: path) = some m' →
            (write m').scopeKey = m'.scopeKey := by
          intro m' hm'
          obtain rfl := Option.some.inj (there.symm.trans hm')
          exact unmarked.key
        have step := follow_modifyAt keeps (.scope (fold segm.name))
        rw [rtSearchLoop, rtSearchLoop, searchScope_eq_follow, searchScope_eq_follow, step]
        by_cases same : fold segm.name = key
        · subst same
          rw [if_pos rfl]
          rw [Node.getAt] at there
          obtain ⟨c, hc, below⟩ := Option.bind_eq_some_iff.mp there
          have way := onWay below unmarked
          have roomyC := roomy.down hc
          have whole : c.info.jsl ≠ .array → ∀ pre left, rest = pre ++ left → left ≠ [] →
              keyPlace c pre ≠ some path := by
            intro level pre left split more place
            refine elsewhere (segm :: pre) left (by rw [split]; rfl) more ?_
            simp [keyPlace, hc, level, place]
          simp only [hc, Option.map_some, way.info, way.empty]
          cases level : c.info.jsl with
          | logicScope =>
            have further := ih below roomyC (whole (by simp [level]))
            simp only [further]
          | dir =>
            have further := ih below roomyC (whole (by simp [level]))
            simp only [further]
          | archive =>
            have further := ih below roomyC (whole (by simp [level]))
            simp only [further]
          | field => rfl
          | arrayItem => rfl
          | arrayItemAsField => rfl
          | array =>
            have room' : (c.modifyAt write path).info.arraysize < jaSymLast := by
              rw [way.info]
              exact roomyC.here
            simp only [searchItem_place roomyC.here, searchItem_place room', way.info]
            cases place : placeOf c.info.arraysize segm.index with
            | none => rfl
            | some k =>
              have notSize := (placeOf_symbols place roomyC.here).1
              simp only [Option.bind_some, way.items k]
              by_cases through : path.head? = some (.item k)
              · rw [if_pos through]
                obtain ⟨path, rfl⟩ : ∃ path', path = .item k :: path' := by
                  cases path with
                  | nil => cases through
                  | cons s path' =>
                    rw [List.head?_cons, Option.some.injEq] at through
                    exact ⟨path', by rw [through]⟩
                rw [Node.getAt] at below
                obtain ⟨e, he, inside⟩ := Option.bind_eq_some_iff.mp below
                have wayE := onWay inside unmarked
                have further := ih inside (roomyC.down he) (fun pre left split more place' => by
                  refine elsewhere (segm :: pre) left (by rw [split]; rfl) more ?_
                  simp [keyPlace, hc, level, notSize, place, he, place'])
                simp only [he, Option.map_some, List.tail_cons, wayE.info, further]
              · rw [if_neg through]
        · have other : Step.scope (fold segm.name) ≠ .scope key := fun h => same (Step.scope.inj h)
          rw [if_neg other]

/-- The search goes on in the node, with what is left of the key. -/
def Passes (n : Node) (path : Path) (m : Node) (pre : List Segment) : Prop :=
  ∀ write, Unmarked write m → ∀ left, left ≠ [] → ∀ retval dupvalue,
    rtSearchLoop retval (n.modifyAt write path).nextScope dupvalue (pre ++ left) =
      rtSearchLoop 0 (write m).nextScope dupvalue left

/-- The search fails on its way to the node, whatever is left of the key. -/
def Stops (n : Node) (path : Path) (m : Node) (pre : List Segment) : Prop :=
  ∃ value : Bytes → Bytes, ∀ write, Unmarked write m → ∀ left, left ≠ [] → ∀ retval dupvalue,
    rtSearchLoop retval (n.modifyAt write path).nextScope dupvalue (pre ++ left) =
      (-1, value dupvalue)

theorem keeps_of_unmarked {write : Node → Node} (h : Unmarked write m) : Keeps write m :=
  ⟨h.key, by rw [h.info]⟩

/-- A scope on the way. -/
theorem passes_scope {segm : Segment} {pre : List Segment}
    (found : n.follow (.scope (fold segm.name)) = some c) (there : c.getAt path = some m)
    (level : c.info.jsl ≠ .array) (below : Passes c path m pre ∨ Stops c path m pre) :
    Passes n (.scope (fold segm.name) :: path) m (segm :: pre) ∨
      Stops n (.scope (fold segm.name) :: path) m (segm :: pre) := by
  have written : ∀ write, Unmarked write m → avlsearch Node.scopeKey
      (n.modifyAt write (.scope (fold segm.name) :: path)).nextScope (fold segm.name) =
        some (c.modifyAt write path) :=
    fun write unmarked => (follow_write found there (keeps_of_unmarked unmarked)).1
  have more : ∀ {left : List Segment}, left ≠ [] → pre ++ left ≠ [] :=
    fun h none => h (List.append_eq_nil_iff.mp none).2
  by_cases opens : c.info.jsl = .dir ∨ c.info.jsl = .archive ∨
      (c.info.jsl = .logicScope ∧ segm.jsl = .logicScope)
  · refine below.imp (fun passes write unmarked left some retval dupvalue => ?_) ?_
    · have way := onWay there unmarked
      rw [List.cons_append, rtSearchLoop_pass (written write unmarked) (by rwa [way.info])
        (more some)]
      exact passes write unmarked left some retval dupvalue
    · rintro ⟨value, stops⟩
      refine ⟨value, fun write unmarked left some retval dupvalue => ?_⟩
      have way := onWay there unmarked
      rw [List.cons_append, rtSearchLoop_pass (written write unmarked) (by rwa [way.info])
        (more some)]
      exact stops write unmarked left some retval dupvalue
  · refine Or.inr ⟨fun dupvalue => if c.info.jsl = .field then c.info.scopeValue else dupvalue,
      fun write unmarked left some retval dupvalue => ?_⟩
    have way := onWay there unmarked
    have search : searchScope (n.modifyAt write (.scope (fold segm.name) :: path)).nextScope
        segm.name = _ := written write unmarked
    rw [List.cons_append, rtSearchLoop, search]
    simp only [way.info]
    cases here : c.info.jsl with
    | logicScope =>
      have closed : segm.jsl ≠ .logicScope := fun h => opens (Or.inr (Or.inr ⟨here, h⟩))
      simp [closed]
    | dir => exact absurd (Or.inl here) opens
    | archive => exact absurd (Or.inr (Or.inl here)) opens
    | field => simp [more some]
    | arrayItem => rfl
    | arrayItemAsField => rfl
    | array => exact absurd here level

/-- An item on the way. -/
theorem passes_item {segm : Segment} {pre : List Segment} {e : Node} {k : Nat}
    (found : n.follow (.scope (fold segm.name)) = some c) (level : c.info.jsl = .array)
    (room : c.info.arraysize < jaSymLast) (place : placeOf c.info.arraysize segm.index = some k)
    (entered : c.follow (.item k) = some e) (item : IsItem e) (there : e.getAt path = some m)
    (below : Passes e path m pre ∨ Stops e path m pre) :
    Passes n (.scope (fold segm.name) :: .item k :: path) m (segm :: pre) ∨
      Stops n (.scope (fold segm.name) :: .item k :: path) m (segm :: pre) := by
  have inside : c.getAt (.item k :: path) = some m := by
    rw [Node.getAt, entered]
    exact there
  have written : ∀ write, Unmarked write m →
      avlsearch Node.scopeKey
        (n.modifyAt write (.scope (fold segm.name) :: .item k :: path)).nextScope
          (fold segm.name) = some (c.modifyAt write (.item k :: path)) ∧
        (c.modifyAt write (.item k :: path)).follow (.item k) = some (e.modifyAt write path) := by
    intro write unmarked
    have keeps := keeps_of_unmarked unmarked
    exact ⟨(follow_write found inside keeps).1, (follow_write entered there keeps).1⟩
  have more : ∀ {left : List Segment}, left ≠ [] → pre ++ left ≠ [] :=
    fun h none => h (List.append_eq_nil_iff.mp none).2
  by_cases level' : segm.jsl = .array
  · have enter : ∀ write, Unmarked write m → ∀ left, left ≠ [] → ∀ retval dupvalue,
        rtSearchLoop retval
          (n.modifyAt write (.scope (fold segm.name) :: .item k :: path)).nextScope
          dupvalue (segm :: pre ++ left) =
        if e.info.jsl = .arrayItem then
          rtSearchLoop retval (e.modifyAt write path).nextScope dupvalue (pre ++ left)
        else (-1, e.info.scopeValue) := by
      intro write unmarked left some retval dupvalue
      obtain ⟨located, entered'⟩ := written write unmarked
      have way := (onWay inside unmarked).info
      have wayE := (onWay there unmarked).info
      rw [List.cons_append, rtSearchLoop_enter located (by rw [way, level]) level'
        (by rw [way, place]) (by rw [way]; exact room) entered', wayE]
      rcases item with object | leaf
      · simp only [object, if_true]
        exact rtSearchLoop_retval (more some) ..
      · simp [leaf, more some]
    by_cases object : e.info.jsl = .arrayItem
    · simp only [object, if_true] at enter
      refine below.imp (fun passes write unmarked left some retval dupvalue => ?_) ?_
      · rw [enter write unmarked left some]
        exact passes write unmarked left some retval dupvalue
      · rintro ⟨value, stops⟩
        refine ⟨value, fun write unmarked left some retval dupvalue => ?_⟩
        rw [enter write unmarked left some]
        exact stops write unmarked left some retval dupvalue
    · simp only [object, if_false] at enter
      exact Or.inr ⟨fun _ => e.info.scopeValue, enter⟩
  · refine Or.inr ⟨id, fun write unmarked left some retval dupvalue => ?_⟩
    have way := (onWay inside unmarked).info
    have search :
        searchScope (n.modifyAt write (.scope (fold segm.name) :: .item k :: path)).nextScope
        segm.name = _ := (written write unmarked).1
    rw [List.cons_append, rtSearchLoop, search]
    simp [way, level, level']

/-- A key that leads on from a node is passed to that node by the search, or is stopped
on its way there, whatever the node holds. -/
theorem search_passes {pre : List Segment} (place : keyPlace n pre = some path)
    (there : n.getAt path = some m) (level : m.info.jsl ≠ .array) (roomy : Roomy n)
    (even : ¬ OddBelow n) : Passes n path m pre ∨ Stops n path m pre := by
  induction pre generalizing n path with
  | nil =>
    obtain rfl := Option.some.inj place
    obtain rfl := Option.some.inj there
    refine Or.inl fun write unmarked left more retval dupvalue => ?_
    rw [Node.modifyAt, List.nil_append]
    exact rtSearchLoop_retval more retval 0 _ dupvalue
  | cons segm pre ih =>
    rw [keyPlace] at place
    obtain ⟨c, hc, place⟩ := Option.bind_eq_some_iff.mp place
    have mem := mem_of_avlsearch Node.scopeKey hc
    have roomyC := roomy.down hc
    have evenC := oddBelow_scope even mem
    split at place
    · rename_i array
      split at place
      · -- the size of an array is not below it
        obtain rfl := Option.some.inj place
        rw [Node.getAt, hc] at there
        obtain rfl := Option.some.inj there
        exact absurd array level
      · obtain ⟨k, hk, place⟩ := Option.bind_eq_some_iff.mp place
        obtain ⟨e, he, place⟩ := Option.bind_eq_some_iff.mp place
        obtain ⟨path, below, rfl⟩ := Option.map_eq_some_iff.mp place
        obtain ⟨item, evenE⟩ := oddBelow_item evenC (List.mem_of_getElem? he)
        rw [Node.getAt, hc, Option.bind_some, Node.getAt, he] at there
        exact passes_item hc array roomyC.here hk he item there
          (ih below there (roomyC.down he) evenE)
    · rename_i scope
      obtain ⟨path, below, rfl⟩ := Option.map_eq_some_iff.mp place
      rw [Node.getAt, hc] at there
      exact passes_scope hc there scope (ih below there roomyC evenC)

end Searching

section Effects
variable {n m c c' : Node} {path : Path} {name : Bytes} {write : Node → Node}
variable {segms : List Segment}

/-- The key leads on from the place through the member of that name. -/
def Through (n : Node) (place : Path) (name : Bytes) (segms : List Segment) : Prop :=
  ∃ pre segm rest, segms = pre ++ segm :: rest ∧ keyPlace n pre = some place ∧ fold segm.name = name

/-- What is known of the place of a write. -/
structure PlaceOfWrite (n : Node) (path : Path) (m : Node) (write : Node → Node) : Prop where
  there : n.getAt path = some m
  level : m.info.jsl ≠ .array
  roomy : Roomy n
  even : ¬ OddBelow n
  unmarked : Unmarked write m

theorem unmarked_id (m : Node) : Unmarked (fun m => m) m := ⟨rfl, rfl⟩

/-- Every key but those through the member is answered as before. -/
theorem search_others (h : PlaceOfWrite n path m write)
    (others : ∀ key, key ≠ name → (write m).follow (.scope key) = m.follow (.scope key))
    (apart : ¬ Through n path name segms) (retval : Int) (dupvalue : Bytes) :
    rtSearchLoop retval (n.modifyAt write path).nextScope dupvalue segms =
      rtSearchLoop retval n.nextScope dupvalue segms := by
  by_cases reaches : ∃ pre left, segms = pre ++ left ∧ left ≠ [] ∧ keyPlace n pre = some path
  · obtain ⟨pre, left, rfl, more, place⟩ := reaches
    obtain ⟨segm, rest, rfl⟩ := List.exists_cons_of_ne_nil more
    have other : fold segm.name ≠ name := fun same => apart ⟨pre, segm, rest, rfl, place, same⟩
    have unchanged := modifyAt_id n path
    rcases search_passes place h.there h.level h.roomy h.even with passes | ⟨value, stops⟩
    · have before := passes _ (unmarked_id m) _ more retval dupvalue
      rw [unchanged] at before
      rw [passes write h.unmarked _ more, before, rtSearchLoop, rtSearchLoop,
        searchScope_eq_follow, searchScope_eq_follow, others _ other]
    · have before := stops _ (unmarked_id m) _ more retval dupvalue
      rw [unchanged] at before
      rw [stops write h.unmarked _ more, before]
  · refine search_elsewhere h.there h.unmarked h.roomy ?_ retval dupvalue
    intro pre left split more place
    exact reaches ⟨pre, left, split, more, place⟩

/-- No key leads through a member that is gone. -/
theorem search_gone (h : PlaceOfWrite n path m write)
    (gone : (write m).follow (.scope name) = none) (through : Through n path name segms)
    (retval : Int) (dupvalue : Bytes) :
    (rtSearchLoop retval (n.modifyAt write path).nextScope dupvalue segms).1 = -1 := by
  obtain ⟨pre, segm, rest, rfl, place, rfl⟩ := through
  have more := List.cons_ne_nil segm rest
  rcases search_passes place h.there h.level h.roomy h.even with passes | ⟨value, stops⟩
  · rw [passes write h.unmarked _ more, rtSearchLoop, searchScope_eq_follow, gone]
  · rw [stops write h.unmarked _ more]

/-- The array after the item has been taken out of it. -/
structure ItemDropped (c : Node) (k : Nat) (c' : Node) : Prop where
  jsl : c'.info.jsl = c.info.jsl
  size : c'.info.arraysize = c.info.arraysize - 1
  length : c'.array.length + 1 = c.array.length
  before : ∀ j, j < k → c'.array[j]? = c.array[j]?
  after : ∀ j, k ≤ j → c'.array[j]? = c.array[j + 1]?.map decreaseIndex

/-- The search in an array with a number for the index. -/
theorem rtSearchLoop_index {tree : Avl Node} {segm : Segment} {rest : List Segment} {j : Nat}
    (found : avlsearch Node.scopeKey tree (fold segm.name) = some c) (level : c.info.jsl = .array)
    (level' : segm.jsl = .array) (size : c.info.arraysize = c.array.length)
    (room : c.info.arraysize < jaSymLast) (index : segm.index = j) (number : (j : Int) ≤ maxArySize)
    (retval : Int) (dupvalue : Bytes) : rtSearchLoop retval tree dupvalue (segm :: rest) =
      match c.array[j]? with
      | none => (-1, dupvalue)
      | some e => match e.info.jsl with
        | .arrayItem => rtSearchLoop (-1) e.nextScope dupvalue rest
        | .arrayItemAsField => (if rest = [] then 0 else -1, e.info.scopeValue)
        | _ => (0, dupvalue) := by
  have order : maxArySize < jaSymLast ∧ jaSymLast < jaSymEntire ∧ jaSymEntire < jaSymAdd ∧
      jaSymAdd < jaSymQuerySize := by decide
  cases entered : c.array[j]? with
  | some e =>
    obtain ⟨inside, _⟩ := List.getElem?_eq_some_iff.mp entered
    have place : placeOf c.info.arraysize segm.index = some j := by
      rw [placeOf, index, if_pos (by omega), Int.toNat_natCast]
    exact rtSearchLoop_enter found level level' place room entered retval dupvalue
  | none =>
    have outside := List.getElem?_eq_none_iff.mp entered
    have nowhere : searchItem c segm.index = none := by
      rw [searchItem_place room, placeOf, index, if_neg (by omega), if_neg (by omega)]
      rfl
    have search : searchScope tree segm.name = some c := found
    have number' : segm.index ≠ jaSymQuerySize ∧
        ¬ (segm.index = jaSymAdd ∨ segm.index = jaSymEntire) := by omega
    rw [rtSearchLoop, search]
    simp only [level, nowhere, if_neg number'.1, if_neg number'.2, ite_self]

/-- Through the array every number answers as the number of the same item did before. -/
theorem search_shifted (h : PlaceOfWrite n path m write) (found : m.follow (.scope name) = some c)
    (level : c.info.jsl = .array) (size : c.info.arraysize = c.array.length)
    (room : c.info.arraysize < jaSymLast) {k : Nat} (dropped : ItemDropped c k c')
    (found' : (write m).follow (.scope name) = some c') {pre rest : List Segment}
    {segm : Segment} (place : keyPlace n pre = some path) (names : fold segm.name = name) {j : Nat}
    (index : segm.index = j) (number : (j : Int) < maxArySize) (retval : Int) (dupvalue : Bytes) :
    rtSearchLoop retval (n.modifyAt write path).nextScope dupvalue (pre ++ segm :: rest) =
      rtSearchLoop retval n.nextScope dupvalue
        (pre ++ { segm with index := if j < k then j else j + 1 } :: rest) := by
  subst names
  have more := List.cons_ne_nil segm rest
  have more' := List.cons_ne_nil { segm with index := if j < k then (j : Int) else j + 1 } rest
  have unchanged := modifyAt_id n path
  rcases search_passes place h.there h.level h.roomy h.even with passes | ⟨value, stops⟩
  · have before := passes _ (unmarked_id m) _ more' retval dupvalue
    rw [unchanged] at before
    rw [passes write h.unmarked _ more, before]
    by_cases level' : segm.jsl = .array
    · have size' : c'.info.arraysize = c'.array.length := by
        have sizes := dropped.size
        have lengths := dropped.length
        omega
      have room' : c'.info.arraysize < jaSymLast := by
        have sizes := dropped.size
        omega
      rw [rtSearchLoop_index found' (dropped.jsl.trans level) level' size' room' index
        (Int.le_of_lt number)]
      by_cases early : j < k
      · simp only [if_pos early]
        rw [@rtSearchLoop_index c m.nextScope { segm with index := j } rest j found level level'
          size room rfl (Int.le_of_lt number), dropped.before j early]
      · simp only [if_neg early]
        rw [@rtSearchLoop_index c m.nextScope { segm with index := j + 1 } rest (j + 1) found level
          level' size room rfl number, dropped.after j (Nat.not_lt.mp early)]
        cases c.array[j + 1]? with
        | none => rfl
        | some e => simp [decreaseIndex]
    · have search : searchScope (write m).nextScope segm.name = some c' := found'
      have search' : searchScope m.nextScope segm.name = some c := found
      rw [rtSearchLoop, rtSearchLoop, search, search']
      simp [dropped.jsl, level, level']
  · have before := stops _ (unmarked_id m) _ more' retval dupvalue
    rw [unchanged] at before
    rw [stops write h.unmarked _ more, before]

end Effects

section Items
variable {c e : Node} {k : Nat}

theorem split_at {α : Type} {l : List α} {a : α} (h : l[k]? = some a) :
    l = l.take k ++ a :: l.drop (k + 1) ∧ (l.take k).length = k := by
  obtain ⟨inside, rfl⟩ := List.getElem?_eq_some_iff.mp h
  refine ⟨?_, by rw [List.length_take]; omega⟩
  rw [List.getElem_cons_drop, List.take_append_drop]

theorem dropItem_dropped (entered : c.follow (.item k) = some e)
    (nodup : (c.array.flatMap Node.idents).Nodup) : ItemDropped c k (dropItem c e) := by
  obtain ⟨split, length⟩ := split_at entered
  have array := dropItem_split split (apart_of_nodup (split ▸ nodup))
  have short : k < c.array.length := by
    obtain ⟨inside, _⟩ := List.getElem?_eq_some_iff.mp entered
    exact inside
  refine ⟨by simp [dropItem], by simp [dropItem], ?_, ?_, ?_⟩
  · rw [array, List.length_append, length, List.length_map, List.length_drop]
    omega
  · intro j early
    rw [array, List.getElem?_append_left (by omega), List.getElem?_take_of_lt early]
  · intro j late
    rw [array, List.getElem?_append_right (by omega), length, List.getElem?_map,
      List.getElem?_drop]
    congr 2
    omega

omit [DoubleText ν] in
/-- Of children with different addresses the one at the place is filtered out. -/
theorem filter_eraseIdx {l : List (Item ν)} {d : Item ν} (nodup : (l.flatMap addrs).Nodup)
    (there : l[k]? = some d) : l.filter (fun c => c.addr ≠ d.addr) = l.eraseIdx k := by
  obtain ⟨split, length⟩ := split_at there
  have others : ∀ x ∈ l.take k ++ l.drop (k + 1), x.addr ≠ d.addr := by
    intro x hx same
    rw [split, List.flatMap_append, List.flatMap_cons] at nodup
    obtain ⟨_, later, early⟩ := List.nodup_append'.mp nodup
    have here := addr_mem_addrs d
    rcases List.mem_append.mp hx with before | after
    · exact early (List.mem_flatMap.mpr ⟨x, before, addr_mem_addrs x⟩)
        (List.mem_append_left _ (same ▸ here))
    · exact (List.nodup_append'.mp later).2.2 here
        (List.mem_flatMap.mpr ⟨x, after, same ▸ addr_mem_addrs x⟩)
  conv_lhs => rw [split]
  rw [List.eraseIdx_eq_take_drop_succ, List.filter_append,
    List.filter_cons_of_neg (by simp), ← List.filter_append, List.filter_eq_self]
  intro x hx
  simpa using others x hx

/-- The element of an item that is deleted goes out of the JSON array. -/
theorem item_cut {fuel : Nat} {store : Store ν} {r : Store ν × Node × Avl Node} {x : Item ν}
    (separate : Separate store.heap) (inHeap : x ∈ store.heap.roots.flatMap items)
    (mirrors : Mirrors c x) (entered : c.follow (.item k) = some e) (item : IsItem e)
    (call : rtDeleteRange true fuel store e c = some r) :
    x.kind = .cjsonArray ∧ k < x.child.length ∧
      r.1.heap.deref x.addr = some (x.setChild fun child => child.eraseIdx k) := by
  obtain ⟨d, hd, _, mirrorsE⟩ := mirrors.down entered
  have element : x.kind = .cjsonArray ∧ x.child[k]? = some d := by
    rw [DocTree.follow] at hd
    split at hd
    · exact ⟨‹_›, hd⟩
    · cases hd
  obtain ⟨split, _⟩ := split_at element.2
  obtain ⟨inside, _⟩ := List.getElem?_eq_some_iff.mp element.2
  refine ⟨element.1, inside, ?_⟩
  obtain ⟨mid, ⟨touched, next⟩, last⟩ := rtDeleteRange_cutsOut d.addrs fuel store e c r x.addr
    d.addr call (inside_of_mirrors mirrorsE (List.Subset.refl _)) mirrorsE.linked.ptr
    (mirrors.linked.below _ e entered) mirrors.linked.ptr
  obtain ⟨fill, rest, hole⟩ := hole_of_mem inHeap
  have nodup := (hole.nodup separate.apart).1
  rw [addrs_eq, List.nodup_cons] at nodup
  have roots : r.1.heap.roots = fill (x.setChild fun child => child.eraseIdx k) := by
    rw [last, cutOut, if_pos item]
    have dropped := touched_dropped separate.apart inHeap split touched
      (f := fun child => child.filter fun c => c.addr ≠ d.addr)
      (fun z addr _ => by simp [List.filter_append, addr])
    refine dropped.trans ?_
    rw [hole.update_self separate.apart]
    exact congrArg fill (setChild_congr (filter_eraseIdx nodup.2 element.2))
  have address : r.1.heap.nextAddr = store.heap.nextAddr := by
    obtain ⟨f, write⟩ := cutOut_write mid e x.addr d.addr
    rw [last, write]
    exact next
  have fewer : (x.setChild fun child => child.eraseIdx k).addrs.Sublist x.addrs :=
    addrs_fewer (List.eraseIdx_sublist x.child k)
  have after := separate_fill hole separate (Nat.le_refl _)
    ((hole.nodup separate.apart).1.sublist fewer) (fun a ha => Or.inl (fewer.subset ha))
  have same :
      r.1.heap = ⟨fill (x.setChild fun child => child.eraseIdx k), store.heap.nextAddr⟩ := by
    rw [← roots, ← address]
  have found := deref_of_mem after (hole.mem _)
  rwa [← same, addr_setChild] at found

end Items

section Law
variable {world world' : World ν} {place : Path} {segm : Segment} {m c : Node}

/-- The documents under a tree: the items in memory are apart, as the blocks of the tree
are, and every node below an archive shows an item and mirrors it. -/
structure Documented (world : World ν) : Prop where
  separate : Separate world.store.heap
  blocks : (rootNode world.root).idents.Nodup
  backed : ∀ q m, (rootNode world.root).getAt q = some m → 3 ≤ q.length →
    ∃ x ∈ world.store.heap.roots.flatMap items, Shows m x ∧ Mirrors m x

/-- What a deletion does to the keys through its target, the node `c` that the last segment
of the key names at the place. -/
inductive DeleteEffect (world world' : World ν) (place : Path) (segm : Segment) (c : Node) :
    Prop where
  /-- A field, a scope, an archive or all items: no key at or below it resolves. -/
  | gone (target : (c.info.jsl = .field ∨ c.info.jsl = .logicScope ∨ c.info.jsl = .archive) ∨
        (c.info.jsl = .array ∧ segm.index = jaSymEntire))
      (unresolved : ∀ q : Jrp, Through (rootNode world.root) place (fold segm.name) q.segm →
        (rtSearch world'.root q).1 < 0) : DeleteEffect world world' place segm c
  /-- Item `k`: the array has one item less, in the tree and in its document, and the later
  items answer under an index that is one lower. -/
  | shifted {k : Nat} {c' : Node} (array : c.info.jsl = .array)
      (index : placeOf c.info.arraysize segm.index = some k)
      (there : (rootNode world'.root).getAt (place ++ [.scope (fold segm.name)]) = some c')
      (items : c'.info.arraysize = c.info.arraysize - 1 ∧ c'.array.length + 1 = c.array.length)
      (answers : ∀ (pre rest : List Segment) (segm' : Segment) (j : Nat),
        keyPlace (rootNode world.root) pre = some place → fold segm'.name = fold segm.name →
        segm'.index = j → (j : Int) < maxArySize → ∀ q : Jrp, q.segm = pre ++ segm' :: rest →
        rtSearch world'.root q = rtSearch world.root { q with
          segm := pre ++ { segm' with index := if j < k then j else j + 1 } :: rest })
      (json : ∃ a x, c.info.jsonptr = some a ∧ world.store.heap.deref a = some x ∧
        x.kind = .cjsonArray ∧ k < x.child.length ∧
        world'.store.heap.deref a = some (x.setChild fun child => child.eraseIdx k)) :
      DeleteEffect world world' place segm c

/-- The segments that a walk has passed. -/
theorem walks_prefix {n : Node} {segms passed left : List Segment} {path : Path}
    (walk : Walks n segms path passed m left) :
    ∃ pre, segms = pre ++ left ∧ Walks n pre path passed m [] := by
  induction walk with
  | stop n segms => exact ⟨[], rfl, .stop n []⟩
  | scope found level level' _ ih =>
    obtain ⟨pre, rfl, further⟩ := ih
    exact ⟨_ :: pre, rfl, .scope found level level' further⟩
  | item found level level' place entered _ ih =>
    obtain ⟨pre, rfl, further⟩ := ih
    exact ⟨_ :: pre, rfl, .item found level level' place entered further⟩

omit [DoubleText ν] in
/-- Arrays lie below the archives. -/
theorem deep_of_array (wf : WellFormed world) (there : (rootNode world.root).getAt place = some m)
    (found : m.follow (.scope (fold segm.name)) = some c) (level : c.info.jsl = .array) :
    2 ≤ place.length := by
  by_contra short
  have mem := mem_of_avlsearch Node.scopeKey found
  match place with
  | [] =>
    obtain rfl := Option.some.inj there
    have dir := (wf.dirs c mem).1
    rw [level] at dir
    cases dir
  | [.item i] => cases there
  | [.scope key] =>
    rw [Node.getAt] at there
    obtain ⟨dir, hdir, same⟩ := Option.bind_eq_some_iff.mp there
    obtain rfl := Option.some.inj same
    have archive := ((wf.dirs dir (mem_of_avlsearch Node.scopeKey hdir)).2 c mem).1
    rw [level] at archive
    cases archive
  | _ :: _ :: rest =>
    rw [List.length_cons, List.length_cons] at short
    omega

omit [DoubleText ν] in
/-- The node that holds the target is one that a write to its members leaves unmarked. -/
theorem placeOfWrite (wf : WellFormed world) {path : Path}
    (there : (rootNode world.root).getAt path = some m)
    (found : m.follow (.scope (fold segm.name)) = some c) {write : Node → Node}
    (unmarked : Unmarked write m) : PlaceOfWrite (rootNode world.root) path m write := by
  refine ⟨there, ?_, roomy_root wf, wf.even, unmarked⟩
  intro array
  rw [Node.follow, (built_getAt' wf.built there).noScopes array] at found
  cases found

omit [DoubleText ν] in
/-- A member that is gone. -/
theorem effect_gone (wf : WellFormed world) (there : (rootNode world.root).getAt place = some m)
    (found : m.follow (.scope (fold segm.name)) = some c) (key : c.scopeKey = fold segm.name)
    {store : Store ν} :
    let world' := world.modifyAt (fun _ => removeScope m c.info.scopeName) place store
    (∀ q : Jrp, ¬ Through (rootNode world.root) place (fold segm.name) q.segm →
      rtSearch world'.root q = rtSearch world.root q) ∧
    ∀ q : Jrp, Through (rootNode world.root) place (fold segm.name) q.segm →
      (rtSearch world'.root q).1 < 0 := by
  have ordered := (built_getAt' wf.built there).ordered
  have written := @placeOfWrite ν world segm m c wf place there found
    (fun _ => removeScope m c.info.scopeName) ⟨removeScope_info m _, removeScope_array m _⟩
  have follows := follow_removeScope ordered c.info.scopeName
  have name : fold c.info.scopeName = fold segm.name := key
  constructor
  · intro q apart
    refine search_others written (fun key other => ?_) apart 0 q.dupvalue
    have different : Step.scope key ≠ .scope (fold segm.name) := fun h => other (Step.scope.inj h)
    rw [follows, name, if_neg different]
  · intro q through
    have unresolved := search_gone written (by rw [follows, name, if_pos rfl]) through 0 q.dupvalue
    rw [rtSearch, modifyAt_root, unresolved]
    decide

/-- An array that has lost its item `k`. -/
theorem effect_shifted (wf : WellFormed world) (doc : Documented world)
    (there : (rootNode world.root).getAt place = some m)
    (found : m.follow (.scope (fold segm.name)) = some c) (level : c.info.jsl = .array) {k : Nat}
    (index : placeOf c.info.arraysize segm.index = some k) {e : Node}
    (entered : c.follow (.item k) = some e) {fuel : Nat} {r : Store ν × Node × Avl Node}
    (call : rtDeleteRange true fuel world.store e c = some r) {store : Store ν}
    (heap : store.heap = r.1.heap) :
    let world' := world.modifyAt
      (fun _ => m.modifyAt (fun _ => r.2.1) [.scope r.2.1.scopeKey]) place store
    (∀ q : Jrp, ¬ Through (rootNode world.root) place (fold segm.name) q.segm →
      rtSearch world'.root q = rtSearch world.root q) ∧
    DeleteEffect world world' place segm c := by
  intro world'
  have deep := deep_of_array wf there found level
  have whereC := getAt_snoc there found
  have builtC := built_getAt' wf.built whereC
  have item := (oddBelow_item (oddBelow_getAt wf.even whereC) (List.mem_of_getElem? entered)).1
  -- the array without the item, under the same name
  obtain ⟨_, nodupC, _⟩ := built_getAt wf.built doc.blocks whereC
  rw [idents_eq, List.nodup_cons] at nodupC
  have after : r.2.1 = dropItem c e := by
    rw [(rtDeleteRange_unlinks true fuel _ _ _ _ _ _ call).above, parentAfter, if_pos item]
  have dropped := dropItem_dropped entered (List.nodup_append'.mp nodupC.2).2.1
  have key : r.2.1.scopeKey = fold segm.name := by
    rw [after, ← key_of_avlsearch Node.scopeKey found]
    simp [Node.scopeKey, dropItem]
  have keeps : ∀ x, m.getAt [.scope r.2.1.scopeKey] = some x → r.2.1.scopeKey = x.scopeKey := by
    intro x hx
    rw [key, Node.getAt, found] at hx
    obtain rfl := Option.some.inj hx
    rw [key, key_of_avlsearch Node.scopeKey found]
  have follows := @follow_modifyAt m (fun _ => r.2.1) (.scope r.2.1.scopeKey) [] keeps
  have written := @placeOfWrite ν world segm m c wf place there found
    (fun _ => m.modifyAt (fun _ => r.2.1) [.scope r.2.1.scopeKey])
    ⟨modifyAt_info, by simp [Node.modifyAt]⟩
  have found' : (m.modifyAt (fun _ => r.2.1) [.scope r.2.1.scopeKey]).follow
      (.scope (fold segm.name)) = some (dropItem c e) := by
    rw [follows, key, if_pos rfl, found, ← after]
    rfl
  refine ⟨?_, .shifted level index ?_ ⟨dropped.size, dropped.length⟩ ?_ ?_⟩
  · intro q apart
    refine search_others written (fun other different => ?_) apart 0 q.dupvalue
    have elsewhere : Step.scope other ≠ .scope (fold segm.name) :=
      fun h => different (Step.scope.inj h)
    rw [follows, key, if_neg elsewhere]
  · have started : place ≠ [] := by
      rintro rfl
      cases deep
    have landed : ((rootNode world.root).modifyAt (fun _ => m.modifyAt (fun _ => r.2.1)
        [.scope r.2.1.scopeKey]) place).getAt place = some _ :=
      getAt_modifyAt there written.unmarked.key
    rw [rootNode_modifyAt world _ started, getAt_append, landed, Option.bind_some, Node.getAt,
      found']
    rfl
  · intro pre rest segm' j place' names index' number q hq
    rw [rtSearch, hq]
    exact search_shifted written found level builtC.size (roomy_root wf _ c whereC) dropped found'
      place' names index' number 0 q.dupvalue
  · obtain ⟨x, inHeap, _, mirrors⟩ := doc.backed _ c whereC (by simp; omega)
    obtain ⟨array, inside, cut⟩ := item_cut doc.separate inHeap mirrors entered item call
    refine ⟨x.addr, x, mirrors.linked.ptr, deref_of_mem doc.separate inHeap, array, inside, ?_⟩
    rw [← cut, ← heap]
    rfl

/-- A deletion that is answered with success has deleted the node that the key names, and
has changed the answer of no key that does not lead through it. -/
theorem delete_law (wf : WellFormed world) (doc : Documented world) {key : Bytes} {jrp : Jrp}
    {u : Updated ν} (separated : rtSeparateSegment key = some jrp.segm)
    (value : jrp.valuestring = some keywordDeleted) (done : rtConfigUpdate world jrp = some u)
    (ok : 0 ≤ u.retval) :
    ∃ pre segm place m c, jrp.segm = pre ++ [segm] ∧
      keyPlace (rootNode world.root) pre = some place ∧
      (rootNode world.root).getAt place = some m ∧
      m.follow (.scope (fold segm.name)) = some c ∧
      (∀ q : Jrp, ¬ Through (rootNode world.root) place (fold segm.name) q.segm →
        rtSearch u.world.root q = rtSearch world.root q) ∧
      DeleteEffect world u.world place segm c := by
  by_cases nonempty : key = []
  · rw [rtSeparateSegment, if_pos nonempty, Option.some.injEq] at separated
    obtain ⟨archive, refused⟩ := @rtConfigUpdate_nil ν world _ _ jrp value separated.symm
    obtain rfl := Option.some.inj (refused.symm.trans done)
    cases ok
  have accepted := acceptedKey_of_rtSeparateSegment nonempty separated
  cases update_cases wf.built accepted value done with
  | refused archive => cases ok
  | field walk found level level' keep => exact absurd rfl keep
  | item walk found level level' place keep => exact absurd rfl keep
  | missing walk started missing level noFile keep => exact absurd rfl keep
  | extend walk found level level' next keep => exact absurd rfl keep
  | @delete path passed n c segm walk found target keyword deleted call checkpoints archive =>
    obtain ⟨pre, split, before⟩ := walks_prefix walk
    have there := getAt_of_walks walk
    have place : keyPlace (rootNode world.root) pre = some path := by
      rw [keyPlace_of_walks before (roomy_root wf)]
      simp [keyPlace]
    have room := roomy_root wf _ c (getAt_member walk found)
    have name := key_of_avlsearch Node.scopeKey found
    have level := (built_getAt' wf.built there).level c (mem_of_avlsearch Node.scopeKey found)
    refine ⟨pre, segm, path, n, c, split, place, there, found, ?_⟩
    cases rtDelete_done target room call ok with
    | @scope store₁ r kind level' heap range stored above =>
      have after : deleted.parentnode = removeScope n c.info.scopeName := by
        rw [above, (rtDeleteRange_unlinks true _ _ _ _ _ _ _ range).above, parentAfter,
          if_neg level]
      rw [after]
      obtain ⟨others, gone⟩ := @effect_gone ν world path segm n c wf there found name _
      exact ⟨others, .gone (Or.inl kind) gone⟩
    | @entire store₁ c₁ r kind index drained range stored above =>
      have after : deleted.parentnode = removeScope n c.info.scopeName := by
        rw [above, (rtDeleteRange_unlinks true _ _ _ _ _ _ _ range).above,
          (parentAfter_congr (deleteAllItems_same drained) n).1, parentAfter, if_neg level]
      rw [after]
      obtain ⟨others, gone⟩ := @effect_gone ν world path segm n c wf there found name _
      exact ⟨others, .gone (Or.inr ⟨kind, index⟩) gone⟩
    | @item k e r kind index entered range stored above =>
      rw [above]
      exact effect_shifted wf doc there found kind index entered range (by rw [stored])

end Law

/-- The tree that is loaded from documents that are objects is documented by them. -/
theorem documented_loaded {images : List (DirImage ν)}
    (loaded : ∀ dir ∈ images, ∀ image ∈ dir.archives,
      Producible image.document ∧ image.document.string = none)
    (objects : ∀ dir ∈ images, ∀ image ∈ dir.archives, image.document.kind = .cjsonObject)
    {store : Store ν} (separate : Separate store.heap)
    (blocks : (rootNode (loadedRoot images)).idents.Nodup)
    (inHeap : ∀ dir ∈ images, ∀ image ∈ dir.archives, image.document ∈ store.heap.roots) :
    Documented ⟨loadedRoot images, store⟩ := by
  refine ⟨separate, blocks, fun q m there deep => ?_⟩
  rcases loaded_getAt loaded objects there with ⟨short, _⟩ | ⟨_, image, hi, file, hf, x, hx, shows⟩
  · omega
  · exact ⟨x, List.mem_flatMap.mpr ⟨_, inHeap image hi file hf, hx⟩, shows⟩

section OneArchive
variable {document : Item Nat}

/-- The tree and the memory after the archive d.a is loaded from the document. -/
def archiveWorld (document : Item Nat) : World Nat where
  root := loadedRoot (oneArchive document)
  store := { nullStore with heap := ⟨[document], 8⟩ }

theorem eachImage {P : Item Nat → Prop} (h : P document) :
    ∀ dir ∈ oneArchive document, ∀ image ∈ dir.archives, P image.document := by
  intro dir hdir image himage
  obtain rfl := List.mem_singleton.mp hdir
  obtain rfl := List.mem_singleton.mp himage
  exact h

theorem archiveWorld_wellFormed (shape : Producible document) (unnamed : document.string = none)
    (object : document.kind = .cjsonObject) (countable : Countable document)
    (even : ¬ OddBelow (rootNode (archiveWorld document).root))
    (separate : Separate (archiveWorld document).store.heap) :
    WellFormed (archiveWorld document) :=
  wellFormed_loaded (oneArchive_loaded shape unnamed)
    (eachImage (P := fun document => document.kind = .cjsonObject) object)
    (eachImage (P := Countable) countable) even
    (eachImage (P := fun document' => ∀ j ∈ document'.items,
      (archiveWorld document).store.heap.deref j.addr = some j) fun _ hj =>
        deref_of_mem separate (List.mem_flatMap.mpr ⟨_, List.mem_singleton.mpr rfl, hj⟩))

theorem archiveWorld_documented (shape : Producible document) (unnamed : document.string = none)
    (object : document.kind = .cjsonObject)
    (blocks : (rootNode (archiveWorld document).root).idents.Nodup)
    (separate : Separate (archiveWorld document).store.heap) :
    Documented (archiveWorld document) :=
  documented_loaded (oneArchive_loaded shape unnamed)
    (eachImage (P := fun document => document.kind = .cjsonObject) object) separate blocks
    (eachImage (P := (· ∈ [document])) (List.mem_singleton.mpr rfl))

end OneArchive

section OneItem

/-- The archive d.a with the document `{"arr":["x"]}`. -/
def itemWorld : World Nat where
  root := loadedRoot itemImages
  store := { nullStore with heap := ⟨[arrayDocument (ofChars ['a', 'r', 'r'])], 8⟩ }

theorem itemWorld_separate : Separate itemWorld.store.heap := by
  have addresses : itemWorld.store.heap.roots.flatMap addrs = [1, 2, 3] := rfl
  constructor
  · rw [addresses]
    decide
  · rw [addresses]
    decide

theorem itemWorld_even : ¬ OddBelow (rootNode itemWorld.root) := by
  have single : ∀ {m : Node} {P : Node → Prop}, P m → ∀ c ∈ [m], P c := by
    intro m P h c hc
    exact List.mem_singleton.mp hc ▸ h
  have none : ∀ {P : Node → Prop}, ∀ c ∈ ([] : List Node), P c := fun c hc => nomatch hc
  exact plain_of_lists (single (plain_of_lists (single (plain_of_lists (single
    (plain_of_lists none (single ⟨Or.inr rfl, plain_of_lists none none⟩))) none)) none)) none

theorem itemWorld_wellFormed : WellFormed itemWorld := by
  have items : (arrayDocument (ofChars ['a', 'r', 'r'])).items =
      [arrayDocument (ofChars ['a', 'r', 'r']), .mk 2 (some (ofChars ['a', 'r', 'r'])) .cjsonArray
        [.mk 3 none (.cjsonString (ofChars ['x'])) []],
        .mk 3 none (.cjsonString (ofChars ['x'])) []] := rfl
  refine archiveWorld_wellFormed (arrayDocument_ok (legalName_iff.mpr (by decide +kernel))).1 rfl
    rfl
    ?_ itemWorld_even itemWorld_separate
  intro j hj
  rw [items] at hj
  rcases List.mem_cons.mp hj with rfl | hj
  · exact ⟨by decide, nofun⟩
  rcases List.mem_cons.mp hj with rfl | hj
  · exact ⟨by decide, fun _ c hc => by rw [List.mem_singleton.mp hc]; rfl⟩
  · obtain rfl := List.mem_singleton.mp hj
    exact ⟨by decide, nofun⟩

end OneItem

section MiddleItem

def wordItem (addr : Nat) (c : Char) : Item Nat := .mk addr none (.cjsonString (ofChars [c])) []

def wordsArray : Item Nat :=
  .mk 2 (some (ofChars ['a', 'r', 'r'])) .cjsonArray
    [wordItem 3 'x', wordItem 4 'y', wordItem 5 'z']

/-- `{"arr":["x","y","z"]}` -/
def wordsDocument : Item Nat := .mk 1 none .cjsonObject [wordsArray]

theorem wordsDocument_items : wordsDocument.items =
    [wordsDocument, wordsArray, wordItem 3 'x', wordItem 4 'y', wordItem 5 'z'] := rfl

/-- `d.a.arr[1]=deleted` -/
def dropRequest : Jrp where
  segm := [⟨ofChars ['d'], -1, .dir⟩, ⟨ofChars ['a'], -1, .archive⟩,
    ⟨ofChars ['a', 'r', 'r'], 1, .array⟩]
  valuestring := some keywordDeleted
  dupkey := ofChars ['d', '.', 'a', '.', 'a', 'r', 'r', '[', '1', ']']
  dupvalue := keywordDeleted

theorem dropRequest_separated : rtSeparateSegment dropRequest.dupkey = some dropRequest.segm := by
  decide +kernel

theorem each_wordItem {P : Item Nat → Prop} (h : ∀ addr c, P (wordItem addr c)) :
    ∀ e ∈ [wordItem 3 'x', wordItem 4 'y', wordItem 5 'z'], P e :=
  List.forall_mem_cons.mpr ⟨h 3 'x', List.forall_mem_cons.mpr ⟨h 4 'y', List.forall_mem_cons.mpr
    ⟨h 5 'z', fun _ => nofun⟩⟩⟩

theorem wordsDocument_producible : Producible wordsDocument := by
  refine .object (List.forall_mem_singleton.mpr (by decide)) fun c hc => ?_
  obtain rfl := List.mem_singleton.mp hc
  exact .array (each_wordItem (P := fun e => e.string = none) fun _ _ => rfl)
    (each_wordItem fun _ _ => .leaf nofun nofun)

theorem wordsDocument_countable : Countable wordsDocument := by
  intro j hj
  rw [wordsDocument_items] at hj
  rcases List.mem_cons.mp hj with rfl | hj
  · exact ⟨by decide, nofun⟩
  rcases List.mem_cons.mp hj with rfl | hj
  · exact ⟨by decide, fun _ => each_wordItem (P := fun e => e.string = none) fun _ _ => rfl⟩
  · exact each_wordItem (P := fun e => (e.child.length : Int) < jaSymLast ∧
      (e.kind = .cjsonArray → ∀ c ∈ e.child, c.string = none)) (fun _ _ =>
        ⟨show ((0 : Nat) : Int) < jaSymLast by decide, nofun⟩) j hj

theorem wordsWorld_even : ¬ OddBelow (rootNode (archiveWorld wordsDocument).root) := by
  have single : ∀ {m : Node} {P : Node → Prop}, P m → ∀ c ∈ [m], P c := by
    intro m P h c hc
    exact List.mem_singleton.mp hc ▸ h
  have none : ∀ {P : Node → Prop}, ∀ c ∈ ([] : List Node), P c := fun c hc => nomatch hc
  have item : ∀ {m : Node}, m.info.jsl = .arrayItemAsField → m.nextScope = .nil → m.array = [] →
      IsItem m ∧ ¬ OddBelow m := by
    intro m level scopes items
    refine ⟨Or.inr level, plain_of_lists ?_ ?_⟩
    · rw [scopes]
      exact none
    · rw [items]
      exact none
  refine plain_of_lists (single (plain_of_lists (single (plain_of_lists (single
    (plain_of_lists none ?_)) none)) none)) none
  exact List.forall_mem_cons.mpr ⟨item rfl rfl rfl, List.forall_mem_cons.mpr
    ⟨item rfl rfl rfl, single (item rfl rfl rfl)⟩⟩

theorem wordsWorld_separate : Separate (archiveWorld wordsDocument).store.heap := by
  have addresses : (archiveWorld wordsDocument).store.heap.roots.flatMap addrs = [1, 2, 3, 4, 5] :=
    rfl
  constructor
  · rw [addresses]
    decide
  · rw [addresses]
    decide

theorem wordsWorld_wellFormed : WellFormed (archiveWorld wordsDocument) :=
  archiveWorld_wellFormed wordsDocument_producible rfl rfl wordsDocument_countable wordsWorld_even
    wordsWorld_separate

theorem wordsWorld_documented : Documented (archiveWorld wordsDocument) := by
  have blocks : (rootNode (archiveWorld wordsDocument).root).idents = [0, 7, 1, 2, 3, 4, 5] := rfl
  refine archiveWorld_documented wordsDocument_producible rfl rfl ?_ wordsWorld_separate
  rw [blocks]
  decide

/-- The middle one of three items is deleted, and the last one moves up. -/
theorem delete_law_middle : ∃ u, rtConfigUpdate (archiveWorld wordsDocument) dropRequest = some u ∧
    u.retval = 0 ∧ rtSearch u.world.root dropRequest = (0, ofChars ['z']) ∧
    ∃ pre segm place m c, dropRequest.segm = pre ++ [segm] ∧
      keyPlace (rootNode (archiveWorld wordsDocument).root) pre = some place ∧
      (rootNode (archiveWorld wordsDocument).root).getAt place = some m ∧
      m.follow (.scope (fold segm.name)) = some c ∧
      (∀ q : Jrp, ¬ Through (rootNode (archiveWorld wordsDocument).root) place (fold segm.name)
        q.segm → rtSearch u.world.root q = rtSearch (archiveWorld wordsDocument).root q) ∧
      DeleteEffect (archiveWorld wordsDocument) u.world place segm c := by
  have done : ∃ u, rtConfigUpdate (archiveWorld wordsDocument) dropRequest = some u ∧
      u.retval = 0 ∧ rtSearch u.world.root dropRequest = (0, ofChars ['z']) := ⟨_, rfl, rfl, rfl⟩
  obtain ⟨u, hu, answer, moved⟩ := done
  have ok : 0 ≤ u.retval := by rw [answer]
  exact ⟨u, hu, answer, moved, delete_law wordsWorld_wellFormed wordsWorld_documented
    dropRequest_separated rfl hu ok⟩

end MiddleItem

end DeleteLaw
