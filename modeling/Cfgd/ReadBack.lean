import Cfgd.AppendSteps

/-!
# Reading back what was written

The way that `rt_reach_last_match_scope` takes to the node to be written is the way
that `rt_search` takes in the tree after the write. From that node on the key leads
to what `rt_append` made, or to the value that was replaced.
-/

namespace ReadBack

open AvlTree CText CJson Request ConfigNode Loader FsImage Runtime DeleteRange KeyShape Reach
open Levels AppendSteps

variable {ν : Type}

/-- The key with the index `+` read as the index of the appended item: the size of the
array before the write, which is 0 for an array that the write makes. -/
def readKey : Option Node → List Segment → List Segment
  | _, [] => []
  | n, segm :: rest =>
    let found := n.bind fun n => n.follow (.scope (fold segm.name))
    let index := if segm.index = jaSymAdd then (found.map fun c => c.info.arraysize).getD 0
      else segm.index
    let next := found.bind fun c =>
      if c.info.jsl = .array then
        (placeOf c.info.arraysize index).bind fun k => c.follow (.item k)
      else some c
    { segm with index := index } :: readKey next rest

theorem readKey_ne_nil {n : Option Node} {segms : List Segment} (h : segms ≠ []) :
    readKey n segms ≠ [] := by
  cases segms with
  | nil => exact absurd rfl h
  | cons segm rest => simp [readKey]

/-- A name that leads nowhere reads like a name below nothing. -/
theorem readKey_missing {n : Node} {segm : Segment} {rest : List Segment}
    (missing : n.follow (.scope (fold segm.name)) = none) :
    readKey (some n) (segm :: rest) = readKey none (segm :: rest) := by
  simp [readKey, missing]

/-- What the search returns so far does not matter while segments are left. -/
theorem rtSearchLoop_retval {segms : List Segment} (more : segms ≠ []) (retval retval' : Int)
    (tree : Avl Node) (dupvalue : Bytes) :
    rtSearchLoop retval tree dupvalue segms = rtSearchLoop retval' tree dupvalue segms := by
  cases segms with
  | nil => exact absurd rfl more
  | cons segm rest => simp only [rtSearchLoop]

theorem placeOf_symbols {size index : Int} {k : Nat} (place : placeOf size index = some k)
    (room : size < jaSymLast) :
    index ≠ jaSymQuerySize ∧ index ≠ jaSymAdd ∧ index ≠ jaSymEntire ∧ 0 < size := by
  have order : jaSymLast < jaSymEntire ∧ jaSymEntire < jaSymAdd ∧ jaSymAdd < jaSymQuerySize := by
    decide
  rw [placeOf] at place
  split at place
  · omega
  · split at place
    · omega
    · cases place

/-- Where the reach goes, the search goes too. -/
theorem searchItem_of_place {c : Node} {index : Int} {k : Nat}
    (place : placeOf c.info.arraysize index = some k) (room : c.info.arraysize < jaSymLast) :
    searchItem c index = c.follow (.item k) := by
  rw [placeOf] at place
  rw [searchItem]
  split at place
  · rename_i inside
    obtain rfl := Option.some.inj place
    have notLast : ¬ index = jaSymLast := by omega
    have cast : index = (index.toNat : Int) := by omega
    rw [if_neg notLast, if_pos ⟨inside.2, inside.1⟩]
    conv_lhs => rw [cast]
    exact rtSeekArrayNode_eq_follow c index.toNat
  · split at place
    · rename_i last
      obtain rfl := Option.some.inj place
      have cast : c.info.arraysize - 1 = ((c.info.arraysize - 1).toNat : Int) := by omega
      rw [if_pos last.2]
      conv_lhs => rw [cast]
      exact rtSeekArrayNode_eq_follow c _
    · cases place

section Steps
variable {tree : Avl Node} {segm : Segment} {rest : List Segment} {c e : Node} {k : Nat}

/-- A scope is passed. -/
theorem rtSearchLoop_pass (found : avlsearch Node.scopeKey tree (fold segm.name) = some c)
    (level : c.info.jsl = .dir ∨ c.info.jsl = .archive ∨
      (c.info.jsl = .logicScope ∧ segm.jsl = .logicScope)) (more : rest ≠ [])
    (retval : Int) (dupvalue : Bytes) : rtSearchLoop retval tree dupvalue (segm :: rest) =
      rtSearchLoop retval c.nextScope dupvalue rest := by
  have search : searchScope tree segm.name = some c := found
  rw [rtSearchLoop, search, rtSearchLoop_retval more retval 0]
  rcases level with level | level | ⟨level, level'⟩
  · simp [level, more]
  · simp [level, more]
  · simp [level, level', more]

/-- An array is entered at an item. -/
theorem rtSearchLoop_enter (found : avlsearch Node.scopeKey tree (fold segm.name) = some c)
    (level : c.info.jsl = .array) (level' : segm.jsl = .array)
    (place : placeOf c.info.arraysize segm.index = some k) (room : c.info.arraysize < jaSymLast)
    (entered : c.follow (.item k) = some e) (retval : Int) (dupvalue : Bytes) :
    rtSearchLoop retval tree dupvalue (segm :: rest) = match e.info.jsl with
      | .arrayItem => rtSearchLoop (-1) e.nextScope dupvalue rest
      | .arrayItemAsField => (if rest = [] then 0 else -1, e.info.scopeValue)
      | _ => (0, dupvalue) := by
  obtain ⟨notSize, notAdd, notEntire, positive⟩ := placeOf_symbols place room
  have search : searchScope tree segm.name = some c := found
  have usable : ¬ (segm.jsl ≠ .array ∨ c.array = [] ∨ c.info.arraysize ≤ 0) := by
    rintro (h | h | h)
    · exact h level'
    · rw [Node.follow, h] at entered
      cases entered
    · omega
  rw [rtSearchLoop, search]
  simp only [level]
  rw [if_neg usable, if_neg notSize, if_neg (not_or.mpr ⟨notAdd, notEntire⟩),
    searchItem_of_place place room]
  cases jsl : e.info.jsl <;> simp only [entered, jsl]

theorem rtSearchLoop_through (found : avlsearch Node.scopeKey tree (fold segm.name) = some c)
    (level : c.info.jsl = .array) (level' : segm.jsl = .array)
    (place : placeOf c.info.arraysize segm.index = some k) (room : c.info.arraysize < jaSymLast)
    (entered : c.follow (.item k) = some e) (object : e.info.jsl = .arrayItem)
    (more : rest ≠ []) (retval : Int) (dupvalue : Bytes) :
    rtSearchLoop retval tree dupvalue (segm :: rest) =
      rtSearchLoop retval e.nextScope dupvalue rest := by
  rw [rtSearchLoop_enter found level level' place room entered, object]
  exact rtSearchLoop_retval more ..

end Steps

section Walking

/-- A write that keeps what the way to the node depends on. -/
structure Keeps (write : Node → Node) (m : Node) : Prop where
  scopeKey : (write m).scopeKey = m.scopeKey
  jsl : (write m).info.jsl = m.info.jsl

/-- One step down of a write. -/
theorem follow_write {n c m : Node} {s : Step} {path : Path} {write : Node → Node}
    (found : n.follow s = some c) (there : c.getAt path = some m) (keeps : Keeps write m) :
    (n.modifyAt write (s :: path)).follow s = some (c.modifyAt write path) ∧
      (c.modifyAt write path).info.jsl = c.info.jsl := by
  constructor
  · have keeps' : ∀ m', n.getAt (s :: path) = some m' → (write m').scopeKey = m'.scopeKey := by
      intro m' hm'
      rw [Node.getAt, found, Option.bind_some, there, Option.some.injEq] at hm'
      exact hm' ▸ keeps.scopeKey
    rw [follow_modifyAt keeps', if_pos rfl, found, Option.map_some]
  · cases path with
    | nil =>
      obtain rfl := Option.some.inj there
      exact keeps.jsl
    | cons s' path => rw [modifyAt_info]

/-- No way leads further from a node that takes no members. -/
theorem walks_closed {n m : Node} {segms passed left : List Segment} {path : Path}
    (walk : Walks n segms path passed m left) (leveled : Leveled n)
    (closed : ¬ TakesMembers n.info.jsl) : m = n := by
  cases walk with
  | stop n segms => rfl
  | scope found _ _ _ => exact absurd (leveled.found found).1 closed
  | item found _ _ _ _ _ => exact absurd (leveled.found found).1 closed

theorem closed_levels : ¬ TakesMembers .dir ∧ ¬ TakesMembers .field ∧
    ¬ TakesMembers .arrayItemAsField := by
  refine ⟨?_, ?_, ?_⟩ <;> rintro (h | h | h) <;> cases h

/-- What the segments on the way have in common with the search. -/
structure ReadsThrough (n m : Node) (segms left : List Segment) (path : Path)
    (before : List Segment) : Prop where
  split : segms = before ++ left
  key : readKey (some n) segms = before ++ readKey (some m) left
  search : ∀ write, Keeps write m → ∀ tail, tail ≠ [] → ∀ retval dupvalue,
    rtSearchLoop retval (n.modifyAt write path).nextScope dupvalue (before ++ tail) =
      rtSearchLoop retval (write m).nextScope dupvalue tail

/-- A step by name in front. -/
theorem readsThrough_scope {n c m : Node} {segm : Segment} {rest left before : List Segment}
    {path : Path} (found : n.follow (.scope (fold segm.name)) = some c)
    (there : c.getAt path = some m) (plain : segm.index ≠ jaSymAdd)
    (level : c.info.jsl = .dir ∨ c.info.jsl = .archive ∨
      (c.info.jsl = .logicScope ∧ segm.jsl = .logicScope))
    (h : ReadsThrough c m rest left path before) :
    ReadsThrough n m (segm :: rest) left (.scope (fold segm.name) :: path) (segm :: before) where
  split := by rw [h.split, List.cons_append]
  key := by
    have notArray : c.info.jsl ≠ .array := by
      rcases level with level | level | ⟨level, _⟩ <;> rw [level] <;> exact nofun
    simp only [readKey, Option.bind_some, found, if_neg plain, if_neg notArray, h.key,
      List.cons_append]
  search := by
    intro write keeps tail more retval dupvalue
    obtain ⟨step, jsl⟩ := follow_write found there keeps
    rw [List.cons_append, rtSearchLoop_pass step (by rwa [jsl]) (by simp [more])]
    exact h.search write keeps tail more retval dupvalue

/-- A step to an item in front. -/
theorem readsThrough_item {n c e m : Node} {segm : Segment} {rest left before : List Segment}
    {path : Path} {k : Nat} (found : n.follow (.scope (fold segm.name)) = some c)
    (level : c.info.jsl = .array) (level' : segm.jsl = .array)
    (place : placeOf c.info.arraysize segm.index = some k) (room : c.info.arraysize < jaSymLast)
    (entered : c.follow (.item k) = some e) (object : e.info.jsl = .arrayItem)
    (there : e.getAt path = some m) (h : ReadsThrough e m rest left path before) :
    ReadsThrough n m (segm :: rest) left (.scope (fold segm.name) :: .item k :: path)
      (segm :: before) where
  split := by rw [h.split, List.cons_append]
  key := by
    have plain := (placeOf_symbols place room).2.1
    simp only [readKey, Option.bind_some, found, if_neg plain, if_pos level, place, entered,
      h.key, List.cons_append]
  search := by
    intro write keeps tail more retval dupvalue
    have there' : c.getAt (.item k :: path) = some m := by
      rw [Node.getAt, entered]
      exact there
    obtain ⟨step, _⟩ := follow_write found there' keeps
    obtain ⟨step', jsl⟩ := follow_write entered there keeps
    have info : (c.modifyAt write (.item k :: path)).info = c.info := modifyAt_info
    rw [List.cons_append, rtSearchLoop_through step (by rwa [info]) level' (by rwa [info])
      (by rwa [info]) step' (by rwa [jsl]) (by simp [more])]
    exact h.search write keeps tail more retval dupvalue

/-- Below an archive the way of the reach is the way of the search. -/
theorem readsThrough_of_walks {n m : Node} {segms passed left : List Segment} {path : Path}
    (walk : Walks n segms path passed m left) (leveled : Leveled n) (below : Below segms)
    (more : left ≠ []) (opens : TakesMembers m.info.jsl) :
    ∃ before, ReadsThrough n m segms left path before ∧ Below left ∧ Leveled m := by
  induction walk with
  | stop n segms =>
    exact ⟨[], ⟨rfl, rfl, fun _ _ _ _ _ _ => rfl⟩, below, leveled⟩
  | @scope n c m segm rest passed left path found level level' further ih =>
    obtain ⟨_, member, leveledC⟩ := leveled.found found
    have scope : c.info.jsl = .logicScope := by
      rcases member with scope | field | array
      · exact scope
      · have closed : ¬ TakesMembers c.info.jsl := field ▸ closed_levels.2.1
        obtain rfl := walks_closed further leveledC closed
        exact absurd opens closed
      · exact absurd array level
    cases below with
    | field fits => cases further; exact absurd rfl more
    | array fits range => exact absurd rfl level'
    | item fits range single below => exact absurd rfl level'
    | scope fits below =>
      obtain ⟨before, through, below', leveledM⟩ := ih leveledC below more opens
      have plain : (-1 : Int) ≠ jaSymAdd := by decide
      have through' := readsThrough_scope found (getAt_of_walks further) plain
        (Or.inr (Or.inr ⟨scope, rfl⟩)) through
      exact ⟨_, through', below', leveledM⟩
  | @item n c e m segm rest passed left path k found level level' place entered further ih =>
    obtain ⟨_, _, leveledC⟩ := leveled.found found
    have mem : e ∈ c.array := List.mem_of_getElem? entered
    have leveledE := leveledC.items e mem
    have object : e.info.jsl = .arrayItem := by
      by_contra other
      have closed : ¬ TakesMembers e.info.jsl := by
        rcases leveledC.elements e mem with (item | leaf) | odd
        · exact absurd item other
        · exact leaf ▸ closed_levels.2.2
        · exact odd ▸ closed_levels.1
      obtain rfl := walks_closed further leveledE closed
      exact closed opens
    cases below with
    | field fits => cases level'
    | scope fits below => cases level'
    | array fits range => cases further; exact absurd rfl more
    | item fits range single below =>
      obtain ⟨before, through, below', leveledM⟩ := ih leveledE below more opens
      exact ⟨_, readsThrough_item found level level' place leveledC.room entered object
        (getAt_of_walks further) through, below', leveledM⟩

end Walking

section Appended

@[simp] theorem readKey_none (segm : Segment) (rest : List Segment) :
    readKey none (segm :: rest) =
      { segm with index := if segm.index = jaSymAdd then 0 else segm.index } ::
        readKey none rest := by
  simp [readKey]

theorem follow_inserted {n child : Node} (ord : Ordered Node.scopeKey n.nextScope)
    (missing : n.follow (.scope child.scopeKey) = none) :
    (insertScope n child).follow (.scope child.scopeKey) = some child := by
  rw [follow_insertScope ord, if_pos rfl, missing, Option.getD_none]

/-- The new item of an array is read at the size that the array had. -/
theorem read_addTo {valuestring : Bytes} {store : Store ν} {c : Node} {segm : Segment}
    {rest : List Segment} {tree : Avl Node} (level : c.info.jsl = .array)
    (size : c.info.arraysize = c.array.length) (room : c.info.arraysize < maxArySize)
    (level' : segm.jsl = .array) (index : segm.index = c.info.arraysize)
    (found : avlsearch Node.scopeKey tree (fold segm.name) =
      some (addTo valuestring store c rest).node)
    (later : rest ≠ [] → ∀ retval dupvalue, rtSearchLoop retval
      (rtAppend valuestring (rtAllocateArrayItem store c).1 (rtAllocateArrayItem store c).2
        rest).node.nextScope dupvalue (readKey none rest) = (0, valuestring))
    (retval : Int) (dupvalue : Bytes) :
    rtSearchLoop retval tree dupvalue (segm :: readKey none rest) = (0, valuestring) := by
  have symbol : maxArySize < jaSymLast := by decide
  have grown : ∀ item, placeOf (addItem c item).info.arraysize segm.index =
      some c.array.length ∧ (addItem c item).info.jsl = .array ∧
      (addItem c item).info.arraysize < jaSymLast ∧
      (addItem c item).follow (.item c.array.length) = some item := by
    intro item
    have count : (addItem c item).info.arraysize = c.info.arraysize + 1 := by simp [addItem]
    refine ⟨?_, by simp [addItem, level], by omega, by simp [addItem, Node.follow]⟩
    rw [placeOf, count, index, if_pos (by omega), size, Int.toNat_natCast]
  rw [addTo] at found
  split at found
  · rename_i last
    obtain ⟨place, array, small, entered⟩ := grown (rtAllocateArrayField store c valuestring).2
    rw [rtSearchLoop_enter found array level' place small entered, last]
    rfl
  · rename_i more
    obtain ⟨place, array, small, entered⟩ := grown (rtAppend valuestring
      (rtAllocateArrayItem store c).1 (rtAllocateArrayItem store c).2 rest).node
    have object : (rtAppend valuestring (rtAllocateArrayItem store c).1
        (rtAllocateArrayItem store c).2 rest).node.info.jsl = .arrayItem :=
      (rtAppend_kept ..).2.1
    rw [rtSearchLoop_enter found array level' place small entered, object]
    exact later more (-1) dupvalue

/-- An array is made with its first item. -/
theorem read_makeArray {valuestring : Bytes} {store : Store ν} {n : Node} {name : Bytes}
    {index : Int} {rest : List Segment} (ord : Ordered Node.scopeKey n.nextScope)
    (missing : n.follow (.scope (fold name)) = none)
    (first : index = 0 ∨ index = jaSymAdd)
    (ok : 0 ≤ (makeArray valuestring store n name index rest).retval)
    (later : rest ≠ [] → ∀ store item, Ordered Node.scopeKey item.nextScope →
      (∀ s, item.follow s = none) → item.info.jsl ≠ .array → item.info.arraysize = 0 →
      0 ≤ (rtAppend (ν := ν) valuestring store item rest).retval → ∀ retval dupvalue,
      rtSearchLoop retval (rtAppend valuestring store item rest).node.nextScope dupvalue
        (readKey none rest) = (0, valuestring))
    (retval : Int) (dupvalue : Bytes) :
    rtSearchLoop retval (makeArray valuestring store n name index rest).node.nextScope dupvalue
      (readKey none (⟨name, index, .array⟩ :: rest)) = (0, valuestring) := by
  rw [makeArray] at ok ⊢
  split at ok
  · rename_i canAppend
    have key : (addTo valuestring (rtAllocateArray store n name).1
        (rtAllocateArray store n name).2 rest).node.scopeKey = fold name := scopeKey_addTo ..
    have found := follow_inserted ord (key ▸ missing)
    rw [key] at found
    have zero : (if index = jaSymAdd then 0 else index) = (0 : Int) := by
      rcases first with rfl | rfl <;> simp
    rw [if_pos canAppend, readKey_none]
    have small : (rtAllocateArray store n name).2.info.arraysize < maxArySize :=
      (by decide : (0 : Int) < maxArySize)
    refine @read_addTo ν valuestring (rtAllocateArray store n name).1
      (rtAllocateArray store n name).2 _ rest _ rfl rfl small rfl zero ?_ ?_ retval dupvalue
    · exact found
    · intro more
      rw [addTo, if_neg more] at ok
      exact later more _ _ (ordered_nil _) (fun s => by cases s <;> rfl)
        (by decide : Jsl.arrayItem ≠ .array) rfl ok
  · cases ok

theorem rtAppend_newArray {valuestring : Bytes} {store : Store ν} {n : Node} {name : Bytes}
    {index : Int} {rest : List Segment} (level : n.info.jsl ≠ .array)
    (size : n.info.arraysize = 0)
    (ok : 0 ≤ (rtAppend valuestring store n (⟨name, index, .array⟩ :: rest)).retval) :
    (index = 0 ∨ index = jaSymAdd) ∧
      rtAppend valuestring store n (⟨name, index, .array⟩ :: rest) =
        makeArray valuestring store n name index rest := by
  rw [rtAppend_array] at ok ⊢
  split at ok
  · rename_i canAppend
    exact ⟨index_of_appendable canAppend size, by rw [if_pos canAppend, if_neg level]⟩
  · cases ok

/-- What `rt_append` makes below a node is found there, with the value. -/
theorem read_rtAppend {valuestring : Bytes} {store : Store ν} {n : Node} {segms : List Segment}
    (below : Below segms) (ord : Ordered Node.scopeKey n.nextScope)
    (missing : ∀ segm ∈ segms.head?, n.follow (.scope (fold segm.name)) = none)
    (level : n.info.jsl ≠ .array) (size : n.info.arraysize = 0)
    (ok : 0 ≤ (rtAppend valuestring store n segms).retval) (retval : Int) (dupvalue : Bytes) :
    rtSearchLoop retval (rtAppend valuestring store n segms).node.nextScope dupvalue
      (readKey none segms) = (0, valuestring) := by
  induction below generalizing store n retval dupvalue with
  | @field name fits =>
    rw [rtAppend_field, readKey_none]
    have found := @follow_inserted n (rtAllocateField store n name valuestring).2 ord
      (missing _ rfl)
    have search : searchScope (insertScope n (rtAllocateField store n name valuestring).2).nextScope
        name = some (rtAllocateField store n name valuestring).2 := found
    rw [rtSearchLoop, search]
    rfl
  | @scope name rest fits below ih =>
    rw [rtAppend_scope] at ok ⊢
    have key : (rtAppend valuestring (rtAllocateLogicScope store n name).1
        (rtAllocateLogicScope store n name).2 rest).node.scopeKey = fold name :=
      scopeKey_rtAppend ..
    have found := follow_inserted ord (key ▸ missing _ rfl)
    rw [key] at found
    have scope : (rtAppend valuestring (rtAllocateLogicScope store n name).1
        (rtAllocateLogicScope store n name).2 rest).node.info.jsl = .logicScope :=
      (rtAppend_kept ..).2.1
    rw [readKey_none]
    apply Eq.trans (rtSearchLoop_pass ?_ (Or.inr (Or.inr ⟨scope, rfl⟩))
      (readKey_ne_nil below.ne_nil) retval dupvalue)
    · have level : (rtAllocateLogicScope store n name).2.info.jsl ≠ .array :=
        (by decide : Jsl.logicScope ≠ .array)
      exact ih (ordered_nil _) (fun _ _ => rfl) level rfl ok retval dupvalue
    · exact found
  | @array name index fits range =>
    obtain ⟨first, made⟩ := rtAppend_newArray level size ok
    rw [made] at ok ⊢
    exact read_makeArray ord (missing _ rfl) first ok (fun more => absurd rfl more) retval dupvalue
  | @item name index rest fits range single below ih =>
    obtain ⟨first, made⟩ := rtAppend_newArray level size ok
    rw [made] at ok ⊢
    refine read_makeArray ord (missing _ rfl) first ok ?_ retval dupvalue
    intro _ store item ord nowhere level size ok retval dupvalue
    exact ih ord (fun _ _ => nowhere _) level size ok retval dupvalue

/-- So is what it makes below an archive that it makes first. -/
theorem read_newArchive {valuestring : Bytes} {store : Store ν} {node : Node} {name : Bytes}
    {rest : List Segment} (below : Below rest) (ord : Ordered Node.scopeKey node.nextScope)
    (missing : node.follow (.scope (fold name)) = none) (noDot : dot ∉ name)
    (ok : 0 ≤ (rtAppend valuestring store node (⟨name, -1, .archive⟩ :: rest)).retval)
    (retval : Int) (dupvalue : Bytes) :
    rtSearchLoop retval
      (rtAppend valuestring store node (⟨name, -1, .archive⟩ :: rest)).node.nextScope
      dupvalue (readKey none (⟨name, -1, .archive⟩ :: rest)) = (0, valuestring) := by
  rw [rtAppend_archive] at ok ⊢
  split at ok
  · cases ok
  · split at ok
    · cases ok
    · rename_i archive made
      obtain ⟨named, level, empty, _, size, _⟩ := archiveNode_spec noDot made
      simp only [makeArchive] at ok ⊢
      generalize hfile : archive.setInfo _ = file at ok ⊢
      have info : file.scopeKey = fold name ∧ file.info.jsl = .archive ∧ file.nextScope = .nil ∧
          file.info.arraysize = 0 := by
        subst hfile
        simp [Node.scopeKey, named, level, empty, size]
      obtain ⟨key, level, empty, size⟩ := info
      have notArray : file.info.jsl ≠ .array := by simp [level]
      have made : ∀ store : Store ν,
          avlsearch Node.scopeKey
            (insertScope node (rtAppend valuestring store file rest).node).nextScope (fold name) =
              some (rtAppend valuestring store file rest).node ∧
          (rtAppend valuestring store file rest).node.info.jsl = .archive := by
        intro store
        have key' := (scopeKey_rtAppend valuestring store file rest).trans key
        have found := follow_inserted ord (key' ▸ missing)
        rw [key'] at found
        exact ⟨found, (rtAppend_kept valuestring store file rest).2.1.trans level⟩
      rw [readKey_none]
      apply Eq.trans (rtSearchLoop_pass (made _).1 (Or.inr (Or.inl (made _).2))
        (readKey_ne_nil below.ne_nil) retval dupvalue)
      refine read_rtAppend below ?_ (fun _ _ => ?_) notArray size ok retval dupvalue
      · rw [empty]
        exact ordered_nil _
      · rw [Node.follow, empty]
        rfl

end Appended

end ReadBack
