import Cfgd.LoadedTree
import Cfgd.Publish
import Cfgd.WriteEffects

/-!
# When subscribers are told

`pro_variable_write` calls `jnet_publish` when the update has answered 0. That is so when
the document of the archive has changed, and in one more case: a number was written with
another text, which the document does not show.
-/

namespace CJson.Item

variable {ν : Type}

mutual
/-- What an item says, without where it is. -/
def bare : Item ν → Item ν
  | mk _ string kind child => mk 0 string kind (bareList child)
def bareList : List (Item ν) → List (Item ν)
  | [] => []
  | c :: rest => c.bare :: bareList rest
end

theorem bareList_eq (l : List (Item ν)) : bareList l = l.map bare := by
  induction l with
  | nil => rfl
  | cons c rest ih => rw [bareList, ih, List.map_cons]

theorem bare_eq (j : Item ν) : j.bare = mk 0 j.string j.kind (j.child.map bare) := by
  cases j
  rw [bare, bareList_eq]
  rfl

@[simp] theorem kind_bare (j : Item ν) : j.bare.kind = j.kind := by
  rw [bare_eq, kind_mk]

theorem child_of_bare {j j' : Item ν} (same : j'.bare = j.bare) :
    j'.child.map bare = j.child.map bare := by
  rw [bare_eq, bare_eq] at same
  exact (mk.inj same).2.2.2

end CJson.Item

namespace ChangeNotice

open AvlTree CText CJson Item Request ConfigNode Loader FsImage Runtime DocTree DeleteRange
open KeyShape Reach UpdateCases HeapEdit RegularTree Levels Backing SideBySide WriteEffects
open Catalog Orders Publish ReadBack

variable {ν : Type} [DoubleText ν]

section Documents
variable {D x y f z : Item ν} {g : List (Item ν) → List (Item ν)}

omit [DoubleText ν] in
/-- A change of the children of one item shows in the document. -/
theorem bare_update (nodup : D.addrs.Nodup) (inside : x ∈ D.items)
    (same : (D.update x.addr (setChild g)).bare = D.bare) : (x.setChild g).bare = x.bare := by
  induction D using Item.induct with
  | step D ih =>
    rw [addrs_eq, List.nodup_cons] at nodup
    rw [items_eq, List.mem_cons] at inside
    rcases inside with rfl | below
    · rwa [update_here] at same
    · obtain ⟨c, child, deep⟩ := List.mem_flatMap.mp below
      have apart : D.addr ≠ x.addr := by
        intro here
        refine nodup.1 (List.mem_flatMap.mpr ⟨c, child, ?_⟩)
        rw [here]
        exact items_addrs deep
      rw [update_below apart] at same
      have children := child_of_bare same
      rw [child_setChild, List.map_map] at children
      exact ih c child ((List.nodup_flatMap.mp nodup.2).1 c child) deep
        (List.map_inj_left.mp children c child)

omit [DoubleText ν] in
/-- A document with another number of children of one item is another document. -/
theorem bare_update_length (nodup : D.addrs.Nodup) (inside : x ∈ D.items)
    (other : (g x.child).length ≠ x.child.length) :
    (D.update x.addr (setChild g)).bare ≠ D.bare := by
  intro same
  have children := child_of_bare (bare_update nodup inside same)
  rw [child_setChild] at children
  have lengths := congrArg List.length children
  rw [List.length_map, List.length_map] at lengths
  exact other lengths

omit [DoubleText ν] in
/-- With different names, the first member of a name is the only one. -/
theorem seat_unique {before after : List (Item ν)} {s : Step} (apart : NamesApart x.child)
    (split : x.child = before ++ f :: after) (place : At s before f) (seat : Seat x s z) :
    f = z := by
  cases s with
  | item i =>
    have there := seat.1
    rw [split, List.getElem?_append_right (Nat.le_of_eq place.1), place.1, Nat.sub_self] at there
    exact Option.some.inj there
  | scope key =>
    have named : ∀ y : Item ν, y.string.map fold = some key → y.string.isSome := by
      intro y same
      rw [← Option.isSome_map (f := fold), same]
      rfl
    have same : f.string.map fold = z.string.map fold := place.trans seat.2.symm
    rw [split, NamesApart, List.pairwise_append, List.pairwise_cons] at apart
    have mem := seat.1
    rw [split, List.mem_append, List.mem_cons] at mem
    rcases mem with early | rfl | late
    · exact absurd same.symm (apart.2.2 z early f (List.mem_cons_self ..) (named f place))
    · rfl
    · exact absurd same (apart.2.1.1 z late (named z seat.2))

end Documents

section Reading
variable {n m c : Node} {segms passed left : List Segment} {path : Path}

/-- An index leads to every item of the array, and every item can be entered or read. -/
def Readable (c : Node) : Prop :=
  c.info.arraysize < jaSymLast ∧ ∀ k e, c.follow (.item k) = some e → IsItem e

theorem ne_nil_of_walks (walk : Walks n segms path passed m left) (more : left ≠ []) :
    segms ≠ [] := by
  rintro rfl
  exact more (List.suffix_nil.mp (suffix_of_walks walk))

/-- Reading a key that goes on after the way was gone: it fails before, or goes on there. -/
theorem search_walks (walk : Walks n segms path passed m left) (more : left ≠ [])
    (arrays : ∀ q c, n.getAt q = some c → c.info.jsl = .array → Readable c) (retval : Int)
    (dupvalue : Bytes) : (rtSearchLoop retval n.nextScope dupvalue segms).1 ≠ 0 ∨
      ∃ r, rtSearchLoop retval n.nextScope dupvalue segms =
        rtSearchLoop r m.nextScope dupvalue left := by
  have failed : ∀ v : Bytes, ((-1 : Int), v).1 ≠ 0 := fun _ => Int.neg_ne_zero.mpr Int.one_ne_zero
  induction walk generalizing retval with
  | stop n segms => exact Or.inr ⟨retval, rfl⟩
  | @scope n c m segm rest passed left path found level level' further ih =>
    have rest' := ne_nil_of_walks further more
    have below := ih more (fun q x hx => arrays (.scope (fold segm.name) :: q) x
      (by rw [Node.getAt, found]; exact hx))
    have here : searchScope n.nextScope segm.name = some c := found
    rw [rtSearchLoop, here]
    dsimp only
    split
    · split
      · exact Or.inl (failed _)
      · exact below 0
    · rw [if_neg rest']
      exact below 0
    · rw [if_neg rest']
      exact below 0
    · rw [if_neg fun both => rest' both.1]
      exact Or.inl (failed _)
    · exact absurd ‹c.info.jsl = .array› level
    · exact Or.inl (failed _)
  | @item n c e m segm rest passed left path k found level level' place entered further ih =>
    have rest' := ne_nil_of_walks further more
    have step : n.getAt [.scope (fold segm.name)] = some c := by rw [getAt_one, found]
    obtain ⟨room, items⟩ := arrays _ c step level
    have below := ih more (fun q x hx => arrays (.scope (fold segm.name) :: .item k :: q) x
      (by rw [Node.getAt, found, Option.bind_some, Node.getAt, entered]; exact hx))
    rw [rtSearchLoop_enter found level level' place room entered]
    rcases items k e entered with object | leaf
    · simp only [object]
      exact below (-1)
    · simp only [leaf, if_neg rest']
      exact Or.inl (failed e.info.scopeValue)

/-- An index that leads to no item reads nothing, apart from the one that asks for the size. -/
theorem rtSearchLoop_nowhere {tree : Avl Node} {segm : Segment} {rest : List Segment}
    (found : avlsearch Node.scopeKey tree (fold segm.name) = some c) (level : c.info.jsl = .array)
    (room : c.info.arraysize < jaSymLast) (place : placeOf c.info.arraysize segm.index = none)
    (notSize : segm.index ≠ jaSymQuerySize) (retval : Int) (dupvalue : Bytes) :
    rtSearchLoop retval tree dupvalue (segm :: rest) = (-1, dupvalue) := by
  have search : searchScope tree segm.name = some c := found
  have nowhere : searchItem c segm.index = none := by
    rw [DeleteLaw.searchItem_place room, place]
    rfl
  rw [rtSearchLoop, search]
  simp only [level, nowhere, if_neg notSize, ite_self]

/-- A node two steps or more below the root lies in an archive. -/
theorem below_archive {q : Path} (regular : Regular 0 n) (there : n.getAt q = some c)
    (deep : 2 ≤ q.length) : ∃ d a q', q = archiveAt d a ++ q' := by
  have scope : ∀ {depth : Nat} {m x : Node} {s : Step}, Regular depth m → depth < 2 →
      m.follow s = some x → ∃ key, s = .scope key := by
    intro depth m x s own short found
    cases s with
    | scope key => exact ⟨key, rfl⟩
    | item i =>
      have dir : m.info.jsl = .dir := by
        have stands := own.here.stands
        obtain rfl | rfl : depth = 0 ∨ depth = 1 := by omega
        · exact stands
        · exact stands
      have none : m.array = [] := own.here.noItems (by simp [dir])
      rw [Node.follow, none] at found
      cases found
  obtain ⟨s₁, s₂, q', rfl⟩ : ∃ s₁ s₂ q', q = s₁ :: s₂ :: q' := by
    rcases q with _ | ⟨s₁, _ | ⟨s₂, q'⟩⟩
    · cases deep
    · simp at deep
    · exact ⟨s₁, s₂, q', rfl⟩
  rw [Node.getAt] at there
  obtain ⟨dir, first, there⟩ := Option.bind_eq_some_iff.mp there
  rw [Node.getAt] at there
  obtain ⟨archive, second, _⟩ := Option.bind_eq_some_iff.mp there
  obtain ⟨d, rfl⟩ := scope regular (by decide) first
  obtain ⟨a, rfl⟩ := scope (regular.follow first) (by decide) second
  exact ⟨d, a, q', rfl⟩

end Reading

/-- A tree as the loader and the requests keep it, over documents as they should be. -/
structure WellKept (full : Bytes → Bytes → Prop) (world : World ν) : Prop where
  backed : Backed full world
  tidy : ∀ d a D, documentOf world d a = some D → Tidy D

section Stored
variable {world : World ν} {full : Bytes → Bytes → Prop} {jrp q : Jrp} {v d a : Bytes} {c : Node}
variable {u : Updated ν}

theorem readable (h : WellKept full world) {p : Path}
    (there : (rootNode world.root).getAt p = some c) (level : c.info.jsl = .array) :
    Readable c := by
  have deep : 2 ≤ p.length := by
    by_contra short
    have stands := (regular_at h.backed.regular there).here.stands
    rw [level] at stands
    match hp : p.length, stands with
    | 0, stands => cases stands
    | 1, stands => cases stands
    | n + 2, _ => omega
  obtain ⟨d, a, p', rfl⟩ := below_archive h.backed.regular there deep
  obtain ⟨D, x, stands, _⟩ := h.backed.edit there
  refine ⟨stands.overlay.here.room, fun k e entered => ?_⟩
  obtain ⟨z, seat, tells, _⟩ := stands.overlay.down entered
  have other := (h.tidy d a D (documentOf_stands h.backed stands)).elements x stands.inside z
    seat.child seat.2
  rw [IsItem, tells.jsl]
  rcases itemJsl_unnamed seat.2 with same | same | same
  · exact Or.inl same
  · exact Or.inr same
  · exact absurd same other

/-- The value that a read of the key answers is not written again. -/
theorem stored_settles (h : WellKept full world) (accepted : AcceptedKey jrp.segm)
    (value : jrp.valuestring = some v) (keep : v ≠ keywordDeleted) (same : q.segm = jrp.segm)
    (read : rtSearch world.root q = (0, v)) (done : rtConfigUpdate world jrp = some u) :
    u.retval ≠ 0 := by
  have failed : (-1 : Int) ≠ 0 := Int.neg_ne_zero.mpr Int.one_ne_zero
  -- where the way of the key is gone with segments left, the read goes on there
  have further : ∀ {path : Path} {passed left : List Segment} {m : Node},
      Walks (rootNode world.root) jrp.segm path passed m left → left ≠ [] →
      ∃ r, rtSearchLoop r m.nextScope q.dupvalue left = (0, v) := by
    intro path passed left m walk more
    rw [rtSearch, same] at read
    rcases search_walks walk more (fun _ c there level => readable h there level) 0 q.dupvalue with
      stopped | ⟨r, goesOn⟩
    · refine absurd ?_ stopped
      exact congrArg Prod.fst read
    · exact ⟨r, goesOn.symm.trans read⟩
  cases update_cases h.backed.regular.built accepted value done with
  | refused archive => exact failed
  | delete walk found target keyword => exact absurd keyword keep
  | @field path passed n c segm walk found level level' _ archive =>
    obtain ⟨r, goesOn⟩ := further walk (List.cons_ne_nil _ _)
    have here : searchScope n.nextScope segm.name = some c := found
    rw [rtSearchLoop, here] at goesOn
    simp only [level] at goesOn
    exact rtFieldUpdate_same world.store v level (Prod.mk.inj goesOn).2
  | @item path passed n c segm walk found level level' place _ archive =>
    obtain ⟨r, goesOn⟩ := further walk (List.cons_ne_nil _ _)
    have there := getAt_member walk found
    obtain ⟨room, items⟩ := readable h there level
    have size := (regular_at h.backed.regular there).here.size
    rcases place with ⟨k, place⟩ | entire
    · obtain ⟨e, entered⟩ := placeOf_entered size place
      rw [rtSearchLoop_enter found level level' place room entered] at goesOn
      refine rtArrayFieldUpdate_same world.store v place entered level ?_
      rcases items k e entered with object | leaf
      · simp only [object, rtSearchLoop] at goesOn
        exact absurd (Prod.mk.inj goesOn).1 failed
      · simp only [leaf] at goesOn
        exact (Prod.mk.inj goesOn).2
    · have symbols : jaSymLast < jaSymEntire ∧ jaSymEntire ≠ jaSymQuerySize := by decide
      have nowhere : placeOf c.info.arraysize segm.index = none := by
        rw [placeOf, if_neg (by omega), if_neg (by omega)]
      rw [rtSearchLoop_nowhere found level room nowhere (by omega)] at goesOn
      exact absurd (Prod.mk.inj goesOn).1 failed
  | @missing path passed rest m segm walk started missing level noFile _ archive =>
    obtain ⟨r, goesOn⟩ := further walk (List.cons_ne_nil _ _)
    have here : searchScope m.nextScope segm.name = none := missing
    rw [rtSearchLoop, here] at goesOn
    exact absurd (Prod.mk.inj goesOn).1 failed
  | @extend path passed rest m c segm walk found level level' next _ archive =>
    obtain ⟨r, goesOn⟩ := further walk (List.cons_ne_nil _ _)
    have there := getAt_member walk found
    obtain ⟨room, _⟩ := readable h there level
    obtain ⟨nowhere, notSize⟩ := WriteThenRead.placeOf_next room next
    rw [rtSearchLoop_nowhere found level room nowhere notSize] at goesOn
    exact absurd (Prod.mk.inj goesOn).1 failed

end Stored

section Effects
variable (world world' : World ν) (d a v : Bytes)

/-- The document of the archive says something else, or the archive was made or removed. -/
def Changed : Prop :=
  (documentOf world' d a).map bare ≠ (documentOf world d a).map bare ∨
    ((rootNode world'.root).getAt (archiveAt d a)).isSome ≠
      ((rootNode world.root).getAt (archiveAt d a)).isSome

/-- A number in the archive got another text, for the same number. -/
def Retexted : Prop :=
  ∃ q c c' r, (rootNode world.root).getAt (archiveAt d a ++ q) = some c ∧
    (rootNode world'.root).getAt (archiveAt d a ++ q) = some c' ∧
    (c.info.jsonptr.bind world.store.heap.deref).map Item.kind = some (.cjsonNumber r) ∧
    DoubleText.atof v = r ∧ c.info.scopeValue ≠ v ∧ c'.info.scopeValue = v

variable {world world' d a v}

omit [DoubleText ν] in
theorem inHeap_of_document {D x : Item ν} (document : documentOf world d a = some D)
    (inside : x ∈ D.items) : x ∈ world.store.heap.roots.flatMap items := by
  obtain ⟨archive, _, pointer⟩ := Option.bind_eq_some_iff.mp document
  obtain ⟨ptr, _, found⟩ := Option.bind_eq_some_iff.mp pointer
  obtain ⟨root, mem, below⟩ := List.mem_flatMap.mp (List.mem_of_find?_eq_some found)
  exact List.mem_flatMap.mpr ⟨root, mem, items_trans below inside⟩

/-- What an update that answers 0 has done. -/
theorem changed_of_effect {full : Bytes → Bytes → Prop} (h : WellKept full world) {retval : Int}
    (effect : DocEffect world d a v world' retval) (zero : retval = 0)
    (short : v.length < maxValueSize) : Changed world world' d a ∨ Retexted world world' d a v := by
  have rewritten : ∀ {D x : Item ν} {g : List (Item ν) → List (Item ν)},
      Rewrites world d a world' D x g → (D.update x.addr (setChild g)).bare ≠ D.bare →
      Changed world world' d a := by
    intro D x g rewrites other
    refine Or.inl fun same => other ?_
    rw [rewrites.before, rewrites.after] at same
    exact Option.some.inj same
  cases effect with
  | settled other => exact absurd zero other
  | @value D x y z f before after p s c rewrites split place seat there tells ptr kind other
    there' =>
    have tidy := h.tidy d a D rewrites.before
    obtain rfl := seat_unique (tidy.names x rewrites.inside) split place seat
    by_cases same : (D.update x.addr (setChild fun _ => before ++ y :: after)).bare = D.bare
    · have children := child_of_bare (bare_update rewrites.nodup rewrites.inside same)
      rw [child_setChild, split, List.map_append, List.map_append, List.map_cons, List.map_cons]
        at children
      have equal := (List.cons.inj (List.append_cancel_left children)).1
      have kinds : y.kind = f.kind := by rw [← kind_bare y, equal, kind_bare]
      rw [kinds] at kind
      generalize hk : f.kind = k at kind
      cases kind with
      | string =>
        refine absurd ?_ other
        rw [tells.text v hk, valueText, hk]
        exact PlainDoc.limitValue_short short
      | number =>
        refine Or.inr ⟨p ++ [s], c, _, _, there, there', ?_, rfl, other, ?_⟩
        · have inHeap := inHeap_of_document rewrites.before
            (items_trans rewrites.inside (mem_items_of_child seat.child (self_mem_items f)))
          rw [ptr, Option.bind_some, deref_of_mem h.backed.separate inHeap, Option.map_some, hk]
        · rw [setValue, Node.info_setInfo]
    · exact Or.inl (rewritten rewrites same)
  | @grown D x y rewrites =>
    refine Or.inl (rewritten rewrites (bare_update_length rewrites.nodup rewrites.inside ?_))
    rw [List.length_append]
    exact Nat.succ_ne_self _
  | cut rewrites fewer =>
    exact Or.inl (rewritten rewrites
      (bare_update_length rewrites.nodup rewrites.inside (Nat.ne_of_lt fewer)))
  | made before after =>
    refine Or.inl (Or.inr ?_)
    simp [before, Option.isSome_iff_ne_none.mpr after]
  | removed before after =>
    refine Or.inl (Or.inr ?_)
    simp [after, Option.isSome_iff_ne_none.mpr before]

theorem not_changed_self : ¬ (Changed world world d a ∨ Retexted world world d a v) := by
  rintro ((doc | archive) | ⟨q, c, c', r, there, there', _, _, other, same⟩)
  · exact doc rfl
  · exact archive rfl
  · obtain rfl := Option.some.inj (there.symm.trans there')
    exact other same

end Effects

section Answers
variable (print : Item ν → Bytes) (world : World ν) (jrp : Jrp) (clients : List Client)

/-- `pro_variable_write` to its end: the answer, and what is written to the links when
`jnet_publish` is called. -/
def writeAndPublish : Option (Answered ν × Option (List (Nat × Bytes))) :=
  if jrp.dupvalue = [] ∨ jrp.valuestring = none then some (⟨world, false, false⟩, none)
  else (rtConfigUpdate world jrp).map fun updated =>
    if updated.retval < 0 then (⟨updated.world, false, false⟩, none)
    else if updated.retval = 0 ∧ ¬ inProc jrp then
      (saveArchive print updated.world updated.archive, some (jnetPublish jrp clients))
    else (⟨updated.world, true, false⟩, none)

/-- Telling the subscribers is the last thing that is done, and changes nothing. -/
theorem writeAndPublish_answer :
    (writeAndPublish print world jrp clients).map Prod.fst = proVariableWrite print world jrp := by
  rw [writeAndPublish, proVariableWrite]
  split
  · rfl
  · rw [Option.map_map]
    congr 1
    funext updated
    simp only [Function.comp_apply]
    split
    · rfl
    · split <;> rfl

variable {print world jrp clients}

/-- When and how the subscribers are told of a write to the archive with these keys. -/
structure Notified (print : Item ν → Bytes) (world : World ν) (jrp : Jrp) (v : Bytes)
    (clients : List Client) (d a : Bytes) (after : Answered ν)
    (sent : Option (List (Nat × Bytes))) : Prop where
  told : sent.isSome ↔ Changed world after.world d a ∨ Retexted world after.world d a v
  saved : ∀ messages, sent = some messages → messages = jnetPublish jrp clients ∧
    ∃ u, rtConfigUpdate world jrp = some u ∧ after = saveArchive print u.world u.archive
  quiet : sent = none → after.world = world ∧ after.sync = false
  stored : ∀ q, q.segm = jrp.segm → rtSearch world.root q = (0, v) → v ≠ keywordDeleted →
    sent = none

/-- A write outside of `proc` that is answered with success tells the subscribers exactly
if the document or the archive has changed, or a number has got another text. -/
theorem notified_iff_changed {full : Bytes → Bytes → Prop} (h : WellKept full world)
    (received : Received jrp) (outside : inProc jrp = false) {after : Answered ν}
    {sent : Option (List (Nat × Bytes))}
    (done : writeAndPublish print world jrp clients = some (after, sent)) (ok : after.ok = true) :
    ∃ d a v, (jrp.segm.map Segment.name).take 2 = [d, a] ∧ jrp.valuestring = some v ∧
      Notified print world jrp v clients (fold d) (fold a) after sent := by
  have accepted := received.accepted
  have noDot := received.noDot
  have regular := h.backed.regular
  rw [writeAndPublish] at done
  split at done
  · obtain ⟨rfl, _⟩ := Prod.mk.inj (Option.some.inj done)
    cases ok
  rename_i usable
  obtain ⟨v, value⟩ := Option.ne_none_iff_exists'.mp (not_or.mp usable).2
  have short : v.length < maxValueSize := by
    obtain ⟨payload, parsed⟩ := received
    exact ((acceptedKey_of_rtCreateJrp parsed).2 v value).2.2
  obtain ⟨u, updated, answered⟩ := Option.map_eq_some_iff.mp done
  split at answered
  · obtain ⟨rfl, _⟩ := Prod.mk.inj answered
    cases ok
  rename_i positive
  have answer : 0 ≤ u.retval := Int.not_lt.mp positive
  obtain ⟨d, a, rest, key⟩ : ∃ d a rest,
      jrp.segm = ⟨d, -1, .dir⟩ :: ⟨a, -1, .archive⟩ :: rest := by
    generalize hs : jrp.segm = segms at accepted
    cases accepted with
    | @dir d fits =>
      exact absurd (dir_refused regular hs (hs ▸ .dir fits) value updated).1 positive
    | archive fits fits' => exact ⟨_, _, _, rfl⟩
    | below fits fits' below => exact ⟨_, _, _, rfl⟩
  refine ⟨d, a, v, by rw [key]; rfl, value, ?_⟩
  by_cases zero : u.retval = 0
  · rw [if_pos ⟨zero, by rw [outside]; exact Bool.false_ne_true⟩] at answered
    obtain ⟨rfl, rfl⟩ := Prod.mk.inj answered
    have mem : ⟨a, -1, .archive⟩ ∈ jrp.segm := by
      rw [key]
      exact List.mem_cons_of_mem _ (List.mem_cons_self ..)
    have effect := (update_effect h.backed (h.tidy _ _) accepted key (noDot _ mem) value short
      updated).2
    have changed := changed_of_effect h effect zero short
    refine ⟨iff_of_true rfl ?_, ?_, nofun, ?_⟩
    · rw [saveArchive]
      split
      · exact changed
      · exact changed
    · rintro messages ⟨⟩
      exact ⟨rfl, u, updated, rfl⟩
    · intro q same read keep
      exact absurd zero (stored_settles h accepted value keep same read updated)
  · rw [if_neg fun both => zero both.1] at answered
    obtain ⟨rfl, rfl⟩ := Prod.mk.inj answered
    obtain ⟨tree, store⟩ := Saving.settled regular accepted updated answer zero
    have root : u.world.root = world.root := congrArg Node.nextScope tree
    have same : u.world = world := congrArg₂ World.mk root store
    refine ⟨iff_of_false nofun ?_, nofun, fun _ => ⟨same, rfl⟩, fun _ _ _ _ => rfl⟩
    dsimp only
    rw [same]
    exact not_changed_self

end Answers

open Transition ItemNumbers LoadedTree PlainDoc SearchSound

section Runs
variable {world world' : World ν} {images : List (DirImage ν)} {store : Store ν}

theorem wellKept_of_full (h : Backed (fun _ _ => True) world) :
    WellKept (fun _ _ => True) world :=
  ⟨h, fun _ _ _ document => tidy_of_backed h trivial document⟩

theorem backed_writeStep (print : Item ν → Bytes) {payload : Bytes}
    (h : Backed (fun _ _ => True) world) (done : writeStep print world payload = some world') :
    Backed (fun _ _ => True) world' := by
  rw [writeStep] at done
  split at done
  · obtain rfl := Option.some.inj done
    exact h
  · rename_i jrp parsed
    obtain ⟨answered, served, rfl⟩ := Option.map_eq_some_iff.mp done
    rw [proVariableWrite] at served
    split at served
    · obtain rfl := Option.some.inj served
      exact h
    · obtain ⟨u, updated, rfl⟩ := Option.map_eq_some_iff.mp served
      have after := backed_update h ⟨payload, parsed⟩ updated
      split
      · exact after
      · split
        · rw [saveArchive]
          split
          · exact after
          · exact backed_congr after rfl rfl
        · exact after

/-- A tree that was loaded from documents without leaving anything out is well kept in every
run of write requests. -/
theorem always_wellKept (print : Item ν → Bytes) (loaded : LoadedFrom True images store)
    (payloads : List Bytes) : Always (writeStep print) (WellKept fun _ _ => True)
      ⟨loadedRoot images, store⟩ payloads :=
  always_mono (fun _ h => wellKept_of_full h)
    (always_of_kept (fun _ _ _ h done => backed_writeStep print h done) (backed_loaded loaded)
      payloads)

end Runs

section OneNumber

/-- `{"x":1}` -/
def numberDocument : Item Nat :=
  .mk 1 none .cjsonObject [.mk 2 (some (ofChars ['x'])) (.cjsonNumber 1) []]

def numberStore : Store Nat :=
  ⟨⟨[numberDocument], 8⟩, .zero, [], []⟩

/-- `d.a.x=1` -/
def numberPayload : Bytes := ofChars ['d', '.', 'a', '.', 'x', '=', '1']

theorem number_loaded : LoadedFrom True (oneArchive numberDocument) numberStore := by
  have single : ∀ {P : Item Nat → Prop}, P numberDocument →
      ∀ dir ∈ oneArchive numberDocument, ∀ image ∈ dir.archives, P image.document := by
    intro P h dir hd image hi
    obtain rfl := List.mem_singleton.mp hd
    obtain rfl := List.mem_singleton.mp hi
    exact h
  have inside : ∀ {P : Item Nat → Prop}, P numberDocument →
      P (.mk 2 (some (ofChars ['x'])) (.cjsonNumber 1) []) → ∀ x ∈ numberDocument.items, P x := by
    intro P top member x hx
    rcases List.mem_cons.mp hx with rfl | hx
    · exact top
    · obtain rfl := List.mem_singleton.mp hx
      exact member
  have addresses : numberStore.heap.roots.flatMap addrs = [1, 2] := rfl
  refine ⟨⟨⟨?_, ?_⟩, single (List.mem_singleton.mpr rfl), @single ArraysFit ?_⟩,
    @single (fun document => document.string = none) rfl,
    @single (fun document => document.kind = .cjsonObject) rfl, single ⟨?_, ?_, ?_, fun _ => ?_⟩,
    by decide +kernel, by decide +kernel⟩
  · rw [addresses]
    decide
  · rw [addresses]
    decide
  · have fits : ∀ x ∈ numberDocument.items,
        (x.child.length : Int) < jaSymLast ∧ ∀ name ∈ x.string, name.length < maxPreSegSize := by
      decide
    exact fun x hx _ => fits x hx
  · refine .object (by simp) fun c hc => ?_
    obtain rfl := List.mem_singleton.mp hc
    exact .leaf nofun nofun
  · exact inside ⟨by decide, nofun⟩ ⟨by decide, nofun⟩
  · refine inside ?_ nofun
    intro c hc name named
    obtain rfl := List.mem_singleton.mp hc
    obtain rfl := Option.some.inj named
    exact legalName_iff.mpr (by decide +kernel)
  · refine inside ⟨fun _ => List.pairwise_singleton .., ?_⟩ ⟨nofun, nofun⟩
    intro c hc
    obtain rfl := List.mem_singleton.mp hc
    nofun

abbrev numberWorld : World Nat := ⟨loadedRoot (oneArchive numberDocument), numberStore⟩

def numberText : Item Nat → Bytes := cjsonPrintUnformatted fun n => printInt n

def numberJrp : Jrp where
  segm := [⟨ofChars ['d'], -1, .dir⟩, ⟨ofChars ['a'], -1, .archive⟩, ⟨ofChars ['x'], -1, .field⟩]
  valuestring := some (ofChars ['1'])
  dupkey := ofChars ['d', '.', 'a', '.', 'x']
  dupvalue := ofChars ['1']

theorem number_received : rtCreateJrp numberPayload = some numberJrp := by
  decide +kernel

/-- The document is `{"x":1}` before and after, and the subscribers are told. -/
theorem number_told : ∃ after sent, writeAndPublish numberText numberWorld numberJrp [] =
      some (after, some sent) ∧ after.ok = true ∧
    (documentOf after.world (ofChars ['d']) (ofChars ['a'])).map bare =
      (documentOf numberWorld (ofChars ['d']) (ofChars ['a'])).map bare ∧
    ((rootNode after.world.root).getAt (archiveAt (ofChars ['d']) (ofChars ['a']))).isSome =
      ((rootNode numberWorld.root).getAt (archiveAt (ofChars ['d']) (ofChars ['a']))).isSome :=
  ⟨_, _, rfl, rfl, rfl, rfl⟩

/-- A number that is written as it is read tells the subscribers, too. -/
theorem not_notified_iff_changed : ¬ ∀ (world : World Nat) (jrp : Jrp) (clients : List Client)
    (after : Answered Nat) (sent : Option (List (Nat × Bytes))) (d a : Bytes),
    WellKept (fun _ _ => True) world → Received jrp → inProc jrp = false →
    writeAndPublish numberText world jrp clients = some (after, sent) → after.ok = true →
    (jrp.segm.map Segment.name).take 2 = [d, a] →
    (sent.isSome ↔ Changed world after.world (fold d) (fold a)) := by
  intro claim
  obtain ⟨after, sent, done, ok, same, archive⟩ := number_told
  have changed := (claim _ _ _ _ _ (ofChars ['d']) (ofChars ['a'])
    (wellKept_of_full (backed_loaded number_loaded)) ⟨_, number_received⟩ (by decide +kernel) done
    ok rfl).mp rfl
  rcases changed with document | there
  · exact document same
  · exact there archive

theorem notified_number : ∃ after sent, writeAndPublish numberText numberWorld numberJrp [] =
      some (after, sent) ∧ ∃ d a v, (numberJrp.segm.map Segment.name).take 2 = [d, a] ∧
    numberJrp.valuestring = some v ∧
    Notified numberText numberWorld numberJrp v [] (fold d) (fold a) after sent := by
  obtain ⟨after, sent, done, ok, _⟩ := number_told
  exact ⟨after, some sent, done, notified_iff_changed
    (wellKept_of_full (backed_loaded number_loaded)) ⟨_, number_received⟩ (by decide +kernel) done
    ok⟩

end OneNumber

end ChangeNotice
