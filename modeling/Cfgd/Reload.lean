import Cfgd.LoadedTree
import Cfgd.WriteEffects

/-!
# Loading an archive again

Two trees that hold the same members answer every key alike. Where the loader takes all of
a document as it is, and the nodes over its numbers show them as the loader would, the tree
that was kept beside the document mirrors it, and so does the tree that is loaded from it.
-/

namespace Reload

open AvlTree CText CJson Item Request ConfigNode Loader Runtime DocTree DeleteRange DocSearch
open RegularTree HeapEdit Levels PlainDoc Backing SideBySide

variable {ν : Type} [DoubleText ν]

section Answers
variable {tree tree' : Avl Node} {members : List (Item ν)}

/-- What an index finds in two arrays that mirror one array of a document. -/
theorem searchItem_congr {c c' : Node} {d : Item ν} (h : Mirrors c d) (h' : Mirrors c' d)
    (array : itemJsl d = .array) (filled : d.child ≠ []) {index : Int}
    (plain : ¬ (index = jaSymQuerySize ∨ index = jaSymAdd ∨ index = jaSymEntire)) :
    (searchItem c index = none ∧ searchItem c' index = none) ∨
      ∃ e e', ∃ x : Item ν, searchItem c index = some e ∧ searchItem c' index = some e' ∧
        Shows e x ∧ Mirrors e x ∧ Shows e' x ∧ Mirrors e' x := by
  rcases searchItem_of_mirrors h array filled plain with
    ⟨none, nowhere⟩ | ⟨e, x, found, place, here⟩
  · rcases searchItem_of_mirrors h' array filled plain with ⟨none', _⟩ | ⟨_, _, _, place, _⟩
    · exact Or.inl ⟨none, none'⟩
    · rw [nowhere] at place
      cases place
  · rcases searchItem_of_mirrors h' array filled plain with
      ⟨_, nowhere⟩ | ⟨e', x', found', place', here'⟩
    · rw [nowhere] at place
      cases place
    · obtain rfl := Option.some.inj (place.symm.trans place')
      exact Or.inr ⟨e, e', x, found, found', here.1, here.2, here'.1, here'.2⟩

/-- Trees that hold the same members answer every key alike. -/
theorem rtSearchLoop_congr (holds : Holds tree members) (holds' : Holds tree' members)
    (segms : List Segment) (retval : Int) (dupvalue : Bytes) :
    rtSearchLoop retval tree dupvalue segms = rtSearchLoop retval tree' dupvalue segms := by
  induction segms generalizing tree tree' members retval with
  | nil => rfl
  | cons segm rest ih =>
    rcases holds (fold segm.name) with ⟨none, nowhere⟩ | ⟨c, d, found, member, shows, mirrors⟩
    · rcases holds' (fold segm.name) with ⟨none', _⟩ | ⟨_, _, _, member, _⟩
      · have search : searchScope tree segm.name = .none := none
        have search' : searchScope tree' segm.name = .none := none'
        rw [rtSearchLoop, rtSearchLoop, search, search']
      · rw [nowhere] at member
        cases member
    · obtain ⟨c', found', shows', mirrors'⟩ := holds_some holds' member
      have search : searchScope tree segm.name = some c := found
      have search' : searchScope tree' segm.name = some c' := found'
      rw [rtSearchLoop, rtSearchLoop, search, search']
      dsimp only
      rw [shows.jsl, shows'.jsl]
      rcases itemJsl_of_memberOf member with object | leaf | array
      · have kind := object_of_itemJsl (Or.inl object)
        simp only [object]
        split
        · rfl
        · exact ih (mirrors.holds kind) (mirrors'.holds kind) 0
      · have isValue : isLeaf (itemJsl d) = true := by rw [leaf]; rfl
        simp only [leaf, shows.value (shows.jsl ▸ isValue), shows'.value (shows'.jsl ▸ isValue)]
      · have size := arraysize_of_mirrors mirrors array
        have size' := arraysize_of_mirrors mirrors' array
        have length := length_of_mirrors mirrors array
        have length' := length_of_mirrors mirrors' array
        have empty : c.array = [] ↔ c'.array = [] := by
          rw [← List.length_eq_zero_iff, length, ← length', List.length_eq_zero_iff]
        simp only [array, size, size', empty]
        split
        · rfl
        · rename_i usable
          split
          · rfl
          · rename_i single
            split
            · rfl
            · rename_i other
              have filled : d.child ≠ [] := by
                rw [ne_eq, ← List.length_eq_zero_iff, ← length', List.length_eq_zero_iff]
                exact fun none => usable (Or.inr (Or.inl none))
              rcases searchItem_congr mirrors mirrors' array filled
                (not_or.mpr ⟨single, other⟩) with
                ⟨none, none'⟩ | ⟨e, e', x, chosen, chosen', shown, below, shown', below'⟩
              · rw [none, none']
              · rw [chosen, chosen']
                dsimp only
                rw [shown.jsl, shown'.jsl]
                cases level : itemJsl x with
                | arrayItem =>
                  have kind := object_of_itemJsl (Or.inr level)
                  exact ih (below.holds kind) (below'.holds kind) (-1)
                | arrayItemAsField =>
                  have isValue : isLeaf (itemJsl x) = true := by rw [level]; rfl
                  simp only [shown.value (shown.jsl ▸ isValue), shown'.value (shown'.jsl ▸ isValue)]
                | _ => rfl

end Answers

section Documents
variable {full : Prop} {next : Nat} {n c : Node} {j d : Item ν} {s : Step}

/-- The loader takes the item under its own name. -/
def Taken (x : Item ν) : Prop := ∀ name, x.string = some name → memberName x = some name

/-- The nodes over a number show it as the loader does. -/
def Told (n : Node) (x : Item ν) : Prop := ∀ r, x.kind = .cjsonNumber r → ∀ q c,
  n.getAt q = some c → c.info.jsonptr = some x.addr → isLeaf c.info.jsl = true →
    c.info.scopeValue = numberValue r

theorem Told.follow {x : Item ν} (h : Told n x) (found : n.follow s = some c) : Told c x := by
  intro r number q m there
  exact h r number (s :: q) m (by rw [Node.getAt, found]; exact there)

omit [DoubleText ν] in
/-- Whether a node is one of an array is seen at its item. -/
theorem array_iff
    (level : n.info.jsl = itemJsl j ∨ (n.info.jsl = .archive ∧ j.kind = .cjsonObject)) :
    n.info.jsl = .array ↔ itemJsl j = .array := by
  rcases level with same | ⟨archive, object⟩
  · rw [same]
  · refine iff_of_false (by rw [archive]; nofun) fun array => ?_
    rw [(array_of_itemJsl array).1] at object
    cases object

/-- The kind of an item that a whole node stands over. -/
theorem kind_of_over (h : Over full next n j) (isFull : full)
    (level : n.info.jsl = itemJsl j ∨ (n.info.jsl = .archive ∧ j.kind = .cjsonObject)) :
    j.kind = .cjsonObject ∨ itemJsl j = .array ∨ (isLeaf (itemJsl j) = true ∧ j.child = []) := by
  rcases level with same | ⟨_, object⟩
  · have entered := h.here.known isFull
    rw [same] at entered
    by_cases leaf : isLeaf (itemJsl j) = true
    · exact Or.inr (Or.inr ⟨leaf, h.here.leaf (same ▸ leaf)⟩)
    · cases string : j.string <;> cases kind : j.kind <;>
        simp [itemJsl, isLeaf, string, kind] at entered leaf ⊢
  · exact Or.inl object

omit [DoubleText ν] in
/-- What a key means among members is one of that name. -/
theorem named_of_taken {l : List (Item ν)} (taken : ∀ x ∈ l, Taken x) {key : Bytes}
    (found : memberOf l key = some d) : d ∈ l ∧ d.string.map fold = some key := by
  have right : (memberName d).map fold = some key := by
    rw [memberOf] at found
    simpa using List.find?_some found
  have mem := List.mem_of_find?_eq_some found
  obtain ⟨name, named⟩ := named_of_memberOf found
  rw [taken d mem name named] at right
  exact ⟨mem, by rw [named]; exact right⟩

omit [DoubleText ν] in
/-- The one member of a name is what the key means. -/
theorem memberOf_of_taken {l : List (Item ν)} (taken : ∀ x ∈ l, Taken x) {key : Bytes}
    (mem : d ∈ l) (named : d.string.map fold = some key)
    (only : ∀ x ∈ l, x.string.map fold = some key → x = d) : memberOf l key = some d := by
  have some_x : (memberOf l key).isSome := by
    refine List.find?_isSome.mpr ⟨d, mem, ?_⟩
    obtain ⟨name, string, same⟩ := Option.map_eq_some_iff.mp named
    rw [taken d mem name string, Option.map_some, same]
    exact decide_eq_true rfl
  obtain ⟨x, found⟩ := Option.isSome_iff_exists.mp some_x
  obtain ⟨inside, named'⟩ := named_of_taken taken found
  rw [found, only x inside named']

/-- A step in the document leads to the item in that seat. -/
theorem seat_of_follow (h : Over full next n j)
    (level : n.info.jsl = itemJsl j ∨ (n.info.jsl = .archive ∧ j.kind = .cjsonObject))
    (taken : ∀ x ∈ j.child, Taken x) (step : DocTree.follow j s = some d) : Seat j s d := by
  rw [DocTree.follow.eq_def] at step
  cases s with
  | scope key =>
    dsimp only at step
    split at step
    · exact named_of_taken taken step
    · cases step
  | item i =>
    dsimp only at step
    split at step
    · rename_i kind string
      have array : n.info.jsl = .array :=
        (array_iff level).mpr ((itemJsl_array_iff string).mpr kind)
      have inside : n.array[i]? ≠ none := by
        rw [ne_eq, List.getElem?_eq_none_iff, h.here.length array, Nat.not_le]
        exact (List.getElem?_eq_some_iff.mp step).1
      obtain ⟨c, found⟩ := Option.ne_none_iff_exists'.mp inside
      obtain ⟨d', seat, _⟩ := h.down (s := .item i) found
      obtain rfl := Option.some.inj (seat.1.symm.trans step)
      exact seat
    · cases step

/-- A step of the tree is the same step in the document. -/
theorem follow_of_seat (h : Over full next n j) (isFull : full)
    (level : n.info.jsl = itemJsl j ∨ (n.info.jsl = .archive ∧ j.kind = .cjsonObject))
    (taken : ∀ x ∈ j.child, Taken x) (seat : Seat j s d) : DocTree.follow j s = some d := by
  have child := seat.child
  have kind := kind_of_over h isFull level
  cases s with
  | item i =>
    have array : n.info.jsl = .array := by
      by_contra scopes
      obtain ⟨key, named, _⟩ := (h.here.whole isFull scopes).2 d child
      rw [seat.2] at named
      cases named
    obtain ⟨kind, name, named⟩ := array_of_itemJsl ((array_iff level).mp array)
    rw [DocTree.follow.eq_def]
    simp only [kind, named]
    exact seat.1
  | scope key =>
    have scopes : itemJsl j ≠ .array := by
      intro array
      obtain ⟨i, _, _, unnamed, _⟩ := h.element ((array_iff level).mpr array) child
      have named := seat.2
      rw [unnamed.2] at named
      cases named
    have object : j.kind = .cjsonObject := by
      rcases kind with object | array | ⟨_, none⟩
      · exact object
      · exact absurd array scopes
      · rw [none] at child
        cases child
    rw [DocTree.follow.eq_def]
    simp only [object]
    refine memberOf_of_taken taken child seat.2 fun x inside named => ?_
    exact h.seat_unique isFull (s := .scope key) ⟨inside, named⟩ seat

/-- There is a node for every seat. -/
theorem entered_of_seat (h : Over full next n j) (isFull : full) (seat : Seat j s d) :
    n.follow s ≠ none := by
  have child := seat.child
  by_cases array : n.info.jsl = .array
  · obtain ⟨_, _, _, unnamed, _⟩ := h.element array child
    cases s with
    | scope key =>
      have named := seat.2
      rw [unnamed.2] at named
      cases named
    | item i =>
      rw [Node.follow, ne_eq, List.getElem?_eq_none_iff, h.here.length array, Nat.not_le]
      exact (List.getElem?_eq_some_iff.mp seat.1).1
  · obtain ⟨key, named, entered⟩ := (h.here.whole isFull array).2 d child
    cases s with
    | scope key' =>
      obtain rfl := Option.some.inj (named.symm.trans seat.2)
      exact Option.isSome_iff_ne_none.mp entered
    | item i =>
      rw [seat.2] at named
      cases named

/-- Where the loader takes all of a document and shows its numbers as the tree does, the
node over the document mirrors it. -/
theorem mirrors_of_over (h : Over full next n j) (isFull : full)
    (level : n.info.jsl = itemJsl j ∨ (n.info.jsl = .archive ∧ j.kind = .cjsonObject))
    (taken : ∀ x ∈ j.items, Taken x) (told : ∀ x ∈ j.items, Told n x) : Mirrors n j := by
  induction h with
  | @mk n j item here seat tells below ih =>
    have self : Over full next n j := .mk item here seat tells below
    have children : ∀ x ∈ j.child, Taken x :=
      fun x child => taken x (mem_items_of_child child (self_mem_items x))
    refine mirrors_of_steps here.linked fun s => ?_
    cases found : n.follow s with
    | none =>
      refine Or.inl ⟨rfl, ?_⟩
      by_contra step
      obtain ⟨d, step⟩ := Option.ne_none_iff_exists'.mp step
      exact entered_of_seat self isFull (seat_of_follow self level children step) found
    | some c =>
      have there := seat s c found
      have told' := fun x (inside : x ∈ (item s).items) =>
        (told x (mem_items_of_child there.child inside)).follow found
      have linked := (below s c found).here.linked
      refine Or.inr ⟨c, item s, rfl, follow_of_seat self isFull level children there, ?_, ?_⟩
      · have tell := tells s c found
        refine ⟨tell.jsl, fun leaf => ?_⟩
        cases kind : (item s).kind with
        | cjsonString v => exact tell.text v kind
        | cjsonNumber r =>
          have inside := mem_items_of_child there.child (self_mem_items (item s))
          rw [valueText, kind]
          refine told _ inside r kind [s] c ?_ linked.ptr leaf
          rw [Catalog.getAt_one, found]
        | _ =>
          rw [tell.jsl] at leaf
          cases string : (item s).string <;> simp [itemJsl, isLeaf, string, kind] at leaf
      · exact ih s c found (Or.inl (tells s c found).jsl)
          (fun x inside => taken x (mem_items_of_child there.child inside)) told'

/-- A document that a node stands over as a whole could have been parsed. -/
theorem producible_of_over (h : Over full next n j) (isFull : full)
    (level : n.info.jsl = itemJsl j ∨ (n.info.jsl = .archive ∧ j.kind = .cjsonObject)) :
    Producible j := by
  induction h with
  | @mk n j item here seat tells below ih =>
    have self : Over full next n j := .mk item here seat tells below
    have children : ∀ d ∈ j.child, Producible d := by
      intro d child
      obtain ⟨s, c, found, seat', _⟩ := self.reaches isFull child
      obtain rfl := self.seat_unique isFull seat' (seat s c found)
      exact ih s c found (Or.inl (tells s c found).jsl)
    have kind := kind_of_over self isFull level
    have array := array_iff level
    obtain ⟨addr, string, type, child⟩ := j
    rcases kind with object | isArray | ⟨leaf, none⟩
    · obtain rfl : type = .cjsonObject := object
      refine .object (fun d mem => ?_) children
      have scopes : n.info.jsl ≠ .array := fun isArray => by
        cases (array_of_itemJsl (array.mp isArray)).1
      obtain ⟨key, named, _⟩ := (here.whole isFull scopes).2 d mem
      intro unnamed
      rw [unnamed] at named
      cases named
    · obtain rfl : type = .cjsonArray := (array_of_itemJsl isArray).1
      refine .array (fun d mem => ?_) children
      obtain ⟨_, _, _, unnamed, _⟩ := self.element (array.mpr isArray) mem
      exact unnamed.2
    · obtain rfl : child = [] := none
      cases type with
      | cjsonObject => cases string <;> cases leaf
      | cjsonArray => cases string <;> cases leaf
      | _ => exact .leaf nofun nofun

/-- Under such a node no two members have one name, and every item has a level. -/
theorem whole_of_over (h : Over full next n j) (isFull : full)
    (level : n.info.jsl = itemJsl j ∨ (n.info.jsl = .archive ∧ j.kind = .cjsonObject)) :
    ∀ x ∈ j.items, (x.kind = .cjsonObject → Distinct x.child) ∧
      ∀ c ∈ x.child, itemJsl c ≠ .dir := by
  induction h with
  | @mk n j item here seat tells below ih =>
    have self : Over full next n j := .mk item here seat tells below
    intro x inside
    rw [items_eq, List.mem_cons] at inside
    rcases inside with rfl | inside
    · constructor
      · intro object
        refine (here.whole isFull fun isArray => ?_).1
        have array := (array_of_itemJsl ((array_iff level).mp isArray)).1
        rw [object] at array
        cases array
      · intro c child
        obtain ⟨s, m, found, _, tell, covers⟩ := self.reaches isFull child
        exact tell.jsl ▸ covers.here.known isFull
    · obtain ⟨d, child, deep⟩ := List.mem_flatMap.mp inside
      obtain ⟨s, c, found, seat', _⟩ := self.reaches isFull child
      obtain rfl := self.seat_unique isFull seat' (seat s c found)
      exact ih s c found (Or.inl (tells s c found).jsl) x deep

end Documents

section Worlds
variable {world : World ν} {d a : Bytes} {archive : Node}

/-- The node of the archive with the tree that `ldr_next_misc` builds for the document. -/
def reloadArchive (document : Item ν) (archive : Node) : Node :=
  ldrLoadArchive (archive.setNextScope fun _ => .nil) document

/-- The tree with one archive loaded afresh from its document. -/
def reloaded (world : World ν) (d a : Bytes) : Option (Avl Node) :=
  (documentOf world d a).map fun document =>
    ((rootNode world.root).modifyAt (reloadArchive document) (archiveAt d a)).nextScope

/-- Below a directory or an archive a search is the same for trees that are alike there. -/
theorem rtSearchLoop_alike {n n' c c' : Node} {key : Bytes} (found : n.follow (.scope key) = some c)
    (other : ∀ k, n'.follow (.scope k) = if k = key then some c' else n.follow (.scope k))
    (info : c'.info = c.info) (level : c.info.jsl = .dir ∨ c.info.jsl = .archive)
    (alike : ∀ segms retval dupvalue, rtSearchLoop retval c'.nextScope dupvalue segms =
      rtSearchLoop retval c.nextScope dupvalue segms) (segms : List Segment) (retval : Int)
    (dupvalue : Bytes) : rtSearchLoop retval n'.nextScope dupvalue segms =
      rtSearchLoop retval n.nextScope dupvalue segms := by
  cases segms with
  | nil => rfl
  | cons segm rest =>
    by_cases here : fold segm.name = key
    · have search : searchScope n.nextScope segm.name = some c := by
        rw [← here] at found; exact found
      have search' : searchScope n'.nextScope segm.name = some c' := by
        have step := other (fold segm.name)
        rw [if_pos here] at step
        exact step
      rw [rtSearchLoop, rtSearchLoop, search, search']
      dsimp only
      rcases level with level | level
      · simp only [info, level, alike]
      · simp only [info, level, alike]
    · have same : searchScope n'.nextScope segm.name = searchScope n.nextScope segm.name := by
        have step := other (fold segm.name)
        rw [if_neg here] at step
        exact step
      rw [rtSearchLoop, rtSearchLoop, same]

/-- The documents under the archives of a tree are as the tree knows them. -/
theorem document_of_filed (h : Backed (fun _ _ => True) world)
    (there : (rootNode world.root).getAt (archiveAt d a) = some archive) :
    ∃ D, Filed True world.store.heap archive D ∧ documentOf world d a = some D := by
  obtain ⟨D, filed⟩ := h.filed d a archive there
  refine ⟨D, filed, ?_⟩
  rw [documentOf, there, Option.bind_some, filed.overlay.here.linked.ptr, Option.bind_some]
  exact deref_of_mem h.separate (List.mem_flatMap.mpr ⟨D, filed.root, self_mem_items D⟩)

/-- The archive that is loaded afresh holds the members of its document. -/
theorem reloadArchive_spec {D : Item ν} (filed : Filed True world.store.heap archive D)
    (file : archive.info.jsl = .archive) :
    Holds (reloadArchive D archive).nextScope D.child ∧
      (reloadArchive D archive).info = archive.info := by
  have level : archive.info.jsl = itemJsl D ∨
      (archive.info.jsl = .archive ∧ D.kind = .cjsonObject) := Or.inr ⟨file, filed.object⟩
  have shape := producible_of_over filed.overlay trivial level
  constructor
  · rw [← topMembers_of_object filed.object]
    refine holds_ldrLoadArchive shape filed.unnamed ?_
    rw [Node.nextScope_setNextScope]
  · rw [reloadArchive, ldrLoadArchive, (kept_ldrNextMisc ..).1, Node.info_setNextScope]

/-- The steps that lead to an archive in a tree where it was written to. -/
theorem archive_steps {n : Node} {write : Node → Node} (regular : Regular 0 n)
    (there : n.getAt (archiveAt d a) = some archive)
    (key : (write archive).scopeKey = archive.scopeKey) :
    ∃ dir, n.follow (.scope d) = some dir ∧ dir.follow (.scope a) = some archive ∧
      dir.info.jsl = .dir ∧
      (∀ k, (dir.modifyAt write [.scope a]).follow (.scope k) =
        if k = a then some (write archive) else dir.follow (.scope k)) ∧
      ∀ k, (n.modifyAt write (archiveAt d a)).follow (.scope k) =
        if k = d then some (dir.modifyAt write [.scope a]) else n.follow (.scope k) := by
  rw [Node.getAt] at there
  obtain ⟨dir, first, second⟩ := Option.bind_eq_some_iff.mp there
  rw [Catalog.getAt_one] at second
  have keeps : ∀ m, dir.getAt [.scope a] = some m → (write m).scopeKey = m.scopeKey := by
    intro m hm
    rw [Catalog.getAt_one, second] at hm
    obtain rfl := Option.some.inj hm
    exact key
  have keeps' : ∀ m, n.getAt (archiveAt d a) = some m → (write m).scopeKey = m.scopeKey := by
    intro m hm
    rw [Node.getAt, first] at hm
    exact keeps m hm
  refine ⟨dir, first, second, (regular.follow first).here.stands, fun k => ?_, fun k => ?_⟩
  · rw [follow_modifyAt keeps, second]
    simp [Node.modifyAt]
  · rw [follow_modifyAt keeps', first]
    simp

/-- A tree that shows all of a document is answered as the one that is loaded from it. -/
theorem reload_search (h : Backed (fun _ _ => True) world)
    (there : (rootNode world.root).getAt (archiveAt d a) = some archive)
    (taken : ∀ D, documentOf world d a = some D → ∀ x ∈ D.items, Taken x)
    (told : ∀ D, documentOf world d a = some D → ∀ x ∈ D.items, Told archive x) :
    ∃ tree, reloaded world d a = some tree ∧
      ∀ jrp, rtSearch tree jrp = rtSearch world.root jrp := by
  obtain ⟨D, filed, document⟩ := document_of_filed h there
  refine ⟨_, by rw [reloaded, document]; rfl, fun jrp => ?_⟩
  have file : archive.info.jsl = .archive := (regular_at h.regular there).here.stands
  have level : archive.info.jsl = itemJsl D ∨
      (archive.info.jsl = .archive ∧ D.kind = .cjsonObject) := Or.inr ⟨file, filed.object⟩
  -- both trees below the archive hold the members of the document
  have live := (mirrors_of_over filed.overlay trivial level (taken D document)
    (told D document)).holds filed.object
  obtain ⟨fresh, info⟩ := reloadArchive_spec filed file
  have inside := fun segms retval dupvalue => rtSearchLoop_congr fresh live segms retval dupvalue
  -- and the rest of the tree is what it was
  obtain ⟨dir, first, second, isDir, step, step'⟩ := @archive_steps d a archive _
    (reloadArchive D) h.regular there (by rw [Node.scopeKey, info, Node.scopeKey])
  have below := rtSearchLoop_alike second step info (Or.inr file) inside
  exact rtSearchLoop_alike first step' modifyAt_info (Or.inl isDir) below jrp.segm 0 jrp.dupvalue

end Worlds

end Reload
