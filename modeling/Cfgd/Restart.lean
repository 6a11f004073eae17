import Cfgd.Coherence
import Cfgd.WriteThenRead
import Cfgd.WrittenDocument

/-!
# Writes that outlast a restart

What is written is in the document of the archive, and the loader finds it there when it
takes the names of the key and when a number shows the text that was written over it.
-/

namespace Restart

open AvlTree CText CJson Item Request ConfigNode Loader FsImage Runtime DocTree DocSearch
open DeleteRange KeyShape Reach UpdateCases HeapEdit AppendSteps RegularTree Levels PlainDoc
open Backing SideBySide WriteEffects DocumentItems WriteFrame WriteThenRead ReadBack Reload
open WrittenDocument

variable {ν : Type} [DoubleText ν]

section Reading
variable {world world' : World ν} {d a v : Bytes} {q : Path} {n m c dir archive : Node}
variable {D x x' : Item ν}
variable {segms passed left rest before tail : List Segment}

/-- What the document shows under a key is read in the tree that is loaded from it. -/
theorem reloaded_reads (h : Backed (fun _ _ => True) world)
    (document : documentOf world (fold d) (fold a) = some D) (denotes : Denotes D.child tail v) :
    ∃ tree, reloaded world (fold d) (fold a) = some tree ∧
      ∀ q : Jrp, q.segm = ⟨d, -1, .dir⟩ :: ⟨a, -1, .archive⟩ :: tail →
        rtSearch tree q = (0, v) := by
  obtain ⟨archive, there, _⟩ := Option.bind_eq_some_iff.mp document
  obtain ⟨D', filed, document'⟩ := document_of_filed h there
  obtain rfl := Option.some.inj (document.symm.trans document')
  have file : archive.info.jsl = .archive := (regular_at h.regular there).here.stands
  obtain ⟨fresh, info⟩ := reloadArchive_spec filed file
  obtain ⟨dir, first, second, isDir, step, step'⟩ := @archive_steps (fold d) (fold a) archive _
    (reloadArchive D) h.regular there (by rw [Node.scopeKey, info, Node.scopeKey])
  have toDir := step' (fold d)
  have toArchive := step (fold a)
  rw [if_pos rfl] at toDir toArchive
  refine ⟨_, by rw [reloaded, document]; rfl, fun q key => ?_⟩
  have more : tail ≠ [] := ne_nil_of_denotes denotes
  have enter := @rtSearchLoop_pass _ ⟨d, -1, .dir⟩ (⟨a, -1, .archive⟩ :: tail) _ toDir
    (Or.inl (by rw [modifyAt_info, isDir])) (List.cons_ne_nil _ _) 0 q.dupvalue
  have enter' := @rtSearchLoop_pass _ ⟨a, -1, .archive⟩ tail _ toArchive
    (Or.inr (Or.inl (by rw [info, file]))) more 0 q.dupvalue
  rw [rtSearch, key]
  exact enter.trans (enter'.trans (rtSearchLoop_of_denotes denotes fresh 0 q.dupvalue))

/-- The way of a key goes through the archive. -/
theorem walks_archive (walk : Walks n (⟨d, -1, .dir⟩ :: ⟨a, -1, .archive⟩ :: rest)
    (archiveAt (fold d) (fold a) ++ q) passed m left) : ∃ dir archive passed',
    n.follow (.scope (fold d)) = some dir ∧ dir.info.jsl ≠ .array ∧
      dir.follow (.scope (fold a)) = some archive ∧ archive.info.jsl ≠ .array ∧
      Walks archive rest q passed' m left := by
  cases walk with
  | scope found level level' further =>
    cases further with
    | scope found' other other' further => exact ⟨_, _, _, found, level, found', other, further⟩
    | item found' other other' => cases other'

/-- The key as it is read back, from the directory and the archive on. -/
theorem readKey_archive (first : n.follow (.scope (fold d)) = some dir)
    (level : dir.info.jsl ≠ .array) (second : dir.follow (.scope (fold a)) = some archive)
    (level' : archive.info.jsl ≠ .array) :
    readKey (some n) (⟨d, -1, .dir⟩ :: ⟨a, -1, .archive⟩ :: rest) =
      ⟨d, -1, .dir⟩ :: ⟨a, -1, .archive⟩ :: readKey (some archive) rest := by
  have plain : (-1 : Int) ≠ jaSymAdd := by decide
  rw [readKey, readKey]
  simp only [Option.bind_some, first, second, if_neg plain, if_neg level, if_neg level']

/-- Loading the documents again keeps what was written. -/
def Rereads (world world' : World ν) (segms : List Segment) (v : Bytes) : Prop :=
  ∃ d a rest tree, segms = ⟨d, -1, .dir⟩ :: ⟨a, -1, .archive⟩ :: rest ∧
    reloaded world' (fold d) (fold a) = some tree ∧ ReadsBack world.root tree segms v

/-- The way of a key in the document: it leads to the item under the node where `left` is
left, whatever is written at that item or below it. -/
structure Way (world : World ν) (d a : Bytes) (rest : List Segment) (m : Node)
    (left : List Segment) (D x : Item ν) (before : List Segment) : Prop where
  level : Levelled m x
  below : Below left
  key : readKey (some (rootNode world.root)) (⟨d, -1, .dir⟩ :: ⟨a, -1, .archive⟩ :: rest) =
    ⟨d, -1, .dir⟩ :: ⟨a, -1, .archive⟩ :: (before ++ readKey (some m) left)
  reaches : ∀ b ∈ x.addrs, ∀ (g : List (Item ν) → List (Item ν)) (tail : List Segment) (v : Bytes),
    Denotes (x.update b (setChild g)).child tail v →
      Denotes (D.update b (setChild g)).child (before ++ tail) v

/-- What is shown at the end of the way is read when the document is loaded again. -/
theorem Way.rereads (h : Way world d a rest m left D x before)
    (after : Backed (fun _ _ => True) world') {b : Addr} (inside : b ∈ x.addrs)
    {g : List (Item ν) → List (Item ν)}
    (document : documentOf world' (fold d) (fold a) = some (D.update b (setChild g)))
    (denotes : Denotes (x.update b (setChild g)).child (readKey (some m) left) v) :
    Rereads world world' (⟨d, -1, .dir⟩ :: ⟨a, -1, .archive⟩ :: rest) v := by
  obtain ⟨tree, loaded, reads⟩ := reloaded_reads after document (h.reaches b inside g _ v denotes)
  exact ⟨d, a, rest, tree, rfl, loaded, fun q key => reads q (key.trans h.key)⟩

/-- Documents of which the tree shows all, under the names that they have. -/
structure Faithful (world : World ν) : Prop where
  backed : Backed (fun _ _ => True) world
  taken : ∀ x ∈ world.store.heap.roots.flatMap items, Taken x

omit [DoubleText ν] in
/-- A node points to one item. -/
theorem item_unique {heap : Heap ν} (separate : Separate heap)
    (inHeap : x ∈ heap.roots.flatMap items) (inHeap' : x' ∈ heap.roots.flatMap items)
    (ptr : c.info.jsonptr = some x.addr) (ptr' : c.info.jsonptr = some x'.addr) : x' = x := by
  have mine := deref_of_mem separate inHeap'
  rw [← Option.some.inj (ptr.symm.trans ptr'), deref_of_mem separate inHeap] at mine
  exact (Option.some.inj mine).symm

/-- A way below an archive, at the item that the node there stands over. -/
theorem way_of_walks (h : Faithful world)
    (walk : Walks (rootNode world.root) (⟨d, -1, .dir⟩ :: ⟨a, -1, .archive⟩ :: rest)
      (archiveAt (fold d) (fold a) ++ q) passed m left)
    (below : Below rest) (more : left ≠ []) (inner : isLeaf m.info.jsl = false)
    (stands : Stands (fun _ _ => True) world (fold d) (fold a) q m D x) :
    ∃ before, Way world d a rest m left D x before := by
  have separate := h.backed.separate
  obtain ⟨dir, archive, passed', first, level, second, level', further⟩ := walks_archive walk
  have there : (rootNode world.root).getAt (archiveAt (fold d) (fold a)) = some archive := by
    rw [Node.getAt, first, Option.bind_some, Catalog.getAt_one, second]
  obtain ⟨D', filed, document⟩ := document_of_filed h.backed there
  obtain rfl := Option.some.inj ((documentOf_stands h.backed stands).symm.trans document)
  have file : archive.info.jsl = .archive := (regular_at h.backed.regular there).here.stands
  obtain ⟨x', before, overlay, levelled, below', inside, key, reaches⟩ :=
    leads_of_walks further filed.overlay (Or.inr ⟨file, filed.object⟩)
      (fun z inside => h.taken z (List.mem_flatMap.mpr ⟨D, filed.root, inside⟩))
      ((List.nodup_flatMap.mp separate.apart).1 D filed.root) below more inner
  obtain rfl := item_unique separate stands.inHeap
    (List.mem_flatMap.mpr ⟨D, filed.root, inside⟩) stands.overlay.here.linked.ptr
    overlay.here.linked.ptr
  exact ⟨before, levelled, below', by rw [readKey_archive first level second level', key], reaches⟩

end Reading

section Values
variable {c : Node} {x y z f d : Item ν} {v key : Bytes} {before after l : List (Item ν)}

/-- When the text of a number is the value, the number is printed so; and when it is not,
the number that is read off the value is. -/
def PrintsAs (v : Bytes) (c : Node) (z : Item ν) : Prop := ∀ r, z.kind = .cjsonNumber r →
  numberValue (if c.info.scopeValue = v then r else DoubleText.atof v) = v

theorem shown_of_tells (tells : Tells c z) (leaf : isLeaf c.info.jsl = true)
    (same : c.info.scopeValue = v) (prints : PrintsAs v c z) : valueText z = v := by
  cases kind : z.kind with
  | cjsonString s => rw [← tells.text s kind, same]
  | cjsonNumber r =>
    have printed := prints r kind
    rw [if_pos same] at printed
    rwa [valueText, kind]
  | _ =>
    rw [tells.jsl] at leaf
    cases string : z.string <;> simp [itemJsl, isLeaf, string, kind] at leaf

theorem shown_of_new (new : NewKind v z.kind y.kind) (other : c.info.scopeValue ≠ v)
    (short : v.length < maxValueSize) (prints : PrintsAs v c z) : valueText y = v := by
  rw [valueText]
  generalize hk : z.kind = old at new
  generalize y.kind = kind at new
  cases new with
  | string => exact limitValue_short short
  | number old =>
    have printed := prints old hk
    rwa [if_neg other] at printed

omit [DoubleText ν] in
/-- What a key means among members after the member was replaced by one of that name. -/
theorem memberOf_replaced (nodup : (before ++ f :: after).Nodup)
    (found : memberOf (before ++ f :: after) key = some f)
    (named : (memberName y).map fold = some key) :
    memberOf (before ++ y :: after) key = some y := by
  rw [memberOf, List.find?_append] at found ⊢
  have early : before.find? (fun c => decide ((memberName c).map fold = some key)) = none := by
    by_contra some
    obtain ⟨b, there⟩ := Option.ne_none_iff_exists'.mp some
    rw [there, Option.some_or] at found
    obtain rfl := Option.some.inj found
    exact (List.nodup_append.mp nodup).2.2 b (List.mem_of_find?_eq_some there) b
      List.mem_cons_self rfl
  rw [early, Option.none_or]
  exact List.find?_cons_of_pos (decide_eq_true named)

/-- A value in the place of another one is taken by the loader as that was. -/
theorem taken_of_new (new : NewKind v f.kind y.kind) (taken : Taken f)
    (same : y.string.map fold = f.string.map fold) : Taken y := by
  intro name' hy
  rw [hy, Option.map_some] at same
  obtain ⟨name, hf, folded⟩ := Option.map_eq_some_iff.mp same.symm
  have right := taken name hf
  obtain ⟨_, _, old, _⟩ := f
  obtain ⟨_, _, kind, _⟩ := y
  obtain rfl : _ = some name := hf
  obtain rfl : _ = some name' := hy
  have legal : LegalName name' := by
    refine Coherence.legalName_fold folded ?_
    cases new with
    | string => exact right
    | number => exact right
  cases new with
  | string => exact legal
  | number => exact legal

theorem named_of_new (new : NewKind v f.kind y.kind) (taken : Taken f)
    (same : y.string.map fold = f.string.map fold) (named : f.string.map fold = some key) :
    (memberName y).map fold = some key := by
  obtain ⟨name, hy, folded⟩ := Option.map_eq_some_iff.mp (same.trans named)
  rw [taken_of_new new taken same name hy, Option.map_some, folded]

theorem level_of_new (new : NewKind v f.kind y.kind)
    (same : y.string.map fold = f.string.map fold) :
    isLeaf (itemJsl f) = true ∧ itemJsl y = itemJsl f := by
  have strings := congrArg Option.isSome same
  rw [Option.isSome_map, Option.isSome_map] at strings
  exact new.level strings

omit [DoubleText ν] in
theorem itemJsl_setChild (g : List (Item ν) → List (Item ν)) :
    itemJsl (x.setChild g) = itemJsl x := by
  rw [itemJsl, itemJsl, string_setChild, kind_setChild]

omit [DoubleText ν] in
/-- A member that is written to is the one that its key means still. -/
theorem memberOf_written (nodup : x.addrs.Nodup) (found : memberOf x.child key = some d)
    (g : List (Item ν) → List (Item ν)) :
    memberOf (x.update d.addr (setChild g)).child key = some (d.setChild g) := by
  have child : d ∈ x.child := List.mem_of_find?_eq_some found
  rw [addrs_eq, List.nodup_cons] at nodup
  have apart : x.addr ≠ d.addr := by
    intro same
    rw [same] at nodup
    exact nodup.1 (List.mem_flatMap.mpr ⟨d, child, addr_mem_addrs d⟩)
  rw [update_below apart, child_setChild, memberOf_update, found, Option.map_some, update_here]

omit [DoubleText ν] in
theorem update_setChild_id (b : Addr) (x : Item ν) : x.update b (setChild id) = x := by
  induction x using Item.induct with
  | step x ih =>
    by_cases here : x.addr = b
    · subst here
      rw [update_here]
      cases x
      rfl
    · have same : x.child.map (Item.update b (setChild id)) = x.child := by
        calc x.child.map (Item.update b (setChild id)) = x.child.map id :=
              List.map_congr_left ih
          _ = x.child := List.map_id _
      rw [update_below here]
      cases x
      rw [setChild]
      exact congrArg _ same

end Values

section Writes
variable {world world' : World ν} {d a v : Bytes} {q : Path} {rest left passed : List Segment}
variable {n c e : Node} {segm : Segment} {D D' x x' : Item ν}

theorem stands_unique {full : Bytes → Bytes → Prop} (h : Backed full world)
    (stands : Stands full world d a q n D x) (stands' : Stands full world d a q n D' x') :
    D' = D ∧ x' = x :=
  ⟨Option.some.inj ((documentOf_stands h stands').symm.trans (documentOf_stands h stands)),
    item_unique h.separate stands.inHeap stands'.inHeap stands.overlay.here.linked.ptr
      stands'.overlay.here.linked.ptr⟩

theorem Faithful.taken_at (h : Faithful world) {full : Bytes → Bytes → Prop}
    (stands : Stands full world d a q n D x) : ∀ y ∈ x.items, Taken y := fun y inside =>
  h.taken y (List.mem_flatMap.mpr ⟨D, stands.root, items_trans stands.inside inside⟩)

/-- The way to a node below which the next one is a member. -/
theorem way_of_member (h : Faithful world)
    (walk : Walks (rootNode world.root) (⟨d, -1, .dir⟩ :: ⟨a, -1, .archive⟩ :: rest)
      (archiveAt (fold d) (fold a) ++ q) passed n (segm :: left)) (below : Below rest)
    (found : n.follow (.scope (fold segm.name)) = some c) : ∃ D x z before,
      Stands (fun _ _ => True) world (fold d) (fold a) q n D x ∧
      Way world d a rest n (segm :: left) D x before ∧ z ∈ x.child ∧
      memberOf x.child (fold segm.name) = some z ∧ Tells c z ∧
      Over True world.store.heap.nextAddr c z ∧ (rootNode world.root).getAt
        (archiveAt (fold d) (fold a) ++ (q ++ [.scope (fold segm.name)])) = some c := by
  obtain ⟨D, x, stands, _⟩ := h.backed.edit (getAt_of_walks walk)
  obtain ⟨before, way⟩ := way_of_walks h walk below (List.cons_ne_nil _ _)
    (inner_of_follow stands.overlay found) stands
  obtain ⟨z, child, member, tells, overlay⟩ :=
    memberOf_of_follow stands.overlay way.level (h.taken_at stands) found
  refine ⟨D, x, z, before, stands, way, child, member, tells, overlay, ?_⟩
  rw [← List.append_assoc]
  exact getAt_member walk found

omit [DoubleText ν] in
/-- Nothing was written: the document stays. -/
theorem documentOf_unchanged (there : (rootNode world.root).getAt (archiveAt d a ++ q) = some n)
    (document : documentOf world d a = some D) (b : Addr) :
    documentOf (world.modifyAt (fun _ => n) (archiveAt d a ++ q) world.store) d a =
      some (D.update b (setChild id)) := by
  rw [update_setChild_id, ← document, documentOf, documentOf,
    rootNode_modifyAt world _ (by simp), modifyAt_self there]
  rfl

/-- The values of a key that a field or an item stands at. -/
abbrev Prints (world : World ν) (v : Bytes) (c : Node) : Prop :=
  ∀ z ∈ world.store.heap.roots.flatMap items, c.info.jsonptr = some z.addr → PrintsAs v c z

/-- A field was given the value. -/
theorem rereads_field (h : Faithful world)
    (walk : Walks (rootNode world.root) (⟨d, -1, .dir⟩ :: ⟨a, -1, .archive⟩ :: rest)
      (archiveAt (fold d) (fold a) ++ q) passed n [segm]) (below : Below rest)
    (found : n.follow (.scope (fold segm.name)) = some c) (level : c.info.jsl = .field)
    (level' : segm.jsl ≠ .array) (short : v.length < maxValueSize) (prints : Prints world v c)
    (ok : 0 ≤ (rtFieldUpdate world.store c v).2.2)
    (tree : world' = world.modifyAt (fun _ => (rtFieldUpdate world.store c v).2.1)
      (archiveAt (fold d) (fold a) ++ (q ++ [.scope (fold segm.name)]))
      (rtFieldUpdate world.store c v).1) (after : Backed (fun _ _ => True) world') :
    Rereads world world' (⟨d, -1, .dir⟩ :: ⟨a, -1, .archive⟩ :: rest) v := by
  have there := getAt_of_walks walk
  obtain ⟨D, x, z, before, stands, way, child, member, tells, overlay, here⟩ :=
    way_of_member h walk below found
  have children : ∀ y ∈ x.child, Taken y :=
    fun y child => h.taken_at stands y (mem_items_of_child child (self_mem_items y))
  have leaf : itemJsl z = .field := tells.jsl ▸ level
  have prints := prints z (child_inHeap stands child) overlay.here.linked.ptr
  obtain ⟨field, key⟩ : segm.jsl = .field ∧ readKey (some n) [segm] = [segm] := by
    have shape := way.below
    have plain : (-1 : Int) ≠ jaSymAdd := by decide
    cases shape with
    | field fits => exact ⟨rfl, by simp [readKey, plain]⟩
    | array => exact absurd rfl level'
    | scope fits below => cases below
    | item fits range single below => cases below
  rcases rtFieldUpdate_replaces h.backed there found level with
    ⟨store, node, same⟩ | ⟨D', x', z', f, y, before', after', node, replacing⟩
  · rw [store, node] at tree
    subst tree
    refine way.rereads after (addr_mem_addrs x)
      (documentOf_unchanged here (documentOf_stands h.backed stands) x.addr) ?_
    rw [update_setChild_id, key, ← shown_of_tells tells (by rw [level]; rfl) (same ok) prints]
    exact .field member leaf field
  · obtain ⟨rfl, rfl⟩ := stands_unique h.backed stands replacing.stands
    rw [node] at tree
    subst tree
    obtain ⟨_, rewrites⟩ := value_rewrites h.backed there found replacing short after.regular
    -- the member that was replaced is the one under the key
    have seat : Seat x' (.scope (fold segm.name)) z := ⟨child, (named_of_taken children member).2⟩
    have place : f.string.map fold = some (fold segm.name) := replacing.place
    obtain rfl := stands.overlay.seat_unique trivial seat replacing.seat
    obtain rfl := stands.overlay.seat_unique trivial seat
      ⟨by rw [replacing.split]; simp, replacing.place⟩
    refine way.rereads after (addr_mem_addrs x') rewrites.after ?_
    rw [update_here, child_setChild, key,
      ← shown_of_new replacing.kind replacing.other short prints]
    refine .field (memberOf_replaced (f := z) ?_ ?_ ?_) ?_ field
    · rw [← replacing.split]
      exact .of_map Item.addr (ItemNumbers.nodup_child h.backed.separate stands.inHeap)
    · rwa [← replacing.split]
    · exact named_of_new replacing.kind (children z child) replacing.named place
    · exact (level_of_new replacing.kind replacing.named).2.trans leaf

/-- An item of an array was given the value. -/
theorem rereads_item (h : Faithful world)
    (walk : Walks (rootNode world.root) (⟨d, -1, .dir⟩ :: ⟨a, -1, .archive⟩ :: rest)
      (archiveAt (fold d) (fold a) ++ q) passed n [segm]) (below : Below rest)
    (found : n.follow (.scope (fold segm.name)) = some c) (level : c.info.jsl = .array)
    (level' : segm.jsl = .array) {k : Nat} (place : placeOf c.info.arraysize segm.index = some k)
    (entered : c.follow (.item k) = some e) (short : v.length < maxValueSize)
    (prints : Prints world v e) (free : e.info.jsl = .arrayItem → e.info.scopeValue ≠ v)
    (ok : 0 ≤ (rtArrayFieldUpdate world.store c segm.index v).2.2)
    (tree : world' = world.modifyAt
      (fun _ => (rtArrayFieldUpdate world.store c segm.index v).2.1)
      (archiveAt (fold d) (fold a) ++ (q ++ [.scope (fold segm.name)]))
      (rtArrayFieldUpdate world.store c segm.index v).1)
    (after : Backed (fun _ _ => True) world') :
    Rereads world world' (⟨d, -1, .dir⟩ :: ⟨a, -1, .archive⟩ :: rest) v := by
  have separate := h.backed.separate
  obtain ⟨D, x, j, before, stands, way, child, member, tells, overlay, here⟩ :=
    way_of_member h walk below found
  obtain ⟨z, seat, tells', overlay'⟩ := overlay.down entered
  have array : itemJsl j = .array := tells.jsl ▸ level
  have prints := prints z (List.mem_flatMap.mpr ⟨D, stands.root, items_trans stands.inside
    (mem_items_of_child child (mem_items_of_child seat.child (self_mem_items z)))⟩)
    overlay'.here.linked.ptr
  have index := elementAt_of_entered overlay level place seat.1
  have key : readKey (some n) [segm] = [segm] := by
    have plain := (placeOf_symbols place overlay.here.room).2.1
    simp [readKey, plain]
  rcases rtArrayFieldUpdate_replaces h.backed here place entered level with
    ⟨store, node, same⟩ | ⟨D', x', z', f, y, before', after', node, replacing⟩
  · rw [store, node] at tree
    subst tree
    have leaf : itemJsl z = .arrayItemAsField := by
      rcases itemJsl_unnamed seat.2 with object | leaf | dir
      · exact absurd (same ok) (free (tells'.jsl.trans object))
      · exact leaf
      · exact absurd (tells'.jsl.trans dir) (overlay'.here.known trivial)
    refine way.rereads after (addr_mem_addrs x)
      (documentOf_unchanged here (documentOf_stands h.backed stands) x.addr) ?_
    rw [update_setChild_id, key,
      ← shown_of_tells tells' (by rw [tells'.jsl, leaf]; rfl) (same ok) prints]
    exact .element member array level' index leaf
  · obtain rfl := item_unique separate (child_inHeap stands child) replacing.stands.inHeap
      overlay.here.linked.ptr replacing.stands.overlay.here.linked.ptr
    obtain rfl := Option.some.inj ((documentOf_stands h.backed replacing.stands).symm.trans
      (documentOf_stands h.backed stands))
    rw [node, ← modifyAt_child here, List.append_assoc] at tree
    subst tree
    obtain ⟨_, rewrites⟩ := value_rewrites h.backed here entered replacing short after.regular
    obtain ⟨position, unnamed⟩ : before'.length = k ∧ f.string = none := replacing.place
    obtain rfl := overlay.seat_unique trivial seat replacing.seat
    obtain rfl : z = f := by
      refine overlay.seat_unique trivial seat ⟨?_, unnamed⟩
      rw [replacing.split, List.getElem?_append_right (Nat.le_of_eq position), position,
        Nat.sub_self]
      rfl
    have inside : x'.addr ∈ x.addrs := mem_addrs_of_child child (addr_mem_addrs x')
    have nodup := (addrs_inHeap separate stands.inHeap).1
    have leaf : itemJsl y = .arrayItemAsField := by
      obtain ⟨isLeaf, same⟩ := level_of_new replacing.kind replacing.named
      rw [same]
      rcases itemJsl_unnamed seat.2 with object | leaf | dir
      · rw [object] at isLeaf
        cases isLeaf
      · exact leaf
      · exact absurd (tells'.jsl.trans dir) (overlay'.here.known trivial)
    refine way.rereads after inside rewrites.after ?_
    rw [key, ← shown_of_new replacing.kind replacing.other short prints]
    refine .element (memberOf_written nodup member _) ?_ level' ?_ leaf
    · rw [itemJsl_setChild, array]
    · have size : c.info.arraysize = (before' ++ y :: after').length := by
        rw [overlay.here.linked.size, overlay.here.length level, replacing.split]
        simp
      have room := overlay.here.room
      rw [size] at place room
      rw [child_setChild, elementAt_of_place place room,
        List.getElem?_append_right (Nat.le_of_eq position), position, Nat.sub_self]
      rfl

/-- The document has no member where the node has none. -/
theorem memberOf_free {next : Nat} {m : Node} {key : Bytes} (h : Over True next m x)
    (taken : ∀ y ∈ x.child, Taken y) (missing : m.follow (.scope key) = none) :
    memberOf x.child key = none := by
  by_contra some
  obtain ⟨y, found⟩ := Option.ne_none_iff_exists'.mp some
  exact entered_of_seat h trivial (s := .scope key) (named_of_taken taken found) missing

/-- What was appended below a node that lies in an archive. -/
theorem rereads_missing {m : Node} (h : Faithful world)
    (walk : Walks (rootNode world.root) (⟨d, -1, .dir⟩ :: ⟨a, -1, .archive⟩ :: rest)
      (archiveAt (fold d) (fold a) ++ q) passed m (segm :: left)) (below : Below rest)
    (missing : m.follow (.scope (fold segm.name)) = none) (inner : isLeaf m.info.jsl = false)
    (short : v.length < maxValueSize) (legal : ∀ s ∈ rest, s.jsl ≠ .array → LegalName s.name)
    (ok : 0 ≤ (rtAppend v world.store m (segm :: left)).retval)
    (tree : world' = world.modifyAt (fun _ => (rtAppend v world.store m (segm :: left)).node)
      (archiveAt (fold d) (fold a) ++ q) (rtAppend v world.store m (segm :: left)).store)
    (after : Backed (fun _ _ => True) world') :
    Rereads world world' (⟨d, -1, .dir⟩ :: ⟨a, -1, .archive⟩ :: rest) v := by
  subst tree
  have there := getAt_of_walks walk
  have own := (regular_at h.backed.regular there).here
  have notArray := notArray_of_walks walk h.backed.regular nofun
  have size : m.info.arraysize = 0 := by
    rw [own.size, own.noItems notArray]
    rfl
  obtain ⟨D, x, stands, _⟩ := h.backed.edit there
  obtain ⟨before, way⟩ := way_of_walks h walk below (List.cons_ne_nil _ _) inner stands
  obtain ⟨dir, archive, passed', _, _, _, _, further⟩ := walks_archive walk
  have suffix := suffix_of_walks further
  have free := memberOf_free stands.overlay (fun y child =>
    h.taken_at stands y (mem_items_of_child child (self_mem_items y))) missing
  obtain ⟨y, roots, denotes⟩ := appendsRead_of_below short way.below
    (fun s mem => legal s (suffix.subset mem)) world.store m x h.backed.separate stands.inHeap
    stands.overlay.here.linked.ptr notArray size
    (by rintro s same; obtain rfl := Option.some.inj same; exact free) ok
  have rewrites := rewrites_of_edit h.backed stands there (scopeKey_rtAppend ..)
    (by rw [(rtAppend_kept v world.store m (segm :: left)).2.2 notArray]) roots after
  refine way.rereads after (addr_mem_addrs x) rewrites.after ?_
  rwa [update_here, child_setChild, readKey_missing missing]

/-- What was appended to an array. -/
theorem rereads_extend {m : Node} (h : Faithful world)
    (walk : Walks (rootNode world.root) (⟨d, -1, .dir⟩ :: ⟨a, -1, .archive⟩ :: rest)
      (archiveAt (fold d) (fold a) ++ q) passed m (segm :: left)) (below : Below rest)
    (found : m.follow (.scope (fold segm.name)) = some c) (level : c.info.jsl = .array)
    (level' : segm.jsl = .array) (next : segm.index = c.info.arraysize ∨ segm.index = jaSymAdd)
    (short : v.length < maxValueSize) (legal : ∀ s ∈ rest, s.jsl ≠ .array → LegalName s.name)
    (ok : 0 ≤ (rtAppend v world.store c (segm :: left)).retval)
    (tree : world' = world.modifyAt (fun _ => (rtAppend v world.store c (segm :: left)).node)
      (archiveAt (fold d) (fold a) ++ (q ++ [.scope (fold segm.name)]))
      (rtAppend v world.store c (segm :: left)).store)
    (after : Backed (fun _ _ => True) world') :
    Rereads world world' (⟨d, -1, .dir⟩ :: ⟨a, -1, .archive⟩ :: rest) v := by
  subst tree
  have separate := h.backed.separate
  obtain ⟨D, x, j, before, stands, way, child, member, tells, overlay, here⟩ :=
    way_of_member h walk below found
  obtain ⟨dir, archive, passed', _, _, _, _, further⟩ := walks_archive walk
  have suffix := suffix_of_walks further
  obtain ⟨D', j', stands', _⟩ := h.backed.edit here
  obtain rfl := item_unique separate (child_inHeap stands child) stands'.inHeap
    overlay.here.linked.ptr stands'.overlay.here.linked.ptr
  obtain rfl := Option.some.inj ((documentOf_stands h.backed stands').symm.trans
    (documentOf_stands h.backed stands))
  have nodup := (addrs_inHeap separate stands.inHeap).1
  have room := overlay.here.room
  obtain ⟨name, index, jsl⟩ := segm
  obtain rfl : jsl = .array := level'
  have later : left = [] ∨ AppendsRead ν v left := by
    cases way.below with
    | array => exact Or.inl rfl
    | item fits range single below => exact Or.inr (appendsRead_of_below short below
        fun s mem => legal s (suffix.subset (List.mem_cons_of_mem _ mem)))
  rw [rtAppend_array] at ok after ⊢
  split at ok
  · rename_i takes
    rw [if_pos takes, if_pos level] at after ⊢
    obtain ⟨y, roots, _, reads⟩ := addTo_reads short later separate stands'.inHeap
      overlay.here.linked.ptr ok
    have rewrites := rewrites_of_edit h.backed stands' here (scopeKey_addTo ..)
      (by rw [addTo]; split <;> simp [addItem]) roots after
    refine way.rereads after (mem_addrs_of_child child (addr_mem_addrs j')) rewrites.after ?_
    have key : readKey (some m) (⟨name, index, .array⟩ :: left) =
        ⟨name, c.info.arraysize, .array⟩ :: readKey none left := by
      have same : (if index = jaSymAdd then c.info.arraysize else index) = c.info.arraysize := by
        rcases next with rfl | rfl
        · exact ite_self _
        · exact if_pos rfl
      have nowhere := (placeOf_next room (Or.inl rfl)).1
      simp [readKey, found, level, same, nowhere]
    rw [key]
    refine denotes_element (memberOf_written nodup member _) ?_ ?_ reads
    · rw [itemJsl_setChild, ← tells.jsl, level]
    · have size : c.info.arraysize = j'.child.length := by
        rw [overlay.here.linked.size, overlay.here.length level]
      have few := (appendable_iff.mp takes).2.2
      rw [size] at few ⊢
      rw [child_setChild]
      exact elementAt_appended few
  · cases ok

/-- The document that an archive points to. -/
theorem documentOf_of_root {full : Bytes → Bytes → Prop} {archive : Node} (h : Backed full world)
    (there : (rootNode world.root).getAt (archiveAt d a) = some archive)
    (ptr : archive.info.jsonptr = some D.addr) (root : D ∈ world.store.heap.roots) :
    documentOf world d a = some D := by
  rw [documentOf, there, Option.bind_some, ptr, Option.bind_some]
  exact deref_of_mem h.separate (List.mem_flatMap.mpr ⟨D, root, self_mem_items D⟩)

/-- The document of an archive that is made. -/
abbrev emptyDocument (heap : Heap ν) : Item ν := (cjsonCreate heap .cjsonObject).2

omit [DoubleText ν] in
/-- What `rt_append` does when it makes an archive: it puts a document into memory, and goes
on below a node that points to it. -/
theorem rtAppend_made {store : Store ν} {m : Node} {name : Bytes} {index : Int} (noDot : dot ∉ name)
    (ok : 0 ≤ (rtAppend v store m (⟨name, index, .archive⟩ :: rest)).retval) :
    ∃ store₀ start, store₀.heap = (cjsonCreate store.heap .cjsonObject).1.addRoot
        (emptyDocument store.heap) ∧
      start.info.jsonptr = some (emptyDocument store.heap).addr ∧ start.scopeKey = fold name ∧
      start.info.jsl = .archive ∧ start.info.arraysize = 0 ∧
      (rtAppend v store m (⟨name, index, .archive⟩ :: rest)).store =
        (rtAppend v store₀ start rest).store ∧
      (rtAppend v store m (⟨name, index, .archive⟩ :: rest)).node =
        insertScope m (rtAppend v store₀ start rest).node ∧
      (rtAppend v store m (⟨name, index, .archive⟩ :: rest)).retval =
        (rtAppend v store₀ start rest).retval := by
  rw [rtAppend_archive] at ok ⊢
  split at ok
  · cases ok
  · rename_i fs fsSection slot
    split at ok
    · cases ok
    · rename_i archive made
      obtain ⟨named, level, _, _, size, ptr, _⟩ := archiveNode_spec noDot made
      refine ⟨{ store with
          fs := fs
          heap := (cjsonCreate store.heap .cjsonObject).1.addRoot (emptyDocument store.heap) },
        archive.setInfo fun info => { info with fsSection := fsSection }, rfl, ?_, ?_, ?_, ?_,
        rfl, rfl, rfl⟩
      · rw [Node.info_setInfo]
        exact ptr
      · rw [Node.scopeKey, Node.info_setInfo, named]
      · rw [Node.info_setInfo, level]
      · rw [Node.info_setInfo, size]

/-- What was appended with an archive of its own. -/
theorem rereads_make {m : Node} (h : Faithful world) (below : Below rest) (noDot : dot ∉ a)
    (there : (rootNode world.root).follow (.scope (fold d)) = some m)
    (missing : m.follow (.scope (fold a)) = none)
    (short : v.length < maxValueSize) (legal : ∀ s ∈ rest, s.jsl ≠ .array → LegalName s.name)
    (ok : 0 ≤ (rtAppend v world.store m (⟨a, -1, .archive⟩ :: rest)).retval)
    (tree : world' = world.modifyAt
      (fun _ => (rtAppend v world.store m (⟨a, -1, .archive⟩ :: rest)).node) [.scope (fold d)]
      (rtAppend v world.store m (⟨a, -1, .archive⟩ :: rest)).store)
    (after : Backed (fun _ _ => True) world') :
    Rereads world world' (⟨d, -1, .dir⟩ :: ⟨a, -1, .archive⟩ :: rest) v := by
  have dir := h.backed.regular.follow there
  have isDir : m.info.jsl = .dir := dir.here.stands
  obtain ⟨store₀, start, heap, ptr, key, level, size, store, node, answer⟩ := rtAppend_made noDot ok
  rw [answer] at ok
  rw [store, node] at tree
  subst tree
  have notArray : start.info.jsl ≠ .array := by simp [level]
  -- the new document, and what is put below it
  have root : emptyDocument world.store.heap ∈ store₀.heap.roots := by
    rw [heap]
    exact List.mem_append_right _ (List.mem_singleton_self _)
  obtain ⟨y, roots, denotes⟩ := appendsRead_of_below short below legal store₀ start
    (emptyDocument world.store.heap) (heap ▸ separate_addRoot h.backed.separate _)
    (List.mem_flatMap.mpr ⟨_, root, self_mem_items _⟩) ptr notArray size (fun _ _ => rfl) ok
  have info := (rtAppend_kept v store₀ start rest).2.2 notArray
  have file : (rootNode (world.modifyAt (fun _ => insertScope m (rtAppend v store₀ start rest).node)
      [.scope (fold d)] (rtAppend v store₀ start rest).store).root).getAt
      (archiveAt (fold d) (fold a)) = some (rtAppend v store₀ start rest).node := by
    rw [rootNode_modifyAt world _ (by simp), archive_dir there
      (by rw [Node.scopeKey, insertScope_info, Node.scopeKey]), if_pos rfl,
      follow_insertScope dir.here.ordered, scopeKey_rtAppend, key, if_pos rfl, missing]
    rfl
  have mem : (emptyDocument world.store.heap).update (emptyDocument world.store.heap).addr
      (setChild (· ++ [y])) ∈ (rtAppend v store₀ start rest).store.heap.roots := by
    rw [roots]
    exact List.mem_map_of_mem root
  have document := documentOf_of_root after file (by rw [info, ptr, addr_update]) mem
  obtain ⟨tree, loaded, reads⟩ := reloaded_reads after document
    (by rw [update_here, child_setChild]; exact denotes)
  refine ⟨d, a, rest, tree, rfl, loaded, fun q same => reads q (same.trans ?_)⟩
  have plain : (-1 : Int) ≠ jaSymAdd := by decide
  have notArray' : m.info.jsl ≠ .array := by simp [isDir]
  simp only [readKey, Option.bind_some, there, missing, if_neg plain, if_neg notArray']
  rfl

end Writes

section Updates
variable {world : World ν} {jrp : Jrp} {v : Bytes} {u : Updated ν}

/-- What the loader finds again: it takes the names of the key, which does not end at an object
item that shows the value, nor at a number that is printed otherwise. -/
structure Survives (world : World ν) (segms : List Segment) (v : Bytes) : Prop where
  names : ∀ segm ∈ segms.drop 2, segm.jsl ≠ .array → ldrOrganizeScopeName segm.name ≠ none
  free : ¬ ItemAlias world.root segms v
  prints : ∀ place c z, keyPlace (rootNode world.root) segms = some place →
    (rootNode world.root).getAt place = some c →
    c.info.jsonptr.bind world.store.heap.deref = some z → PrintsAs v c z

theorem roomy_of_backed {full : Bytes → Bytes → Prop} (h : Backed full world) :
    Roomy (rootNode world.root) := by
  intro q m there
  by_cases array : m.info.jsl = .array
  · have deep := Coherence.deep_of_level h.regular there (Or.inr array)
    obtain ⟨d, a, q', rfl⟩ := ChangeNotice.below_archive h.regular there (by omega)
    obtain ⟨D, x, stands, _⟩ := h.edit there
    exact stands.overlay.here.room
  · have own := (regular_at h.regular there).here
    have positive : (0 : Int) < jaSymLast := by decide
    rw [own.size, own.noItems array]
    exact positive

theorem legal_of_survives (accepted : AcceptedKey jrp.segm) (survives : Survives world jrp.segm v) :
    ∀ segm ∈ jrp.segm.drop 2, segm.jsl ≠ .array → LegalName segm.name := fun segm mem level =>
  Coherence.legalName_of_accepted
    (ItemNumbers.nameFits_of_accepted accepted segm (List.mem_of_mem_drop mem)).2
    (survives.names segm mem level)

/-- Every write that was not refused. -/
theorem rereads_update (h : Faithful world) (received : Catalog.Received jrp)
    (value : jrp.valuestring = some v) (keep : v ≠ keywordDeleted)
    (survives : Survives world jrp.segm v) (done : rtConfigUpdate world jrp = some u)
    (ok : 0 ≤ u.retval) : Rereads world u.world jrp.segm v := by
  have accepted := received.accepted
  have after := backed_update h.backed received done
  have roomy := roomy_of_backed h.backed
  have legal := legal_of_survives accepted survives
  have short : v.length < maxValueSize := by
    obtain ⟨payload, parsed⟩ := received
    exact ((acceptedKey_of_rtCreateJrp parsed).2 v value).2.2
  obtain ⟨d, a, rest, key⟩ : ∃ d a rest,
      jrp.segm = ⟨d, -1, .dir⟩ :: ⟨a, -1, .archive⟩ :: rest := by
    have shape := accepted
    generalize hs : jrp.segm = segms at shape
    cases shape with
    | @dir d fits =>
      have refused := (dir_refused h.backed.regular hs accepted value done).1
      exact absurd ok (Int.not_le.mpr refused)
    | archive fits fits' => exact ⟨_, _, _, rfl⟩
    | below fits fits' below => exact ⟨_, _, _, rfl⟩
  have noDot : dot ∉ a := received.noDot ⟨a, -1, .archive⟩ (by rw [key]; simp)
  have lower : rest = [] ∨ Below rest := below_of_accepted (key ▸ accepted)
  have inner : ∀ {segm : Segment} {left : List Segment}, segm :: left <:+ rest → Below rest := by
    rintro segm left suffix
    refine lower.resolve_left ?_
    rintro rfl
    cases List.suffix_nil.mp suffix
  have cases := update_cases h.backed.regular.built accepted value done
  rw [key] at survives legal ⊢
  have legal' : ∀ segm ∈ rest, segm.jsl ≠ .array → LegalName segm.name := legal
  -- the number at the place of the key
  have prints : ∀ {place : Path} {c : Node}, keyPlace (rootNode world.root)
      (⟨d, -1, .dir⟩ :: ⟨a, -1, .archive⟩ :: rest) = some place →
      (rootNode world.root).getAt place = some c → Prints world v c := by
    intro place c place' there z inHeap ptr
    refine survives.prints place c z place' there ?_
    rw [ptr, Option.bind_some]
    exact deref_of_mem h.backed.separate inHeap
  have startedOf : ∀ {path : Path} {passed : List Segment} {n : Node} {segm : Segment},
      Walks (rootNode world.root) (⟨d, -1, .dir⟩ :: ⟨a, -1, .archive⟩ :: rest) path passed n
        [segm] → path ≠ [] := by
    rintro path passed n segm walk rfl
    cases walk
  cases cases with
  | refused archive => cases ok
  | delete walk found target keyword => exact absurd keyword keep
  | @field path passed n c segm walk found level level' _ archive =>
    rw [key] at walk
    rcases place_of_walks walk (startedOf walk) with ⟨rfl, rfl, _⟩ | ⟨q, rfl, suffix⟩
    · have there := getAt_of_walks walk
      rw [Catalog.getAt_one] at there
      have stands : c.info.jsl = .archive :=
        ((h.backed.regular.follow there).follow found).here.stands
      rw [level] at stands
      cases stands
    · have place : keyPlace (rootNode world.root) (⟨d, -1, .dir⟩ :: ⟨a, -1, .archive⟩ :: rest) =
          some (archiveAt (fold d) (fold a) ++ q ++ [.scope (fold segm.name)]) := by
        rw [keyPlace_of_walks walk roomy]
        simp [keyPlace, found, level]
      exact rereads_field h walk (inner suffix) found level level' short
        (prints place (getAt_member walk found)) ok (by rw [List.append_assoc]) after
  | @item path passed n c segm walk found level level' place _ archive =>
    rw [key] at walk
    rcases place_of_walks walk (startedOf walk) with ⟨rfl, rfl, _⟩ | ⟨q, rfl, suffix⟩
    · cases level'
    have there := getAt_member walk found
    have room := roomy _ _ there
    rcases place with ⟨k, place⟩ | entire
    · obtain ⟨e, entered⟩ := placeOf_entered (regular_at h.backed.regular there).here.size place
      have notSize := (placeOf_symbols place room).1
      have keyed : keyPlace (rootNode world.root) (⟨d, -1, .dir⟩ :: ⟨a, -1, .archive⟩ :: rest) =
          some (archiveAt (fold d) (fold a) ++ q ++ [.scope (fold segm.name), .item k]) := by
        rw [keyPlace_of_walks walk roomy]
        simp [keyPlace, found, level, place, entered, notSize]
      have thereItem : (rootNode world.root).getAt
          (archiveAt (fold d) (fold a) ++ q ++ [.scope (fold segm.name), .item k]) = some e := by
        rw [getAt_append, getAt_of_walks walk, Option.bind_some, Node.getAt, found,
          Option.bind_some, Catalog.getAt_one, entered]
      exact rereads_item h walk (inner suffix) found level level' place entered short
        (prints keyed thereItem)
        (fun object same => survives.free ⟨_, e, keyed, thereItem, object, same⟩) ok
        (by rw [List.append_assoc]) after
    · have order : jaSymLast < jaSymEntire := by decide
      have none := rtArrayFieldUpdate_entire world.store v (Int.le_of_lt (room.trans order))
      rw [← entire] at none
      rw [none] at ok
      cases ok
  | @missing path passed left m segm walk started missing level noFile _ archive =>
    rw [key] at walk
    rcases place_of_walks walk started with ⟨rfl, rfl, rfl⟩ | ⟨q, rfl, suffix⟩
    · have there := getAt_of_walks walk
      rw [Catalog.getAt_one] at there
      have long := noFile (h.backed.regular.follow there).here.stands
      have below : Below left := by
        refine lower.resolve_left ?_
        rintro rfl
        rw [key] at long
        exact absurd long (Nat.lt_irrefl 2)
      exact rereads_make h below noDot there missing short legal' ok rfl after
    · exact rereads_missing h walk (inner suffix) missing (by simp [isLeaf, level.1, level.2]) short
        legal' ok rfl after
  | @extend path passed left m c segm walk found level level' next _ archive =>
    rw [key] at walk
    have started : path ≠ [] := by
      rintro rfl
      cases walk
      cases level'
    rcases place_of_walks walk started with ⟨rfl, rfl, _⟩ | ⟨q, rfl, suffix⟩
    · cases level'
    · exact rereads_extend h walk (inner suffix) found level level' next short legal' ok
        (by rw [List.append_assoc]) after

/-- An item under a name that the loader takes as it is. -/
def Named (_ : Addr) (string : Option Bytes) (kind : Kind ν) : Prop :=
  ∀ name, string = some name → memberName (.mk 0 string kind [] : Item ν) = some name

omit [DoubleText ν] in
theorem taken_iff {x : Item ν} : Taken x ↔ Named x.addr x.string x.kind := by
  cases x
  rfl

omit [DoubleText ν] in
theorem named_of_legal {a : Addr} {name : Bytes} {kind : Kind ν} (legal : LegalName name)
    (type : kind = .cjsonObject ∨ ∃ v, kind = .cjsonString v) : Named a (some name) kind := by
  intro other same
  obtain rfl := Option.some.inj same
  rcases type with rfl | ⟨v, rfl⟩
  · exact legal
  · exact legal

/-- The directory and the archive are no items of a document. -/
theorem mem_document {segms : List Segment} {segm : Segment} (accepted : AcceptedKey segms)
    (mem : segm ∈ segms) (notDir : segm.jsl ≠ .dir) (notArchive : segm.jsl ≠ .archive) :
    segm ∈ segms.drop 2 := by
  have lower : ∀ {name : Bytes} {level : Jsl} {rest : List Segment},
      level = .dir ∨ level = .archive →
      segm ∈ ⟨name, -1, level⟩ :: rest → segm ∈ rest := by
    intro name level rest high mem
    rcases List.mem_cons.mp mem with rfl | mem
    · exact (high.elim notDir notArchive).elim
    · exact mem
  cases accepted with
  | dir => exact absurd (lower (Or.inl rfl) mem) List.not_mem_nil
  | archive => exact absurd (lower (Or.inr rfl) (lower (Or.inl rfl) mem)) List.not_mem_nil
  | below => exact lower (Or.inr rfl) (lower (Or.inl rfl) mem)

/-- The names in the documents stay as the loader takes them. -/
theorem faithful_update (h : Faithful world) (received : Catalog.Received jrp)
    (survive : ∀ v, jrp.valuestring = some v → v ≠ keywordDeleted → Survives world jrp.segm v)
    (done : rtConfigUpdate world jrp = some u) : Faithful u.world := by
  refine ⟨backed_update h.backed received done, ?_⟩
  have accepted := received.accepted
  cases value : jrp.valuestring with
  | none =>
    rw [rtConfigUpdate, value] at done
    obtain rfl := Option.some.inj done
    exact h.taken
  | some v =>
    have each : Each Named world.store.heap := fun x mem => taken_iff.mp (h.taken x mem)
    have legal : v ≠ keywordDeleted → ∀ segm ∈ jrp.segm, segm.jsl ≠ .dir → segm.jsl ≠ .archive →
        segm.jsl ≠ .array → LegalName segm.name := fun keep segm mem notDir notArchive =>
      legal_of_survives accepted (survive v value keep) segm
        (mem_document accepted mem notDir notArchive)
    have after := Coherence.each_rtConfigUpdate h.backed each accepted value
      (fun keep => ⟨?_, ?_, ?_, ?_⟩) ?_ done
    · exact fun x mem => taken_iff.mpr (after x mem)
    · exact fun a _ => ⟨by rintro _ ⟨⟩, by rintro _ ⟨⟩, by rintro _ ⟨⟩⟩
    · intro a _ segm mem level
      exact named_of_legal (legal keep segm mem (by simp [level]) (by simp [level])
        (by simp [level])) (Or.inr ⟨v, rfl⟩)
    · intro a _ segm mem level
      exact named_of_legal (legal keep segm mem (by simp [level]) (by simp [level])
        (by simp [level])) (Or.inl rfl)
    · intro a _ segm mem level name same
      exact same
    · intro _ x mem string kind same new
      exact taken_of_new (y := .mk 0 string kind []) new (h.taken x mem) same

end Updates

open Transition LoadedTree SearchSound

section Runs
variable {images : List (DirImage ν)} {store : Store ν} {world : World ν}

/-- The documents of the archives are in memory, and no others, and the loader leaves nothing
out of them. -/
structure Started (images : List (DirImage ν)) (store : Store ν) : Prop where
  loaded : LoadedFrom True images store
  documents : ∀ D ∈ store.heap.roots, ∃ dir ∈ images, ∃ image ∈ dir.archives, image.document = D

theorem faithful_loaded (h : Started images store) : Faithful ⟨loadedRoot images, store⟩ := by
  refine ⟨backed_loaded h.loaded, fun x inHeap => ?_⟩
  obtain ⟨D, root, inside⟩ := List.mem_flatMap.mp inHeap
  obtain ⟨dir, hd, image, hi, rfl⟩ := h.documents D root
  have unnamed := h.loaded.root dir hd image hi
  have legible := h.loaded.legible dir hd image hi
  generalize image.document = j at inside unnamed legible
  -- down to the item, from the document, which has no name
  have down : ∀ j : Item ν, Legible True j → Taken j → ∀ x ∈ j.items, Taken x := by
    intro j
    induction j using Item.induct with
    | step j ih =>
      intro legible own x inside
      rw [items_eq, List.mem_cons] at inside
      rcases inside with rfl | below
      · exact own
      · obtain ⟨c, child, deep⟩ := List.mem_flatMap.mp below
        refine ih c child (legible.child child) (fun name named => ?_) x deep
        rw [memberName_legal named (legible.names j (self_mem_items j) c child name named),
          if_neg ((legible.whole trivial j (self_mem_items j)).2 c child)]
  refine down j legible (fun name named => ?_) x inside
  rw [unnamed] at named
  cases named

/-- The condition on a request, in the state where it comes. -/
def SurvivesIn (world : World ν) (jrp : Jrp) : Prop := ∀ v, jrp.valuestring = some v →
  v ≠ keywordDeleted → Survives world jrp.segm v

/-- What was written with success is read under its key when the documents are loaded again. -/
def KeepsWritten (world : World ν) (jrp : Jrp) : Prop := ∀ v u, jrp.valuestring = some v →
  v ≠ keywordDeleted → rtConfigUpdate world jrp = some u → 0 ≤ u.retval →
    Rereads world u.world jrp.segm v

/-- In every run of requests that meet the condition, each write outlasts a restart. -/
theorem writes_outlast_restart (start : Started images store) {requests : List Jrp}
    (received : ∀ jrp ∈ requests, Catalog.Received jrp)
    (survive : Along Coherence.update SurvivesIn ⟨loadedRoot images, store⟩ requests) :
    Along Coherence.update KeepsWritten ⟨loadedRoot images, store⟩ requests := by
  have both := along_and (along_of_forall received _) survive
  have faithful : Always Coherence.update Faithful ⟨loadedRoot images, store⟩ requests := by
    refine always_of_along ?_ (faithful_loaded start) both
    rintro world jrp world' h ⟨received, survives⟩ done
    obtain ⟨u, updated, rfl⟩ := Option.map_eq_some_iff.mp done
    exact faithful_update h received survives updated
  refine along_mono ?_ (along_and (along_of_always (fun _ _ h => h) faithful) both)
  rintro world jrp ⟨h, received, survives⟩ v u value keep done ok
  exact rereads_update h received value keep (survives v value keep) done ok

end Runs

section OneNumber

open ChangeNotice Coherence

theorem number_started : Started (oneArchive numberDocument) numberStore where
  loaded := number_loaded
  documents D root := by
    obtain rfl := List.mem_singleton.mp root
    exact ⟨_, List.mem_singleton_self _, _, List.mem_singleton_self _, rfl⟩

/-- `d.a.name=value` -/
def request (name value : Bytes) : Jrp where
  segm := [⟨ofChars ['d'], -1, .dir⟩, ⟨ofChars ['a'], -1, .archive⟩, ⟨name, -1, .field⟩]
  valuestring := some value
  dupkey := ofChars ['d', '.', 'a', '.'] ++ name
  dupvalue := value

def payload (name value : Bytes) : Bytes := (request name value).dupkey ++ 61 :: value

/-- What the request answers, and how its key is answered by the tree that is loaded then. -/
def seen (world : World Nat) (jrp : Jrp) : Option (Int × Option (Int × Bytes)) :=
  (rtConfigUpdate world jrp).map fun u => (u.retval,
    (reloaded u.world (ofChars ['d']) (ofChars ['a'])).map fun tree => rtSearch tree jrp)

theorem not_kept {world : World Nat} {name value : Bytes} {answer : Option (Int × Bytes)}
    (keep : value ≠ keywordDeleted) (shown : seen world (request name value) = some (0, answer))
    (same : readKey (some (rootNode world.root)) (request name value).segm =
      (request name value).segm) (differ : answer ≠ some (0, value)) :
    ¬ Along update KeepsWritten world [request name value] := by
  rintro ⟨kept, _⟩
  obtain ⟨u, done, parts⟩ := Option.map_eq_some_iff.mp shown
  obtain ⟨ok, answered⟩ := Prod.mk.inj parts
  obtain ⟨d, a, rest, tree, key, loaded, reads⟩ := kept value u rfl keep done (Int.le_of_eq ok.symm)
  obtain ⟨hd, key⟩ := List.cons.inj key
  obtain ⟨ha, _⟩ := List.cons.inj key
  obtain rfl : ofChars ['d'] = d := congrArg Segment.name hd
  obtain rfl : ofChars ['a'] = a := congrArg Segment.name ha
  have folded : fold (ofChars ['d']) = ofChars ['d'] ∧ fold (ofChars ['a']) = ofChars ['a'] := by
    decide +kernel
  rw [folded.1, folded.2] at loaded
  rw [loaded, Option.map_some, reads (request name value) same.symm] at answered
  exact differ answered.symm

/-- To `{"x":1}` a member is written whose name the loader refuses; and the number is given a
text that is not read back from it. -/
theorem not_always_kept :
    (¬ ∀ (images : List (DirImage Nat)) (store : Store Nat) (requests : List Jrp),
      Started images store → (∀ jrp ∈ requests, Catalog.Received jrp) →
      Along update KeepsWritten ⟨loadedRoot images, store⟩ requests) ∧
    ¬ Along update KeepsWritten numberWorld [request (ofChars ['x']) (ofChars ['2'])] := by
  constructor
  · intro claim
    refine @not_kept numberWorld (ofChars ['x', '$']) (ofChars ['1']) (some (-1, ofChars ['1']))
      (by decide +kernel) (by decide +kernel) (by decide +kernel) (by decide) (claim _ _ _
        number_started (List.forall_mem_singleton.mpr
          ⟨payload (ofChars ['x', '$']) (ofChars ['1']), by decide +kernel⟩))
  · exact @not_kept numberWorld (ofChars ['x']) (ofChars ['2'])
      (some (0, ofChars ['2', '.', '0', '0', '0'])) (by decide +kernel) (by decide +kernel)
      (by decide +kernel) (by decide)

/-- A key that leads nowhere yet. -/
theorem survivesIn_of_new {world : World Nat} {jrp : Jrp}
    (names : ∀ segm ∈ jrp.segm.drop 2, segm.jsl ≠ .array → ldrOrganizeScopeName segm.name ≠ none)
    (nowhere : keyPlace (rootNode world.root) jrp.segm = none) : SurvivesIn world jrp := by
  refine fun v _ _ => ⟨names, ?_, ?_⟩
  · rintro ⟨place, _, there, _⟩
    rw [nowhere] at there
    cases there
  · intro place _ _ there
    rw [nowhere] at there
    cases there

/-- `d.a.x=2.000` and `d.a.y=1`, written to `{"x":1}`. -/
theorem writes_outlast_restart_number : Along update KeepsWritten numberWorld
    [request (ofChars ['x']) (ofChars ['2', '.', '0', '0', '0']),
      request (ofChars ['y']) (ofChars ['1'])] := by
  refine writes_outlast_restart number_started ?_ ⟨?_, fun world done => ⟨?_, fun _ _ => trivial⟩⟩
  · rintro jrp mem
    rcases List.mem_pair.mp mem with rfl | rfl
    · exact ⟨payload (ofChars ['x']) (ofChars ['2', '.', '0', '0', '0']), by decide +kernel⟩
    · exact ⟨payload (ofChars ['y']) (ofChars ['1']), by decide +kernel⟩
  · intro v value _
    obtain rfl : ofChars ['2', '.', '0', '0', '0'] = v := Option.some.inj value
    have place : keyPlace (rootNode numberWorld.root) (request (ofChars ['x'])
        (ofChars ['2', '.', '0', '0', '0'])).segm =
        some (archiveAt (ofChars ['d']) (ofChars ['a']) ++ [.scope (ofChars ['x'])]) := by
      decide +kernel
    have field : ((rootNode numberWorld.root).getAt
        (archiveAt (ofChars ['d']) (ofChars ['a']) ++ [.scope (ofChars ['x'])])).map
        (fun c => (c.info.jsl, c.info.scopeValue)) =
        some (.field, ofChars ['1', '.', '0', '0', '0']) := by decide +kernel
    refine ⟨by decide +kernel, ?_, ?_⟩
    · rintro ⟨_, item, place', there, object, _⟩
      obtain rfl := Option.some.inj (place.symm.trans place')
      rw [there, Option.map_some, object] at field
      cases field
    · intro _ c z place' there _ r _
      obtain rfl := Option.some.inj (place.symm.trans place')
      rw [there, Option.map_some] at field
      rw [(Prod.mk.inj (Option.some.inj field)).2, if_neg (by decide)]
      decide +kernel
  · have nowhere : (update numberWorld (request (ofChars ['x'])
        (ofChars ['2', '.', '0', '0', '0']))).map (fun world => keyPlace (rootNode world.root)
          (request (ofChars ['y']) (ofChars ['1'])).segm) = some none := by decide +kernel
    refine survivesIn_of_new (by decide +kernel) ?_
    rw [done, Option.map_some] at nowhere
    exact Option.some.inj nowhere

end OneNumber

end Restart
