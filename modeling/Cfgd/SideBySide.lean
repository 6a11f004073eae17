import Cfgd.Backing
import Cfgd.HeapGrowth
import Cfgd.Saving

/-!
# A tree and its documents

Every archive has a document of its own in memory, and the nodes below the archive stand
over the items of the document. What an update writes to a node and to the item under it
leaves all of that as it was.
-/

namespace SideBySide

open AvlTree CText CJson Item Request ConfigNode Loader FsImage Runtime DocTree DeleteRange
open KeyShape Reach UpdateCases HeapEdit HeapGrowth AppendSteps RegularTree Levels Backing

variable {ν : Type} [DoubleText ν]

/-- Where the archive with these two keys is. -/
abbrev archiveAt (d a : Bytes) : Path := [.scope d, .scope a]

/-- The node of an archive over its document. -/
structure Filed (full : Prop) (heap : Heap ν) (archive : Node) (D : Item ν) : Prop where
  root : D ∈ heap.roots
  overlay : Over full heap.nextAddr archive D
  parentptr : archive.info.jsonparentptr = none
  object : D.kind = .cjsonObject
  unnamed : D.string = none

/-- The documents under a tree; `full` says in which archives nothing of the document is
left out of the tree. -/
structure Backed (full : Bytes → Bytes → Prop) (world : World ν) : Prop where
  regular : Regular 0 (rootNode world.root)
  separate : Separate world.store.heap
  filed : ∀ d a archive, (rootNode world.root).getAt (archiveAt d a) = some archive →
    ∃ D, Filed (full d a) world.store.heap archive D
  apart : ∀ d a d' a' archive archive',
    (rootNode world.root).getAt (archiveAt d a) = some archive →
    (rootNode world.root).getAt (archiveAt d' a') = some archive' →
    archive.info.jsonptr = archive'.info.jsonptr → d = d' ∧ a = a'

section Places
variable {world : World ν} {full : Bytes → Bytes → Prop} {d a : Bytes} {q : Path} {m : Node}

/-- What is said once in all lists is said by one of them. -/
theorem eq_of_shared {α β : Type} {l : List α} {f : α → List β} (nodup : (l.flatMap f).Nodup)
    {x y : α} (mem : x ∈ l) (mem' : y ∈ l) {b : β} (inside : b ∈ f x) (inside' : b ∈ f y) :
    y = x := by
  obtain ⟨before, after, rfl⟩ := List.append_of_mem mem
  rw [List.flatMap_append, List.flatMap_cons, List.nodup_append', List.nodup_append'] at nodup
  obtain ⟨_, ⟨_, _, late⟩, early⟩ := nodup
  rw [List.mem_append, List.mem_cons] at mem'
  rcases mem' with earlier | rfl | later
  · exact absurd (List.mem_append_left _ inside)
      (early (List.mem_flatMap.mpr ⟨y, earlier, inside'⟩))
  · rfl
  · exact absurd (List.mem_flatMap.mpr ⟨y, later, inside'⟩) (late inside)

/-- Which node is at the place of an archive after a write below one. -/
theorem archive_modifyAt {n m' : Node} (there : n.getAt (archiveAt d a ++ q) = some m)
    (key : m'.scopeKey = m.scopeKey) (d' a' : Bytes) :
    (n.modifyAt (fun _ => m') (archiveAt d a ++ q)).getAt (archiveAt d' a') =
      if d' = d ∧ a' = a then (n.getAt (archiveAt d a)).map fun archive =>
        archive.modifyAt (fun _ => m') q
      else n.getAt (archiveAt d' a') := by
  have keeps : ∀ x, n.getAt (archiveAt d a ++ q) = some x → m'.scopeKey = x.scopeKey := by
    intro x hx
    obtain rfl := Option.some.inj (there.symm.trans hx)
    exact key
  have below : ∀ c, n.follow (.scope d) = some c → ∀ x, c.getAt (.scope a :: q) = some x →
      m'.scopeKey = x.scopeKey := by
    intro c hc x hx
    refine keeps x ?_
    rw [List.cons_append, Node.getAt, hc]
    exact hx
  have top := @follow_modifyAt n (fun _ => m') (.scope d) (.scope a :: q) keeps (.scope d')
  simp only [List.cons_append, List.nil_append, Node.getAt] at top ⊢
  rw [top]
  by_cases dir : d' = d
  · subst dir
    rw [if_pos rfl]
    cases hc : n.follow (.scope d') with
    | none => simp
    | some c =>
      rw [Option.map_some, Option.bind_some, Option.bind_some]
      rw [@follow_modifyAt c (fun _ => m') (.scope a) q (below c hc) (.scope a')]
      by_cases file : a' = a
      · subst file
        rw [if_pos rfl, if_pos ⟨rfl, rfl⟩]
        cases c.follow (.scope a') <;> rfl
      · rw [if_neg fun same => file (Step.scope.inj same), if_neg fun same => file same.2]
        rfl
  · rw [if_neg fun same => dir (Step.scope.inj same), if_neg fun same => dir same.1]

omit [DoubleText ν] in
/-- A write to memory that keeps the addresses apart. -/
theorem separate_setChild {heap heap' : Heap ν} (separate : Separate heap) {x : Item ν}
    (inHeap : x ∈ heap.roots.flatMap items) {g : List (Item ν) → List (Item ν)}
    (later : heap.nextAddr ≤ heap'.nextAddr)
    (roots : heap'.roots = heap.roots.map (Item.update x.addr (setChild g)))
    (nodup : (x.setChild g).addrs.Nodup)
    (fresh : ∀ b ∈ (x.setChild g).addrs, b ∈ x.addrs ∨
      (heap.nextAddr ≤ b ∧ b < heap'.nextAddr)) : Separate heap' := by
  obtain ⟨fill, rest, hole⟩ := hole_of_mem inHeap
  have after := separate_fill hole separate later nodup fresh
  rw [← hole.update_self separate.apart, ← roots] at after
  exact after

/-- A node below an archive, and the item that it stands over. -/
structure Stands (full : Bytes → Bytes → Prop) (world : World ν) (d a : Bytes) (q : Path)
    (m : Node) (D x : Item ν) : Prop where
  root : D ∈ world.store.heap.roots
  archive : ∃ archive, (rootNode world.root).getAt (archiveAt d a) = some archive ∧
    archive.info.jsonptr = some D.addr
  inside : x ∈ D.items
  overlay : Over (full d a) world.store.heap.nextAddr m x
  document : q = [] → x = D
  tells : q ≠ [] → Tells m x

theorem Stands.inHeap {D x : Item ν} (h : Stands full world d a q m D x) :
    x ∈ world.store.heap.roots.flatMap items := List.mem_flatMap.mpr ⟨D, h.root, h.inside⟩

/-- When the node and the item under it are changed together, the rest of the tree stands
over what it stood over. -/
def Absorbs (full : Bytes → Bytes → Prop) (world : World ν) (d a : Bytes) (q : Path) (m : Node)
    (x : Item ν) : Prop :=
  ∀ (m' : Node) (g : List (Item ν) → List (Item ν)) (store' : Store ν), Replaces m m' →
    world.store.heap.nextAddr ≤ store'.heap.nextAddr →
    store'.heap.roots = world.store.heap.roots.map (Item.update x.addr (setChild g)) →
    (x.setChild g).addrs.Nodup →
    (∀ b ∈ (x.setChild g).addrs, b ∈ x.addrs ∨
      (world.store.heap.nextAddr ≤ b ∧ b < store'.heap.nextAddr)) →
    Over (full d a) store'.heap.nextAddr m' (x.setChild g) →
    Regular 0 (rootNode (world.modifyAt (fun _ => m') (archiveAt d a ++ q) store').root) →
    Backed full (world.modifyAt (fun _ => m') (archiveAt d a ++ q) store')

/-- Every node below an archive stands over an item. -/
theorem Backed.edit (h : Backed full world)
    (there : (rootNode world.root).getAt (archiveAt d a ++ q) = some m) :
    ∃ D x, Stands full world d a q m D x ∧ Absorbs full world d a q m x := by
  have further := there
  rw [getAt_append] at further
  obtain ⟨archive, hArchive, below⟩ := Option.bind_eq_some_iff.mp further
  obtain ⟨D, file⟩ := h.filed d a archive hArchive
  have nodupD : D.addrs.Nodup := (List.nodup_flatMap.mp h.separate.apart).1 D file.root
  obtain ⟨x, inside, overlay, document, tells, change⟩ := over_at file.overlay nodupD below
  have stands : Stands full world d a q m D x :=
    ⟨file.root, ⟨archive, hArchive, file.overlay.here.linked.ptr⟩, inside, overlay, document, tells⟩
  refine ⟨D, x, stands, ?_⟩
  intro m' g store' replaces later roots nodup fresh overlay' regular'
  have same : rootNode (world.modifyAt (fun _ => m') (archiveAt d a ++ q) store').root =
      (rootNode world.root).modifyAt (fun _ => m') (archiveAt d a ++ q) :=
    rootNode_modifyAt world _ (by simp) store'
  have key : m'.scopeKey = m.scopeKey := by rw [Node.scopeKey, Node.scopeKey, replaces.scopeName]
  have after := archive_modifyAt there key
  have elsewhere : ∀ D' ∈ world.store.heap.roots, D' ≠ D →
      D'.update x.addr (setChild g) = D' := by
    intro D' mem other
    refine update_of_not_mem _ fun inside' => other ?_
    exact eq_of_shared h.separate.apart file.root mem (items_addrs inside) inside'
  have pointer : (archive.modifyAt (fun _ => m') q).info.jsonptr = archive.info.jsonptr ∧
      (archive.modifyAt (fun _ => m') q).info.jsonparentptr = archive.info.jsonparentptr := by
    cases q with
    | nil =>
      obtain rfl := Option.some.inj below
      obtain rfl := document rfl
      refine ⟨?_, replaces.parentptr⟩
      rw [Node.modifyAt, overlay'.here.linked.ptr, addr_setChild, file.overlay.here.linked.ptr]
    | cons s rest => rw [modifyAt_info]; exact ⟨rfl, rfl⟩
  refine ⟨regular', separate_setChild h.separate stands.inHeap later roots nodup fresh, ?_, ?_⟩
  · intro d' a' archive' hArchive'
    rw [same, after] at hArchive'
    split at hArchive'
    · rename_i here
      obtain ⟨rfl, rfl⟩ := here
      rw [hArchive, Option.map_some, Option.some.injEq] at hArchive'
      subst hArchive'
      refine ⟨D.update x.addr (setChild g), ?_, ?_, ?_, ?_, ?_⟩
      · change _ ∈ store'.heap.roots
        rw [roots]
        exact List.mem_map_of_mem file.root
      · exact change _ m' g later replaces overlay'
      · rw [pointer.2, file.parentptr]
      · rw [kind_update, file.object]
      · rw [string_update, file.unnamed]
    · rename_i other
      obtain ⟨D', file'⟩ := h.filed d' a' archive' hArchive'
      have different : D' ≠ D := by
        rintro rfl
        refine other (h.apart d' a' d a archive' archive hArchive' hArchive ?_)
        rw [file'.overlay.here.linked.ptr, file.overlay.here.linked.ptr]
      refine ⟨D', ?_, file'.overlay.mono later, file'.parentptr, file'.object, file'.unnamed⟩
      change _ ∈ store'.heap.roots
      rw [roots, ← elsewhere D' file'.root different]
      exact List.mem_map_of_mem file'.root
  · have pointers : ∀ d' a' archive',
        (rootNode (world.modifyAt (fun _ => m') (archiveAt d a ++ q) store').root).getAt
          (archiveAt d' a') = some archive' →
        ∃ old, (rootNode world.root).getAt (archiveAt d' a') = some old ∧
          old.info.jsonptr = archive'.info.jsonptr := by
      intro d' a' archive' hArchive'
      rw [same, after] at hArchive'
      split at hArchive'
      · rename_i here
        obtain ⟨rfl, rfl⟩ := here
        rw [hArchive, Option.map_some, Option.some.injEq] at hArchive'
        subst hArchive'
        exact ⟨archive, hArchive, pointer.1.symm⟩
      · exact ⟨archive', hArchive', rfl⟩
    intro d₁ a₁ d₂ a₂ archive₁ archive₂ h₁ h₂ equal
    obtain ⟨old₁, there₁, ptr₁⟩ := pointers d₁ a₁ archive₁ h₁
    obtain ⟨old₂, there₂, ptr₂⟩ := pointers d₂ a₂ archive₂ h₂
    exact h.apart d₁ a₁ d₂ a₂ old₁ old₂ there₁ there₂ (by rw [ptr₁, ptr₂, equal])

end Places

section Effects
variable (world : World ν) (d a v : Bytes) (world' : World ν)

/-- The document of an archive. -/
def documentOf : Option (Item ν) :=
  ((rootNode world.root).getAt (archiveAt d a)).bind fun archive =>
    archive.info.jsonptr.bind world.store.heap.deref

/-- The type of an item that takes the place of another one, and its value. -/
inductive NewKind : Kind ν → Kind ν → Prop where
  | string (old : Bytes) : NewKind (.cjsonString old) (.cjsonString v)
  | number (old : ν) : NewKind (.cjsonNumber old) (.cjsonNumber (DoubleText.atof v))

/-- The document before and after a write to the children of one item. -/
structure Rewrites (D x : Item ν) (g : List (Item ν) → List (Item ν)) : Prop where
  before : documentOf world d a = some D
  inside : x ∈ D.items
  nodup : D.addrs.Nodup
  after : documentOf world' d a = some (D.update x.addr (setChild g))

/-- What an update does to an archive and its document. -/
inductive DocEffect (retval : Int) : Prop where
  | settled (other : retval ≠ 0) (tree : rootNode world'.root = rootNode world.root)
      (heap : world'.store.heap = world.store.heap) : DocEffect retval
  /-- The item of a value is replaced. -/
  | value {D x y z f : Item ν} {before after : List (Item ν)} {p : Path} {s : Step} {c : Node}
      (rewrites : Rewrites world d a world' D x fun _ => before ++ y :: after)
      (split : x.child = before ++ f :: after) (place : At s before f) (seat : Seat x s z)
      (there : (rootNode world.root).getAt (archiveAt d a ++ (p ++ [s])) = some c)
      (tells : Tells c z) (ptr : c.info.jsonptr = some z.addr) (kind : NewKind v z.kind y.kind)
      (other : c.info.scopeValue ≠ v)
      (there' : (rootNode world'.root).getAt (archiveAt d a ++ (p ++ [s])) =
        some (setValue v y.addr c)) : DocEffect retval
  | grown {D x y : Item ν} (rewrites : Rewrites world d a world' D x (· ++ [y])) :
      DocEffect retval
  | cut {D x : Item ν} {g : List (Item ν) → List (Item ν)}
      (rewrites : Rewrites world d a world' D x g)
      (fewer : (g x.child).length < x.child.length) : DocEffect retval
  | made (before : (rootNode world.root).getAt (archiveAt d a) = none)
      (after : (rootNode world'.root).getAt (archiveAt d a) ≠ none) : DocEffect retval
  | removed (before : (rootNode world.root).getAt (archiveAt d a) ≠ none)
      (after : (rootNode world'.root).getAt (archiveAt d a) = none) : DocEffect retval

end Effects

section Values
variable {world : World ν} {full : Bytes → Bytes → Prop} {d a : Bytes} {q : Path} {n c : Node}
variable {v : Bytes}

theorem newOne_spec {heap heap' : Heap ν} {ptr : Addr} {y item : Item ν}
    (there : heap.deref ptr = some y) (made : newOne heap (some ptr) v = some (heap', item)) :
    ∃ kind, NewKind v y.kind kind ∧ heap' = { heap with nextAddr := heap.nextAddr + 1 } ∧
      item = .mk heap.nextAddr none kind [] := by
  rw [newOne, Option.bind_some, there, Option.map_some] at made
  split at made
  · rename_i s same
    obtain ⟨rfl, rfl⟩ := Prod.mk.inj (Option.some.inj made)
    rw [Option.some.inj same]
    exact ⟨_, .string s, rfl, rfl⟩
  · rename_i r same
    obtain ⟨rfl, rfl⟩ := Prod.mk.inj (Option.some.inj made)
    rw [Option.some.inj same]
    exact ⟨_, .number r, rfl, rfl⟩
  · cases made

/-- Only values are replaced, and they stay values. -/
theorem NewKind.level {y y' : Item ν} (kind : NewKind v y.kind y'.kind)
    (string : y'.string.isSome = y.string.isSome) :
    isLeaf (itemJsl y) = true ∧ itemJsl y' = itemJsl y := by
  obtain ⟨_, name, k, _⟩ := y
  obtain ⟨_, name', k', _⟩ := y'
  cases kind with
  | string => cases name <;> cases name' <;> simp_all [itemJsl, isLeaf]
  | number => cases name <;> cases name' <;> simp_all [itemJsl, isLeaf]

/-- The node of a value over the item that takes the place of its own. -/
theorem over_setValue {F : Prop} {next next' : Nat} {y y' : Item ν} (tells : Tells c y)
    (overlay : Over F next c y) (kind : NewKind v y.kind y'.kind)
    (string : y'.string.isSome = y.string.isSome) (child : y'.child = [])
    (short : v.length < maxValueSize) :
    Tells (setValue v y'.addr c) y' ∧ Over F next' (setValue v y'.addr c) y' := by
  obtain ⟨isValue, level⟩ := kind.level string
  rw [← tells.jsl] at isValue
  constructor
  · refine ⟨?_, fun s string => ?_⟩
    · rw [level, ← tells.jsl, setValue, Node.info_setInfo]
    · have same : s = v := by
        rw [string] at kind
        generalize y.kind = k at kind
        cases kind
        rfl
      rw [setValue, Node.info_setInfo, valueText, string, same]
      exact (PlainDoc.limitValue_short short).symm
  · have nowhere := overlay.nowhere (overlay.here.leaf isValue)
    have linked := overlay.here.linked
    have none : c.array = [] := by
      have first := List.getElem?_eq_none_iff.mp (nowhere (.item 0))
      exact List.length_eq_zero_iff.mp (Nat.le_zero.mp first)
    refine over_leaf (by simp [setValue]) ?_ (by simpa [setValue] using linked.ordered) ?_ child
      (by simpa [setValue] using overlay.here.known)
    · have size := linked.size
      rw [none] at size
      simpa [setValue] using size
    · intro s
      rw [setValue, follow_setInfo]
      exact nowhere s

omit [DoubleText ν] in
/-- A write to a child of a node is a write to the node. -/
theorem modifyAt_child {p : Path} (there : (rootNode world.root).getAt p = some n) (c' : Node)
    (s : Step) (store : Store ν) : world.modifyAt (fun _ => c') (p ++ [s]) store =
      world.modifyAt (fun _ => n.modifyAt (fun _ => c') [s]) p store := by
  rw [World.modifyAt, World.modifyAt, modifyAt_append]
  refine congrArg (fun root => (⟨Node.nextScope root, store⟩ : World ν))
    (modifyAt_congr fun m hm => ?_)
  obtain rfl := Option.some.inj (there.symm.trans hm)
  rfl

omit [DoubleText ν] in
/-- A child of an item that takes the place of one, in a list that was apart. -/
theorem apart_set {x f y : Item ν} {before after : List (Item ν)} {next : Addr}
    (nodup : x.addrs.Nodup) (below : ∀ b ∈ x.addrs, b < next)
    (split : x.child = before ++ f :: after) (addrs : y.addrs = [next]) :
    (x.setChild fun _ => before ++ y :: after).addrs.Nodup ∧
      ∀ b ∈ (x.setChild fun _ => before ++ y :: after).addrs, b ∈ x.addrs ∨ b = next := by
  have same : (x.setChild fun _ => before ++ y :: after).addrs =
      x.addr :: (before.flatMap Item.addrs ++ next :: after.flatMap Item.addrs) := by
    rw [addrs_eq, addr_setChild, child_setChild, List.flatMap_append, List.flatMap_cons, addrs]
    rfl
  have old :
      (x.addr :: (before.flatMap Item.addrs ++ after.flatMap Item.addrs)).Sublist x.addrs := by
    rw [addrs_eq x, split, List.flatMap_append, List.flatMap_cons]
    exact ((List.sublist_append_right ..).append_left _).cons_cons _
  have perm : (x.addr :: (before.flatMap Item.addrs ++ next :: after.flatMap Item.addrs)).Perm
      (next :: (x.addr :: (before.flatMap Item.addrs ++ after.flatMap Item.addrs))) :=
    (List.perm_middle.cons _).trans (List.Perm.swap ..)
  rw [same]
  constructor
  · rw [perm.nodup_iff, List.nodup_cons]
    exact ⟨fun mem => absurd (below next (old.subset mem)) (Nat.lt_irrefl _), nodup.sublist old⟩
  · intro b mem
    rcases List.mem_cons.mp (perm.subset mem) with rfl | mem
    · exact Or.inr rfl
    · exact Or.inl (old.subset mem)

/-- The document that a node below an archive stands in. -/
theorem documentOf_stands (h : Backed full world) {m : Node} {D x : Item ν}
    (stands : Stands full world d a q m D x) : documentOf world d a = some D := by
  obtain ⟨archive, hArchive, pointer⟩ := stands.archive
  rw [documentOf, hArchive, Option.bind_some, pointer, Option.bind_some]
  exact deref_of_mem h.separate (List.mem_flatMap.mpr ⟨D, stands.root, self_mem_items D⟩)

/-- Both documents of a write to an item below an archive. -/
theorem rewrites_of_edit (h : Backed full world) {m m' : Node} {D x : Item ν}
    (stands : Stands full world d a q m D x)
    (there : (rootNode world.root).getAt (archiveAt d a ++ q) = some m) {store' : Store ν}
    (key : m'.scopeKey = m.scopeKey) (ptr : m'.info.jsonptr = m.info.jsonptr)
    {g : List (Item ν) → List (Item ν)}
    (roots : store'.heap.roots = world.store.heap.roots.map (Item.update x.addr (setChild g)))
    (after : Backed full (world.modifyAt (fun _ => m') (archiveAt d a ++ q) store')) :
    Rewrites world d a (world.modifyAt (fun _ => m') (archiveAt d a ++ q) store') D x g := by
  obtain ⟨archive, hArchive, pointer⟩ := stands.archive
  refine ⟨documentOf_stands h stands, stands.inside,
    (List.nodup_flatMap.mp h.separate.apart).1 D stands.root, ?_⟩
  have further := there
  rw [getAt_append, hArchive, Option.bind_some] at further
  have pointer' : (archive.modifyAt (fun _ => m') q).info.jsonptr = some D.addr := by
    cases q with
    | nil =>
      obtain rfl := Option.some.inj further
      exact ptr.trans pointer
    | cons s rest => rw [modifyAt_info, pointer]
  rw [documentOf, rootNode_modifyAt world _ (by simp) store', archive_modifyAt there key,
    if_pos ⟨rfl, rfl⟩, hArchive, Option.map_some, Option.bind_some, pointer', Option.bind_some]
  have mem : D.update x.addr (setChild g) ∈ store'.heap.roots := by
    rw [roots]
    exact List.mem_map_of_mem stands.root
  have found := deref_of_mem after.separate
    (List.mem_flatMap.mpr ⟨_, mem, self_mem_items _⟩)
  rwa [addr_update] at found

omit [DoubleText ν] in
/-- A write that is the same at one item is the same in memory. -/
theorem update_congr {heap : Heap ν} (separate : Separate heap) {x : Item ν}
    (inHeap : x ∈ heap.roots.flatMap items) {g g' : List (Item ν) → List (Item ν)}
    (same : g x.child = g' x.child) :
    heap.roots.map (Item.update x.addr (setChild g)) =
      heap.roots.map (Item.update x.addr (setChild g')) := by
  obtain ⟨fill, rest, hole⟩ := hole_of_mem inHeap
  rw [hole.update_self separate.apart, hole.update_self separate.apart]
  exact congrArg fill (setChild_congr same)

/-- A child of an item gives its place to an item with the new value. -/
structure Replacing (full : Bytes → Bytes → Prop) (world : World ν) (d a v : Bytes) (q : Path)
    (n c : Node) (s : Step) (heap' : Heap ν) (D x z f y : Item ν) (before after : List (Item ν)) :
    Prop where
  stands : Stands full world d a q n D x
  absorbs : Absorbs full world d a q n x
  seat : Seat x s z
  tells : Tells c z
  overlay : Over (full d a) world.store.heap.nextAddr c z
  split : x.child = before ++ f :: after
  place : At s before f
  kind : NewKind v z.kind y.kind
  addr : y.addr = world.store.heap.nextAddr
  child : y.child = []
  named : y.string.map fold = f.string.map fold
  other : c.info.scopeValue ≠ v
  next : heap'.nextAddr = world.store.heap.nextAddr + 1
  roots : heap'.roots = world.store.heap.roots.map
    (Item.update x.addr (setChild fun _ => before ++ y :: after))

/-- A value is replaced, in its node and in the document. -/
theorem value_rewrites (h : Backed full world) {D x y z f : Item ν} {before after : List (Item ν)}
    {s : Step} (there : (rootNode world.root).getAt (archiveAt d a ++ q) = some n)
    (found : n.follow s = some c) {store' : Store ν}
    (replacing : Replacing full world d a v q n c s store'.heap D x z f y before after)
    (short : v.length < maxValueSize)
    (regular : Regular 0 (rootNode (world.modifyAt (fun _ => setValue v y.addr c)
      (archiveAt d a ++ (q ++ [s])) store').root)) :
    let world' := world.modifyAt (fun _ => setValue v y.addr c) (archiveAt d a ++ (q ++ [s])) store'
    Backed full world' ∧ Rewrites world d a world' D x fun _ => before ++ y :: after := by
  intro world'
  obtain ⟨stands, absorbs, seat, tells, overlay, split, place, kind, addr, child, named, other,
    next, roots⟩ := replacing
  have same : world' = world.modifyAt (fun _ => n.modifyAt (fun _ => setValue v y.addr c) [s])
      (archiveAt d a ++ q) store' := by
    rw [← modifyAt_child there, List.append_assoc]
  have sameString : f.string.isSome = z.string.isSome ∧ y.string.isSome = f.string.isSome := by
    have strings : y.string.isSome = f.string.isSome := by
      have same := congrArg Option.isSome named
      simpa using same
    refine ⟨?_, strings⟩
    cases s with
    | item i => rw [place.2, seat.2]
    | scope key =>
      have same : f.string.map fold = z.string.map fold := place.trans seat.2.symm
      simpa using congrArg Option.isSome same
  obtain ⟨tells', overlay'⟩ :=
    @over_setValue ν _ c v _ _ store'.heap.nextAddr z y tells overlay kind
    (by rw [sameString.2, sameString.1]) child short
  have addrs : y.addrs = [world.store.heap.nextAddr] := by
    rw [addrs_eq, child, addr]
    rfl
  have document := (List.nodup_flatMap.mp h.separate.apart).1 D stands.root
  have inHeap := stands.inHeap
  obtain ⟨fill, rest, hole⟩ := hole_of_mem inHeap
  have nodup := (hole.nodup h.separate.apart).1
  have bound : ∀ b ∈ x.addrs, b < world.store.heap.nextAddr := by
    intro b hb
    refine h.separate.below b ?_
    have perm := hole.addrs x
    rw [hole.self] at perm
    exact perm.mem_iff.mpr (List.mem_append_left _ hb)
  obtain ⟨apart, fresh⟩ := apart_set nodup bound split addrs
  have linked := stands.overlay.here.linked
  have swapped : Swapped n s (setValue v y.addr c)
      (n.modifyAt (fun _ => setValue v y.addr c) [s]) :=
    @swapped_modifyAt n c s (fun _ => setValue v y.addr c) [] linked.ordered found
      (by simp [Node.modifyAt, setValue, Node.scopeKey]) (by simp [Node.modifyAt, setValue])
  have later : world.store.heap.nextAddr < store'.heap.nextAddr := by
    rw [next]
    exact Nat.lt_succ_self _
  have backed : Backed full world' := by
    rw [same]
    refine absorbs _ (fun _ => before ++ y :: after) store' (.of_info modifyAt_info)
      (Nat.le_of_lt later) roots apart ?_ ?_ (by rw [← same]; exact regular)
    · intro b hb
      rcases fresh b hb with old | rfl
      · exact Or.inl old
      · exact Or.inr ⟨Nat.le_refl _, later⟩
    · refine over_swapped (stands.overlay.mono (Nat.le_of_lt later)) found split place swapped named
        ?_ ?_ tells' overlay'
      · intro unnamed
        simpa [unnamed] using sameString.2
      · rw [setValue, Node.info_setInfo]
        exact linked.below s c found
  refine ⟨backed, ?_⟩
  rw [same] at backed ⊢
  exact rewrites_of_edit h stands there (by rw [Node.scopeKey, modifyAt_info, Node.scopeKey])
    (by rw [modifyAt_info]) roots backed

theorem value_effect (h : Backed full world) {D x y z f : Item ν} {before after : List (Item ν)}
    {s : Step} (there : (rootNode world.root).getAt (archiveAt d a ++ q) = some n)
    (found : n.follow s = some c) {store' : Store ν}
    (replacing : Replacing full world d a v q n c s store'.heap D x z f y before after)
    (short : v.length < maxValueSize)
    (regular : Regular 0 (rootNode (world.modifyAt (fun _ => setValue v y.addr c)
      (archiveAt d a ++ (q ++ [s])) store').root)) (retval : Int) :
    let world' := world.modifyAt (fun _ => setValue v y.addr c) (archiveAt d a ++ (q ++ [s])) store'
    Backed full world' ∧ DocEffect world d a v world' retval := by
  intro world'
  obtain ⟨backed, rewrites⟩ := value_rewrites h there found replacing short regular
  have written : (rootNode world.root).getAt (archiveAt d a ++ (q ++ [s])) = some c := by
    rw [← List.append_assoc]
    exact getAt_snoc there found
  have after' : (rootNode world'.root).getAt (archiveAt d a ++ (q ++ [s])) =
      some (setValue v y.addr c) := by
    rw [rootNode_modifyAt world _ (by simp) store']
    exact getAt_modifyAt written (by simp [setValue, Node.scopeKey])
  exact ⟨backed, .value rewrites replacing.split replacing.place replacing.seat written
    replacing.tells replacing.overlay.here.linked.ptr replacing.kind replacing.other after'⟩

theorem backed_congr {world' : World ν} (h : Backed full world)
    (tree : rootNode world'.root = rootNode world.root)
    (heap : world'.store.heap = world.store.heap) : Backed full world' := by
  obtain ⟨regular, separate, filed, apart⟩ := h
  refine ⟨?_, ?_, ?_, ?_⟩
  · rwa [tree]
  · rwa [heap]
  · rwa [tree, heap]
  · rwa [tree]

theorem settled_effect (h : Backed full world) {world' : World ν} {retval : Int}
    (other : retval ≠ 0) (tree : rootNode world'.root = rootNode world.root)
    (heap : world'.store.heap = world.store.heap) :
    Backed full world' ∧ DocEffect world d a v world' retval :=
  ⟨backed_congr h tree heap, .settled other tree heap⟩

/-- The item of a child stands in memory. -/
theorem child_inHeap {D x z : Item ν} (stands : Stands full world d a q n D x)
    (child : z ∈ x.child) : z ∈ world.store.heap.roots.flatMap items :=
  List.mem_flatMap.mpr ⟨D, stands.root,
    items_trans stands.inside (mem_items_of_child child (self_mem_items z))⟩

omit [DoubleText ν] in
theorem named_iff {name : Bytes} {x : Item ν} :
    x.named name = true ↔ x.string.map fold = some (fold name) := by
  rw [Item.named]
  cases x.string <;> simp

omit [DoubleText ν] in
/-- The first member of a name. -/
theorem split_named {l : List (Item ν)} {name : Bytes} {z : Item ν} (mem : z ∈ l)
    (named : z.string.map fold = some (fold name)) : ∃ before f after, l = before ++ f :: after ∧
      f.string.map fold = some (fold name) ∧ l.find? (Item.named name) = some f ∧
      ∀ y, l.set (l.findIdx (Item.named name)) y = before ++ y :: after := by
  have there : (l.find? (Item.named name)).isSome = true :=
    List.find?_isSome.mpr ⟨z, mem, named_iff.mpr named⟩
  obtain ⟨f, found⟩ := Option.isSome_iff_exists.mp there
  obtain ⟨isNamed, before, after, split, others⟩ := List.find?_eq_some_iff_append.mp found
  have place : l.findIdx (Item.named name) = before.length := by
    rw [split, List.findIdx_append]
    have none : before.findIdx (Item.named name) = before.length := by
      rw [List.findIdx_eq_length]
      intro b hb
      simpa using others b hb
    simp [none, List.findIdx_cons, isNamed]
  refine ⟨before, f, after, split, named_iff.mp isNamed, found, fun y => ?_⟩
  rw [place, split]
  simp

/-- What `rt_field_update` writes below an archive. -/
theorem rtFieldUpdate_replaces (h : Backed full world) {key : Bytes}
    (there : (rootNode world.root).getAt (archiveAt d a ++ q) = some n)
    (found : n.follow (.scope key) = some c) (level : c.info.jsl = .field) :
    ((rtFieldUpdate world.store c v).1 = world.store ∧ (rtFieldUpdate world.store c v).2.1 = c ∧
      (0 ≤ (rtFieldUpdate world.store c v).2.2 → c.info.scopeValue = v)) ∨
    ∃ D x z f y before after,
      (rtFieldUpdate world.store c v).2.1 = setValue v y.addr c ∧
      Replacing full world d a v q n c (.scope key) (rtFieldUpdate world.store c v).1.heap
        D x z f y before after := by
  rcases rtFieldUpdate_cases world.store v level with settled |
    ⟨parent, heap, item, parentptr, made, made'⟩
  · exact Or.inl settled
  right
  have other : c.info.scopeValue ≠ v := by
    intro same
    exact rtFieldUpdate_same world.store v level same (by rw [made'])
  obtain ⟨D, x, stands, absorbs⟩ := h.edit there
  obtain ⟨z, seat, tells, overlay⟩ := stands.overlay.down found
  have inHeap := stands.inHeap
  have name : fold c.info.scopeName = key := key_of_avlsearch Node.scopeKey found
  obtain ⟨before, f, after, split, named, first, set⟩ := split_named seat.1
    (show z.string.map fold = some (fold c.info.scopeName) by rw [name]; exact seat.2)
  rw [overlay.here.linked.ptr] at made
  obtain ⟨kind, new, rfl, rfl⟩ :=
    newOne_spec (deref_of_mem h.separate (child_inHeap stands seat.1)) made
  have parent' : parent = x.addr := by
    have own := stands.overlay.here.linked.below _ c found
    rw [parentptr] at own
    exact Option.some.inj own
  subst parent'
  have deref : Heap.deref { world.store.heap with nextAddr := world.store.heap.nextAddr + 1 }
      x.addr = some x := by
    have own := deref_of_mem h.separate inHeap
    exact own
  have stored : (rtFieldUpdate world.store c v).1.heap = Heap.update
      { world.store.heap with nextAddr := world.store.heap.nextAddr + 1 } x.addr
      (setChild fun child => child.set (child.findIdx (Item.named c.info.scopeName))
        (setString c.info.scopeName (.mk world.store.heap.nextAddr none kind []))) := by
    rw [made']
    dsimp only
    rw [cjsonReplaceItemInObject, deref, Option.bind_some, first]
  refine ⟨D, x, z, f, setString c.info.scopeName (.mk world.store.heap.nextAddr none kind []),
    before,
    after, ?_, stands, absorbs, seat, tells, overlay, split, named.trans (congrArg some name), new,
    rfl, rfl, ?_, other, ?_, ?_⟩
  · rw [made']
    rfl
  · rw [string_setString, named]
    rfl
  · rw [stored]
    rfl
  · rw [stored]
    exact update_congr h.separate inHeap (set _)

/-- A field gets another value. -/
theorem field_effect (h : Backed full world) {key : Bytes}
    (there : (rootNode world.root).getAt (archiveAt d a ++ q) = some n)
    (found : n.follow (.scope key) = some c) (level : c.info.jsl = .field)
    (short : v.length < maxValueSize) {world' : World ν} {retval : Int}
    (update :
      rtFieldUpdate world.store c v = (world'.store, (rtFieldUpdate world.store c v).2.1, retval))
    (tree : world' = world.modifyAt (fun _ => (rtFieldUpdate world.store c v).2.1)
      (archiveAt d a ++ (q ++ [.scope key])) world'.store)
    (regular : Regular 0 (rootNode world'.root)) :
    Backed full world' ∧ DocEffect world d a v world' retval := by
  have written : (rootNode world.root).getAt (archiveAt d a ++ (q ++ [.scope key])) = some c := by
    rw [← List.append_assoc]
    exact getAt_snoc there found
  have store : (rtFieldUpdate world.store c v).1 = world'.store := by rw [update]
  have answer : (rtFieldUpdate world.store c v).2.2 = retval := by rw [update]
  rcases rtFieldUpdate_replaces h there found level with ⟨same, same', value⟩ |
    ⟨D, x, z, f, y, before, after, node, replacing⟩
  · refine settled_effect h ?_ ?_ ?_
    · rintro rfl
      exact rtFieldUpdate_same world.store v level (value (by rw [answer])) answer
    · rw [tree, same', rootNode_modifyAt world _ (by simp), modifyAt_self written]
    · rw [← store, same]
  · rw [store] at replacing
    rw [node] at tree
    rw [tree] at regular ⊢
    exact value_effect h there found replacing short regular retval

/-- What `rt_array_field_update` writes below an archive. -/
theorem rtArrayFieldUpdate_replaces (h : Backed full world) {index : Int} {k : Nat} {e : Node}
    (there : (rootNode world.root).getAt (archiveAt d a ++ q) = some c)
    (place : placeOf c.info.arraysize index = some k) (entered : c.follow (.item k) = some e)
    (level : c.info.jsl = .array) :
    ((rtArrayFieldUpdate world.store c index v).1 = world.store ∧
      (rtArrayFieldUpdate world.store c index v).2.1 = c ∧
      (0 ≤ (rtArrayFieldUpdate world.store c index v).2.2 → e.info.scopeValue = v)) ∨
    ∃ D x z f y before after, (rtArrayFieldUpdate world.store c index v).2.1 =
        c.modifyAt (fun _ => setValue v y.addr e) [.item k] ∧
      Replacing full world d a v q c e (.item k) (rtArrayFieldUpdate world.store c index v).1.heap
        D x z f y before after := by
  rcases rtArrayFieldUpdate_cases world.store v place entered level with settled |
    ⟨array, heap, item, ptr, made, made'⟩
  · exact Or.inl settled
  right
  have other : e.info.scopeValue ≠ v := by
    intro same
    exact rtArrayFieldUpdate_same world.store v place entered level same (by rw [made'])
  obtain ⟨D, x, stands, absorbs⟩ := h.edit there
  obtain ⟨z, seat, tells, overlay⟩ := stands.overlay.down entered
  have inHeap := stands.inHeap
  obtain ⟨split, length⟩ := DeleteLaw.split_at seat.1
  rw [overlay.here.linked.ptr] at made
  obtain ⟨kind, new, rfl, rfl⟩ :=
    newOne_spec (deref_of_mem h.separate (child_inHeap stands seat.child)) made
  have array' : array = x.addr := by
    rw [stands.overlay.here.linked.ptr] at ptr
    exact (Option.some.inj ptr).symm
  subst array'
  have deref : Heap.deref { world.store.heap with nextAddr := world.store.heap.nextAddr + 1 }
      x.addr = some x := by
    have own := deref_of_mem h.separate inHeap
    exact own
  have stored : (rtArrayFieldUpdate world.store c index v).1.heap = Heap.update
      { world.store.heap with nextAddr := world.store.heap.nextAddr + 1 } x.addr
      (setChild fun child => child.set k (.mk world.store.heap.nextAddr none kind [])) := by
    rw [made']
    dsimp only
    rw [cjsonReplaceItemInArray, deref, Option.bind_some, seat.1]
  refine ⟨D, x, z, z, .mk world.store.heap.nextAddr none kind [], _, _, ?_, stands, absorbs, seat,
    tells, overlay, split, ⟨length, seat.2⟩, new, rfl, rfl, ?_, other, ?_, ?_⟩
  · rw [made']
    refine modifyAt_congr fun m hm => ?_
    rw [Catalog.getAt_one, entered] at hm
    obtain rfl := Option.some.inj hm
    rfl
  · rw [seat.2]
    rfl
  · rw [stored]
    rfl
  · rw [stored]
    refine (update_congr h.separate inHeap ?_)
    rw [List.set_eq_take_append_cons_drop, if_pos (List.getElem?_eq_some_iff.mp seat.1).1]

/-- An item of an array gets another value. -/
theorem item_effect (h : Backed full world) {index : Int} {k : Nat} {e : Node}
    (there : (rootNode world.root).getAt (archiveAt d a ++ q) = some c)
    (place : placeOf c.info.arraysize index = some k) (entered : c.follow (.item k) = some e)
    (level : c.info.jsl = .array) (short : v.length < maxValueSize) {world' : World ν}
    {retval : Int}
    (update : rtArrayFieldUpdate world.store c index v =
      (world'.store, (rtArrayFieldUpdate world.store c index v).2.1, retval))
    (tree : world' = world.modifyAt (fun _ => (rtArrayFieldUpdate world.store c index v).2.1)
      (archiveAt d a ++ q) world'.store)
    (regular : Regular 0 (rootNode world'.root)) :
    Backed full world' ∧ DocEffect world d a v world' retval := by
  have store : (rtArrayFieldUpdate world.store c index v).1 = world'.store := by rw [update]
  have answer : (rtArrayFieldUpdate world.store c index v).2.2 = retval := by rw [update]
  rcases rtArrayFieldUpdate_replaces h there place entered level with ⟨same, same', value⟩ |
    ⟨D, x, z, f, y, before, after, node, replacing⟩
  · refine settled_effect h ?_ ?_ ?_
    · rintro rfl
      exact rtArrayFieldUpdate_same world.store v place entered level (value (by rw [answer]))
        answer
    · rw [tree, same', rootNode_modifyAt world _ (by simp), modifyAt_self there]
    · rw [← store, same]
  · rw [store] at replacing
    rw [node, ← modifyAt_child there, List.append_assoc] at tree
    rw [tree] at regular ⊢
    exact value_effect h there entered replacing short regular retval

end Values

section Appends
variable {F : Prop} {store store₁ : Store ν} {node child : Node} {x y₀ : Item ν} {v : Bytes}

/-- What `rt_append` does to a node and its item: nothing, or it gives both a new child. -/
inductive Grew (F : Prop) (store : Store ν) (node : Node) (x : Item ν) (r : Appended ν) : Prop where
  | refused (heap : r.store.heap = store.heap) (same : r.node = node) (failed : r.retval ≠ 0) :
      Grew F store node x r
  | grown (y : Item ν) (later : store.heap.nextAddr < r.store.heap.nextAddr)
      (roots : r.store.heap.roots = store.heap.roots.map (Item.update x.addr (setChild (· ++ [y]))))
      (nodup : y.addrs.Nodup)
      (fresh : ∀ b ∈ y.addrs, store.heap.nextAddr ≤ b ∧ b < r.store.heap.nextAddr)
      (replaces : Replaces node r.node)
      (overlay : Over F r.store.heap.nextAddr r.node (x.setChild (· ++ [y]))) :
      Grew F store node x r

/-- A new item at the end of the children of another one. -/
structure Added (store : Store ν) (x y₀ : Item ν) (store₁ : Store ν) : Prop where
  addr : y₀.addr = store.heap.nextAddr
  empty : y₀.child = []
  next : store₁.heap.nextAddr = store.heap.nextAddr + 1
  roots : store₁.heap.roots = store.heap.roots.map (Item.update x.addr (setChild (· ++ [y₀])))

omit [DoubleText ν] in
/-- Appending an item with new addresses. -/
theorem apart_append {z : Item ν} {next : Addr} (nodup : x.addrs.Nodup)
    (below : ∀ b ∈ x.addrs, b < next) (own : z.addrs.Nodup) (fresh : ∀ b ∈ z.addrs, next ≤ b) :
    (x.setChild (· ++ [z])).addrs.Nodup ∧
      ∀ b ∈ (x.setChild (· ++ [z])).addrs, b ∈ x.addrs ∨ b ∈ z.addrs := by
  have same : (x.setChild (· ++ [z])).addrs = x.addrs ++ z.addrs := by
    rw [addrs_eq, addrs_eq x, addr_setChild, child_setChild, List.flatMap_append,
      List.flatMap_singleton, List.cons_append]
  rw [same]
  refine ⟨List.nodup_append'.mpr ⟨nodup, own, fun b hx hz => ?_⟩, fun b => List.mem_append.mp⟩
  exact absurd (below b hx) (Nat.not_lt.mpr (fresh b hz))

omit [DoubleText ν] in
/-- The addresses of an item in memory. -/
theorem addrs_inHeap {heap : Heap ν} (separate : Separate heap)
    (inHeap : x ∈ heap.roots.flatMap items) :
    x.addrs.Nodup ∧ ∀ b ∈ x.addrs, b < heap.nextAddr ∧ b ∈ heap.roots.flatMap addrs := by
  obtain ⟨fill, rest, hole⟩ := hole_of_mem inHeap
  refine ⟨(hole.nodup separate.apart).1, fun b hb => ?_⟩
  have perm := hole.addrs x
  rw [hole.self] at perm
  have mem := perm.mem_iff.mpr (List.mem_append_left _ hb)
  exact ⟨separate.below b mem, mem⟩

omit [DoubleText ν] in
theorem separate_append {heap heap' : Heap ν} (separate : Separate heap)
    (inHeap : x ∈ heap.roots.flatMap items) {z : Item ν}
    (later : heap.nextAddr ≤ heap'.nextAddr)
    (roots : heap'.roots = heap.roots.map (Item.update x.addr (setChild (· ++ [z]))))
    (own : z.addrs.Nodup) (fresh : ∀ b ∈ z.addrs, heap.nextAddr ≤ b ∧ b < heap'.nextAddr) :
    Separate heap' := by
  obtain ⟨nodup, below⟩ := addrs_inHeap separate inHeap
  obtain ⟨apart, old⟩ := apart_append nodup (fun b hb => (below b hb).1) own
    fun b hb => (fresh b hb).1
  exact separate_setChild separate inHeap later roots apart fun b hb => (old b hb).imp id (fresh b)

/-- What `rt_append` does below a child that was just added is part of adding it. -/
theorem grown_child (separate : Separate store.heap) (inHeap : x ∈ store.heap.roots.flatMap items)
    (added : Added store x y₀ store₁) (tells : Tells child y₀)
    (overlay : Over F store₁.heap.nextAddr child y₀) {r : Appended ν}
    (grew : Grew F store₁ child y₀ r) : ∃ y, store.heap.nextAddr < r.store.heap.nextAddr ∧
      r.store.heap.roots = store.heap.roots.map (Item.update x.addr (setChild (· ++ [y]))) ∧
      y.addrs.Nodup ∧ (∀ b ∈ y.addrs, store.heap.nextAddr ≤ b ∧ b < r.store.heap.nextAddr) ∧
      Replaces child r.node ∧ Tells r.node y ∧ y.string = y₀.string ∧
      Over F r.store.heap.nextAddr r.node y := by
  have addrs : y₀.addrs = [store.heap.nextAddr] := by
    rw [addrs_eq, added.empty, added.addr]
    rfl
  have first : store.heap.nextAddr < store₁.heap.nextAddr := by
    rw [added.next]
    exact Nat.lt_succ_self _
  cases grew with
  | refused heap same =>
    rw [heap, same]
    refine ⟨y₀, first, added.roots, ?_, ?_, .of_info rfl, tells, rfl, overlay⟩
    · rw [addrs]
      exact List.nodup_singleton _
    · intro b hb
      rw [addrs, List.mem_singleton] at hb
      subst hb
      exact ⟨Nat.le_refl _, first⟩
  | grown y later roots nodup fresh replaces overlay' =>
    have unused : y₀.addr ∉ store.heap.roots.flatMap Item.addrs := by
      rw [added.addr]
      exact fun mem => absurd (separate.below _ mem) (Nat.lt_irrefl _)
    refine ⟨y₀.setChild (· ++ [y]), Nat.lt_trans first later, ?_, ?_, ?_, replaces,
      tells.setChild replaces, string_setChild .., overlay'⟩
    · rw [roots, added.roots, update_appended separate.apart inHeap unused]
    · refine (apart_append ?_ ?_ nodup fun b hb => (fresh b hb).1).1
      · rw [addrs]
        exact List.nodup_singleton _
      · intro b hb
        rw [addrs, List.mem_singleton] at hb
        rw [hb]
        exact first
    · intro b hb
      rw [addrs_eq, addr_setChild, child_setChild, added.empty, List.nil_append,
        List.flatMap_singleton, List.mem_cons, added.addr] at hb
      rcases hb with rfl | hb
      · exact ⟨Nat.le_refl _, Nat.lt_trans first later⟩
      · have bounds := fresh b hb
        exact ⟨Nat.le_trans (Nat.le_of_lt first) bounds.1, bounds.2⟩

/-- A new member with what was appended below it. -/
theorem grew_inserted (separate : Separate store.heap)
    (inHeap : x ∈ store.heap.roots.flatMap items) (h : Over F store.heap.nextAddr node x)
    (scopes : node.info.jsl ≠ .array) (inner : isLeaf node.info.jsl = false)
    (missing : node.follow (.scope child.scopeKey) = none) (added : Added store x y₀ store₁)
    (named : y₀.string.map fold = some child.scopeKey)
    (parent : child.info.jsonparentptr = some x.addr) (tells : Tells child y₀)
    (overlay : Over F store₁.heap.nextAddr child y₀) {r : Appended ν}
    (grew : Grew F store₁ child y₀ r) (retval : Int) (archive : Option Path) :
    Grew F store node x ⟨r.store, insertScope node r.node, retval, archive⟩ := by
  obtain ⟨y, later, roots, nodup, fresh, replaces, tells', string, overlay'⟩ :=
    grown_child separate inHeap added tells overlay grew
  have key : r.node.scopeKey = child.scopeKey := by
    rw [Node.scopeKey, replaces.scopeName, Node.scopeKey]
  refine .grown y later roots nodup fresh (.of_info (insertScope_info ..)) ?_
  refine over_inserted (h.mono (Nat.le_of_lt later)) scopes inner ?_ ?_ ?_ tells' overlay'
  · rw [key, missing]
  · rw [string, key, named]
  · rw [replaces.parentptr, parent]

/-- A new item with what was appended below it. -/
theorem grew_addItem (separate : Separate store.heap)
    (inHeap : x ∈ store.heap.roots.flatMap items) (h : Over F store.heap.nextAddr node x)
    (array : node.info.jsl = .array) (room : node.info.arraysize < maxArySize)
    (added : Added store x y₀ store₁) (unnamed : y₀.string = none)
    (ident : child.info.ident = store.heap.nextAddr)
    (parent : child.info.jsonparentptr = some x.addr) (tells : Tells child y₀)
    (overlay : Over F store₁.heap.nextAddr child y₀) {r : Appended ν}
    (grew : Grew F store₁ child y₀ r) (retval : Int) (archive : Option Path) :
    Grew F store node x ⟨r.store, addItem node r.node, retval, archive⟩ := by
  obtain ⟨y, later, roots, nodup, fresh, replaces, tells', string, overlay'⟩ :=
    grown_child separate inHeap added tells overlay grew
  have few : maxArySize + 1 < jaSymLast := by decide
  refine .grown y later roots nodup fresh (by constructor <;> simp [addItem]) ?_
  refine over_addItem (h.mono (Nat.le_of_lt later)) array (by omega) (by rw [string, unnamed])
    ?_ ?_ ?_ tells' overlay'
  · intro e he
    rw [replaces.ident, ident]
    exact Nat.ne_of_lt (h.here.older e he)
  · rw [replaces.ident, ident]
    exact later
  · rw [replaces.parentptr, parent]

omit [DoubleText ν] in
theorem follow_newNode (item : Item ν) (parent : Node) (name value : Bytes) (jsl : Jsl) (s : Step) :
    (newNode item parent name value jsl).follow s = none := by
  cases s <;> rfl

/-- A new node stands over its item. -/
theorem over_newNode {next : Nat} {item y : Item ν} (addr : y.addr = item.addr)
    (empty : y.child = [])
    (parent : Node) (name value : Bytes) {jsl : Jsl} (known : jsl ≠ .dir) :
    Over F next (newNode item parent name value jsl) y :=
  over_leaf (by rw [addr]; rfl) rfl (ordered_nil _)
    (follow_newNode item parent name value jsl) empty
    fun _ => known

omit [DoubleText ν] in
theorem added_member (ptr : node.info.jsonptr = some x.addr) (name value : Bytes) (jsl : Jsl)
    (kind : Kind ν) : Added store x (setString name (.mk store.heap.nextAddr none kind []))
      (allocateMember store node name value jsl kind).1 := by
  constructor <;> simp [allocateMember, cjsonCreate, cjsonAddItemToObject, ptr, Heap.update]

omit [DoubleText ν] in
theorem added_element (ptr : node.info.jsonptr = some x.addr) (value : Bytes) (jsl : Jsl)
    (kind : Kind ν) : Added store x (.mk store.heap.nextAddr none kind [])
      (allocateElement store node value jsl kind).1 := by
  constructor <;> simp [allocateElement, cjsonCreate, cjsonAddItemToArray, ptr, Heap.update]

/-- A new member and what is appended to its node. -/
theorem grew_member (separate : Separate store.heap)
    (inHeap : x ∈ store.heap.roots.flatMap items) (h : Over F store.heap.nextAddr node x)
    (scopes : node.info.jsl ≠ .array) (inner : isLeaf node.info.jsl = false) {name value : Bytes}
    (missing : node.follow (.scope (fold name)) = none) {jsl : Jsl} {kind : Kind ν}
    (level : itemJsl (setString name (.mk store.heap.nextAddr none kind [])) = jsl)
    (known : jsl ≠ .dir)
    (text : ∀ s, kind = .cjsonString s → value = limitValue scopeSavelenOutofLimit s)
    {r : Appended ν} (grew : Grew F (allocateMember store node name value jsl kind).1
      (allocateMember store node name value jsl kind).2
      (setString name (.mk store.heap.nextAddr none kind [])) r) (retval : Int)
    (archive : Option Path) :
    Grew F store node x ⟨r.store, insertScope node r.node, retval, archive⟩ := by
  have ptr := h.here.linked.ptr
  have free : node.follow (.scope (allocateMember store node name value jsl kind).2.scopeKey) =
      none := missing
  have parent : (allocateMember store node name value jsl kind).2.info.jsonparentptr =
      some x.addr := ptr
  have tells : Tells (allocateMember store node name value jsl kind).2
      (setString name (.mk store.heap.nextAddr none kind [])) := by
    refine ⟨level.symm, fun s string => ?_⟩
    rw [valueText, string]
    exact text s string
  have overlay :=
    @over_newNode ν _ F (allocateMember store node name value jsl kind).1.heap.nextAddr
    (.mk store.heap.nextAddr none kind []) (setString name (.mk store.heap.nextAddr none kind []))
    rfl rfl node name value _ known
  exact grew_inserted separate inHeap h scopes inner free
    (added_member ptr name value jsl kind) rfl parent tells overlay grew retval archive

/-- A new item of an array and what is appended to its node. -/
theorem grew_element (separate : Separate store.heap)
    (inHeap : x ∈ store.heap.roots.flatMap items) (h : Over F store.heap.nextAddr node x)
    (array : node.info.jsl = .array) (room : node.info.arraysize < maxArySize) {value : Bytes}
    {jsl : Jsl} {kind : Kind ν} (level : itemJsl (.mk store.heap.nextAddr none kind []) = jsl)
    (known : jsl ≠ .dir) (text : ∀ s, kind = .cjsonString s → value = limitValue 64 s)
    {r : Appended ν}
    (grew : Grew F (allocateElement store node value jsl kind).1
      (allocateElement store node value jsl kind).2 (.mk store.heap.nextAddr none kind []) r)
    (retval : Int) (archive : Option Path) :
    Grew F store node x ⟨r.store, addItem node r.node, retval, archive⟩ := by
  have ptr := h.here.linked.ptr
  have parent : (allocateElement store node value jsl kind).2.info.jsonparentptr =
      some x.addr := ptr
  have tells : Tells (allocateElement store node value jsl kind).2
      (.mk store.heap.nextAddr none kind []) := by
    refine ⟨level.symm, fun s string => ?_⟩
    rw [valueText, string]
    exact text s string
  exact grew_addItem separate inHeap h array room (added_element ptr value jsl kind) rfl rfl
    parent tells (over_newNode rfl rfl _ _ _ known) grew retval archive

/-- The store and the new node with nothing below it. -/
theorem grew_nothing (F : Prop) (store : Store ν) (node : Node) (x : Item ν) :
    Grew F store node x ⟨store, node, -1, none⟩ :=
  .refused rfl rfl (Int.neg_ne_zero.mpr Int.one_ne_zero)

/-- Appending these segments to a node that takes members grows the node and its item. -/
def AppendsWell (F : Prop) (v : Bytes) (segms : List Segment) : Prop :=
  ∀ (store : Store ν) (node : Node) (x : Item ν), Separate store.heap →
    x ∈ store.heap.roots.flatMap items → Over F store.heap.nextAddr node x →
    node.info.jsl ≠ .array → isLeaf node.info.jsl = false →
    (∀ segm ∈ segms.head?, node.follow (.scope (fold segm.name)) = none) →
    Grew F store node x (rtAppend v store node segms)

omit [DoubleText ν] in
/-- The addresses after a new child was added. -/
theorem separate_added (separate : Separate store.heap)
    (inHeap : x ∈ store.heap.roots.flatMap items) (added : Added store x y₀ store₁) :
    Separate store₁.heap ∧ y₀ ∈ store₁.heap.roots.flatMap items := by
  have addrs : y₀.addrs = [store.heap.nextAddr] := by
    rw [addrs_eq, added.empty, added.addr]
    rfl
  have first : store.heap.nextAddr < store₁.heap.nextAddr := by
    rw [added.next]
    exact Nat.lt_succ_self _
  refine ⟨separate_append separate inHeap (Nat.le_of_lt first) added.roots ?_ ?_, ?_⟩
  · rw [addrs]
    exact List.nodup_singleton _
  · intro b hb
    rw [addrs, List.mem_singleton] at hb
    subst hb
    exact ⟨Nat.le_refl _, first⟩
  · obtain ⟨fill, rest, hole⟩ := hole_of_mem inHeap
    rw [added.roots, hole.update_self separate.apart]
    obtain ⟨D, hD, inside⟩ := List.mem_flatMap.mp (hole.mem (x.setChild (· ++ [y₀])))
    refine List.mem_flatMap.mpr ⟨D, hD, items_trans inside ?_⟩
    exact mem_items_of_child (by simp) (self_mem_items y₀)

/-- The end of `rt_append` for an array: the item, and what is appended to it. -/
theorem grew_addTo (short : v.length < maxValueSize) {rest : List Segment}
    (later : rest = [] ∨ AppendsWell (ν := ν) F v rest) (separate : Separate store.heap)
    (inHeap : x ∈ store.heap.roots.flatMap items) (h : Over F store.heap.nextAddr node x)
    (array : node.info.jsl = .array) (room : node.info.arraysize < maxArySize) :
    Grew F store node x (addTo v store node rest) := by
  rw [addTo]
  split
  · refine @grew_element _ _ F store node x separate inHeap h array room v _ (.cjsonString v) rfl
      (by rintro ⟨⟩) ?_ _ (grew_nothing F ..) 0 none
    rintro s ⟨⟩
    exact (PlainDoc.limitValue_short short).symm
  · rename_i more
    have added : Added store x (.mk store.heap.nextAddr none .cjsonObject [])
        (rtAllocateArrayItem store node).1 := added_element h.here.linked.ptr ..
    obtain ⟨separate', inHeap'⟩ := separate_added separate inHeap added
    refine grew_element separate inHeap h array room rfl (by rintro ⟨⟩) (by rintro s ⟨⟩)
      ((later.resolve_left more) (rtAllocateArrayItem store node).1
        (rtAllocateArrayItem store node).2 _ separate' inHeap'
        (over_newNode rfl rfl _ _ _ (by simp))
        (by rintro ⟨⟩) rfl
        ?_) _ _
    exact fun segm _ => follow_newNode ..

/-- An array that was not there, with its first item. -/
theorem grew_makeArray (short : v.length < maxValueSize) {rest : List Segment}
    (later : rest = [] ∨ AppendsWell (ν := ν) F v rest) (separate : Separate store.heap)
    (inHeap : x ∈ store.heap.roots.flatMap items) (h : Over F store.heap.nextAddr node x)
    (scopes : node.info.jsl ≠ .array) (inner : isLeaf node.info.jsl = false) {name : Bytes}
    (missing : node.follow (.scope (fold name)) = none) (index : Int) :
    Grew F store node x (makeArray v store node name index rest) := by
  have added : Added store x (setString name (.mk store.heap.nextAddr none .cjsonArray []))
      (rtAllocateArray store node name).1 := added_member h.here.linked.ptr ..
  obtain ⟨separate', inHeap'⟩ := separate_added separate inHeap added
  have overlay := @over_newNode ν _ F (rtAllocateArray store node name).1.heap.nextAddr
    (.mk store.heap.nextAddr none .cjsonArray [])
    (setString name (.mk store.heap.nextAddr none .cjsonArray [])) rfl rfl node name [] .array
    (by simp)
  have level : itemJsl (setString name (.mk store.heap.nextAddr none .cjsonArray []) : Item ν) =
      .array := rfl
  rw [makeArray]
  split
  · rename_i fits
    refine grew_member separate inHeap h scopes inner missing level (by simp) (by rintro s ⟨⟩)
      (grew_addTo short later separate' inHeap' overlay rfl (appendable_iff.mp fits).2.2) _ _
  · exact grew_member separate inHeap h scopes inner missing level (by simp) (by rintro s ⟨⟩)
      (grew_nothing F ..) _ _

/-- `rt_append` below an archive. -/
theorem appendsWell_of_below (F : Prop) (short : v.length < maxValueSize) {segms : List Segment}
    (below : Below segms) : AppendsWell (ν := ν) F v segms := by
  -- the segment for an array, whether something follows or not
  have array : ∀ {name : Bytes} {index : Int} {rest : List Segment},
      rest = [] ∨ AppendsWell (ν := ν) F v rest →
        AppendsWell (ν := ν) F v (⟨name, index, .array⟩ :: rest) := by
    intro name index rest later store node x separate inHeap h scopes inner missing
    rw [rtAppend_array]
    split
    · exact grew_makeArray short later separate inHeap h scopes inner (missing _ rfl) index
    · exact grew_nothing F ..
  induction below with
  | @field name fits =>
    intro store node x separate inHeap h scopes inner missing
    rw [rtAppend_field]
    refine grew_member separate inHeap h scopes inner (missing _ rfl) rfl (by nofun) ?_
      (grew_nothing F ..) _ _
    rintro s ⟨⟩
    exact (PlainDoc.limitValue_short short).symm
  | @scope name rest fits below ih =>
    intro store node x separate inHeap h scopes inner missing
    have added : Added store x (setString name (.mk store.heap.nextAddr none .cjsonObject []))
        (rtAllocateLogicScope store node name).1 := added_member h.here.linked.ptr ..
    obtain ⟨separate', inHeap'⟩ := separate_added separate inHeap added
    have overlay := @over_newNode ν _ F (rtAllocateLogicScope store node name).1.heap.nextAddr
      (.mk store.heap.nextAddr none .cjsonObject [])
      (setString name (.mk store.heap.nextAddr none .cjsonObject [])) rfl rfl node name []
      .logicScope
      nofun
    rw [rtAppend_scope]
    exact grew_member separate inHeap h scopes inner (missing _ rfl) rfl (by nofun) (by rintro s ⟨⟩)
      (ih _ _ _ separate' inHeap' overlay nofun rfl fun segm _ => follow_newNode ..) _ _
  | array fits range => exact array (Or.inl rfl)
  | item fits range single below ih => exact array (Or.inr ih)

end Appends

end SideBySide
