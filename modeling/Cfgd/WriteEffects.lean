import Cfgd.SideBySide

/-!
# What an update does to a document

Every update of an accepted key does one thing to one archive: it replaces the item of a
value, appends an item, cuts items out, makes the archive or removes it, or it does
nothing. The tree stands over its documents afterwards as it did before.
-/

namespace WriteEffects

open AvlTree CText CJson Item Request ConfigNode Loader FsImage Runtime DocTree DeleteRange
open KeyShape Reach UpdateCases HeapEdit HeapGrowth AppendSteps RegularTree Levels Backing
open SideBySide DeleteDoc

variable {ν : Type} [DoubleText ν]

section Keys
variable {n m : Node} {d a : Bytes} {segms rest passed left : List Segment} {path : Path}

theorem below_of_suffix (below : Below segms) (suffix : left <:+ segms) (more : left ≠ []) :
    Below left := by
  induction below with
  | field fits =>
    rcases List.suffix_cons_iff.mp suffix with rfl | none
    · exact .field fits
    · exact absurd (List.suffix_nil.mp none) more
  | array fits range =>
    rcases List.suffix_cons_iff.mp suffix with rfl | none
    · exact .array fits range
    · exact absurd (List.suffix_nil.mp none) more
  | scope fits below ih =>
    rcases List.suffix_cons_iff.mp suffix with rfl | later
    · exact .scope fits below
    · exact ih later
  | item fits range single below ih =>
    rcases List.suffix_cons_iff.mp suffix with rfl | later
    · exact .item fits range single below
    · exact ih later

/-- The way of a key stops at the root, at a directory, or at an archive or below it. -/
theorem walks_below
    (walk : Walks n (⟨d, -1, .dir⟩ :: ⟨a, -1, .archive⟩ :: rest) path passed m left) :
    (path = [] ∧ left = ⟨d, -1, .dir⟩ :: ⟨a, -1, .archive⟩ :: rest) ∨
      (path = [.scope (fold d)] ∧ left = ⟨a, -1, .archive⟩ :: rest) ∨
      ∃ q, path = archiveAt (fold d) (fold a) ++ q ∧ left <:+ rest := by
  cases walk with
  | stop => exact Or.inl ⟨rfl, rfl⟩
  | item found level level' => cases level'
  | scope found level level' further =>
    cases further with
    | stop => exact Or.inr (Or.inl ⟨rfl, rfl⟩)
    | item found level level' => cases level'
    | scope found level level' further =>
      exact Or.inr (Or.inr ⟨_, rfl, suffix_of_walks further⟩)

end Keys

section Below
variable {world : World ν} {full : Bytes → Bytes → Prop} {d a v : Bytes} {q : Path}
variable {m m' : Node} {D x : Item ν}

/-- Something is appended below an archive. -/
theorem grown_effect (h : Backed full world)
    (there : (rootNode world.root).getAt (archiveAt d a ++ q) = some m)
    (stands : Stands full world d a q m D x) (absorbs : Absorbs full world d a q m x)
    {r : Appended ν} (grew : Grew (full d a) world.store m x r)
    (regular : Regular 0 (rootNode (world.modifyAt (fun _ => r.node)
      (archiveAt d a ++ q) r.store).root)) :
    let world' := world.modifyAt (fun _ => r.node) (archiveAt d a ++ q) r.store
    Backed full world' ∧ DocEffect world d a v world' r.retval := by
  intro world'
  cases grew with
  | refused heap same failed =>
    refine settled_effect h failed ?_ heap
    rw [rootNode_modifyAt world _ (by simp), same, modifyAt_self there]
  | grown y later roots nodup fresh replaces overlay =>
    obtain ⟨own, below⟩ := addrs_inHeap h.separate stands.inHeap
    obtain ⟨apart, old⟩ := apart_append own (fun b hb => (below b hb).1) nodup
      fun b hb => (fresh b hb).1
    have backed : Backed full world' := absorbs r.node (· ++ [y]) r.store replaces
      (Nat.le_of_lt later) roots apart (fun b hb => (old b hb).imp id (fresh b)) overlay regular
    have key : r.node.scopeKey = m.scopeKey := by
      rw [Node.scopeKey, Node.scopeKey, replaces.scopeName]
    refine ⟨backed, .grown (rewrites_of_edit h stands there key ?_ roots backed)⟩
    rw [overlay.here.linked.ptr, addr_setChild, stands.overlay.here.linked.ptr]

/-- Something is cut out below an archive. -/
theorem cut_effect (h : Backed full world)
    (there : (rootNode world.root).getAt (archiveAt d a ++ q) = some m)
    (stands : Stands full world d a q m D x) (absorbs : Absorbs full world d a q m x)
    {g : List (Item ν) → List (Item ν)} {store' : Store ν} (replaces : Replaces m m')
    (sub : (g x.child).Sublist x.child) (fewer : (g x.child).length < x.child.length)
    (next : store'.heap.nextAddr = world.store.heap.nextAddr)
    (roots : store'.heap.roots = world.store.heap.roots.map (Item.update x.addr (setChild g)))
    (overlay : Over (full d a) world.store.heap.nextAddr m' (x.setChild g))
    (regular : Regular 0 (rootNode (world.modifyAt (fun _ => m')
      (archiveAt d a ++ q) store').root)) (retval : Int) :
    let world' := world.modifyAt (fun _ => m') (archiveAt d a ++ q) store'
    Backed full world' ∧ DocEffect world d a v world' retval := by
  intro world'
  have own := (addrs_inHeap h.separate stands.inHeap).1
  have kept := addrs_fewer sub
  have backed : Backed full world' := by
    refine absorbs m' g store' replaces (Nat.le_of_eq next.symm) roots (own.sublist kept)
      (fun b hb => Or.inl (kept.subset hb)) ?_ regular
    rw [next]
    exact overlay
  have key : m'.scopeKey = m.scopeKey := by rw [Node.scopeKey, Node.scopeKey, replaces.scopeName]
  refine ⟨backed, .cut (rewrites_of_edit h stands there key ?_ roots backed) fewer⟩
  rw [overlay.here.linked.ptr, addr_setChild, stands.overlay.here.linked.ptr]

end Below

section Cuts
variable {S : List Addr} {F : Prop} {next : Nat} {n c e : Node} {j x z : Item ν} {heap mid : Heap ν}

/-- The items of a node that stands over an item are those of its document. -/
theorem inside_of_over (h : Over F next n j) (within : j.addrs ⊆ S) : Inside S n := by
  induction h with
  | @mk n j item here seat tells below ih =>
    obtain ⟨linked, _, _, _, _, _, _⟩ := here
    refine .mk linked.ordered linked.ptr (within (addr_mem_addrs j)) ?_ ?_
    · intro c hc
      obtain ⟨s, hs⟩ := follow_of_mem linked.ordered hc
      exact linked.below s c hs
    · intro c hc
      obtain ⟨s, hs⟩ := follow_of_mem linked.ordered hc
      exact ih s c hs fun b hb => within (mem_addrs_of_child (seat s c hs).child hb)

/-- No two of these have the same name. -/
def NamesApart (l : List (Item ν)) : Prop :=
  l.Pairwise fun y z => z.string.isSome → y.string.map fold ≠ z.string.map fold

omit [DoubleText ν] in
theorem eraseP_named {before after : List (Item ν)} {name : Bytes}
    (apart : NamesApart (before ++ z :: after)) (named : z.string.map fold = some (fold name)) :
    (before ++ z :: after).eraseP (Item.named name) = before ++ after := by
  have some : z.string.isSome := by
    rw [← Option.isSome_map (f := fold), named]
    rfl
  have none : ∀ y ∈ before, ¬ y.named name = true := by
    intro y hy same
    have other := (List.pairwise_append.mp apart).2.2 y hy z (List.mem_cons_self ..) some
    exact other ((named_iff.mp same).trans named.symm)
  rw [List.eraseP_append_right _ none, List.eraseP_cons_of_pos (named_iff.mpr named)]

omit [DoubleText ν] in
/-- A member goes out of its object. -/
theorem cut_member (separate : Separate heap) (inHeap : x ∈ heap.roots.flatMap items)
    (apart : NamesApart x.child) (child : z ∈ x.child)
    (named : z.string.map fold = some (fold c.info.scopeName)) (level : ¬ IsItem c)
    (touched : HeapTouched z.addrs heap mid) :
    (cutOut mid c x.addr z.addr).nextAddr = heap.nextAddr ∧
      (cutOut mid c x.addr z.addr).roots = heap.roots.map
        (Item.update x.addr (setChild (·.eraseP (Item.named c.info.scopeName)))) := by
  obtain ⟨before, after, split⟩ := List.append_of_mem child
  rw [cutOut, if_neg level]
  refine ⟨touched.2, touched_dropped separate.apart inHeap split touched.1 ?_⟩
  intro z' _ string
  have names : ∀ y : Item ν, y.string = z.string → NamesApart (before ++ y :: after) := by
    intro y same
    have own := apart
    rw [split] at own
    simpa only [NamesApart, List.pairwise_append, List.pairwise_cons, List.forall_mem_cons, same]
      using own
  rw [eraseP_named (names z' string) (by rw [string, named]), eraseP_named (names z rfl) named]

/-- What every document of a tree is made of: members of different names, and elements that
are objects, strings or numbers. -/
structure Tidy (D : Item ν) : Prop where
  names : ∀ x ∈ D.items, NamesApart x.child
  elements : ∀ x ∈ D.items, ∀ y ∈ x.child, y.string = none → itemJsl y ≠ .dir

/-- A document of which nothing is left out. -/
theorem tidy_of_over (h : Over F next n j) (isFull : F) : Tidy j := by
  induction h with
  | @mk n j item here seat tells below ih =>
    have self : Over F next n j := .mk item here seat tells below
    have reached : ∀ d ∈ j.child, Tidy d ∧ itemJsl d ≠ .dir := by
      intro d hd
      obtain ⟨s, c, found, seat', told, overlay⟩ := self.reaches isFull hd
      obtain rfl := self.seat_unique isFull seat' (seat s c found)
      exact ⟨ih s c found, told.jsl ▸ overlay.here.known isFull⟩
    have names : NamesApart j.child := by
      by_cases array : n.info.jsl = .array
      · refine List.pairwise_of_forall_mem_list fun y _ z hz named => ?_
        obtain ⟨_, _, _, unnamed, _⟩ := self.element array hz
        rw [unnamed.2] at named
        cases named
      · refine List.Pairwise.imp ?_ (here.whole isFull array).1
        exact fun apart _ => apart
    have inside : ∀ {P : Item ν → Prop}, P j → (∀ d ∈ j.child, ∀ x ∈ d.items, P x) →
        ∀ x ∈ j.items, P x := by
      intro P own lower x hx
      rw [items_eq, List.mem_cons] at hx
      rcases hx with rfl | hx
      · exact own
      · obtain ⟨d, hd, hx⟩ := List.mem_flatMap.mp hx
        exact lower d hd x hx
    exact ⟨inside names fun d hd => (reached d hd).1.names,
      inside (fun y hy _ => (reached y hy).2) fun d hd => (reached d hd).1.elements⟩

omit [DoubleText ν] in
/-- An element goes out of its array. -/
theorem cut_element (separate : Separate heap) (inHeap : x ∈ heap.roots.flatMap items) {k : Nat}
    (there : x.child[k]? = some z) (level : IsItem e) (touched : HeapTouched z.addrs heap mid) :
    (cutOut mid e x.addr z.addr).nextAddr = heap.nextAddr ∧
      (cutOut mid e x.addr z.addr).roots =
        heap.roots.map (Item.update x.addr (setChild (·.eraseIdx k))) := by
  obtain ⟨split, _⟩ := DeleteLaw.split_at there
  have own := (addrs_inHeap separate inHeap).1
  rw [addrs_eq, List.nodup_cons] at own
  rw [cutOut, if_pos level]
  refine ⟨touched.2, ?_⟩
  have dropped := touched_dropped separate.apart inHeap split touched.1
    (f := fun child => child.filter fun c => c.addr ≠ z.addr)
    (fun z' addr _ => by simp [List.filter_append, addr])
  exact dropped.trans (update_congr separate inHeap (DeleteLaw.filter_eraseIdx own.2 there))

end Cuts

section Deletions
variable {world : World ν} {full : Bytes → Bytes → Prop} {d a v : Bytes} {q : Path}
variable {n c e : Node} {D x z : Item ν} {store' : Store ν} {deleted : Deleted ν}

/-- A scope, a field or an array is deleted with its item. -/
theorem member_cut (h : Backed full world)
    (there : (rootNode world.root).getAt (archiveAt d a ++ q) = some n)
    (stands : Stands full world d a q n D x) (absorbs : Absorbs full world d a q n x)
    (notArray : n.info.jsl ≠ .array) {key : Bytes} (found : n.follow (.scope key) = some c)
    (level : ¬ IsItem c) (apart : NamesApart x.child) (seat : Seat x (.scope key) z)
    {mid : Heap ν} (touched : HeapTouched z.addrs world.store.heap mid)
    (heap : store'.heap = cutOut mid c x.addr z.addr)
    (regular : Regular 0 (rootNode (world.modifyAt (fun _ => removeScope n c.info.scopeName)
      (archiveAt d a ++ q) store').root)) (retval : Int) :
    let world' := world.modifyAt (fun _ => removeScope n c.info.scopeName)
      (archiveAt d a ++ q) store'
    Backed full world' ∧ DocEffect world d a v world' retval := by
  have name : fold c.info.scopeName = key := key_of_avlsearch Node.scopeKey found
  have named : z.string.map fold = some (fold c.info.scopeName) := by
    rw [name]
    exact seat.2
  obtain ⟨next, roots⟩ := cut_member h.separate stands.inHeap apart seat.1 named level touched
  rw [← heap] at next roots
  have noItems : n.array = [] := (regular_at h.regular there).here.noItems notArray
  have one : (x.child.eraseP (Item.named c.info.scopeName)).length + 1 = x.child.length :=
    List.length_eraseP_add_one seat.1 (named_iff.mpr named)
  have fewer : (x.child.eraseP (Item.named c.info.scopeName)).length < x.child.length := by omega
  exact cut_effect h there stands absorbs (.of_info (removeScope_info ..)) List.eraseP_sublist fewer
    next roots (over_removed stands.overlay notArray noItems _) regular retval

/-- An item of an array is deleted with its element. -/
theorem element_cut (h : Backed full world)
    (tidy : ∀ D, documentOf world d a = some D → Tidy D)
    (there : (rootNode world.root).getAt (archiveAt d a ++ q) = some c)
    (array : c.info.jsl = .array) {k : Nat} (entered : c.follow (.item k) = some e) {fuel : Nat}
    {r : Store ν × Node × Avl Node} (call : rtDeleteRange true fuel world.store e c = some r)
    (heap : store'.heap = r.1.heap)
    (regular : Regular 0 (rootNode (world.modifyAt (fun _ => r.2.1)
      (archiveAt d a ++ q) store').root)) (retval : Int) :
    let world' := world.modifyAt (fun _ => r.2.1) (archiveAt d a ++ q) store'
    Backed full world' ∧ DocEffect world d a v world' retval := by
  obtain ⟨D, x, stands, absorbs⟩ := h.edit there
  obtain ⟨z, seat, tells, overlay⟩ := stands.overlay.down entered
  have linked := stands.overlay.here.linked
  have level : IsItem e := by
    have other := (tidy D (documentOf_stands h stands)).elements x stands.inside z seat.child seat.2
    rw [IsItem, tells.jsl]
    rcases itemJsl_unnamed seat.2 with same | same | same
    · exact Or.inl same
    · exact Or.inr same
    · exact absurd same other
  have above : r.2.1 = dropItem c e := by
    have done := (rtDeleteRange_unlinks true fuel _ _ _ _ _ _ call).above
    rw [done, parentAfter, if_pos level]
  obtain ⟨mid, touched, last⟩ := rtDeleteRange_cutsOut z.addrs fuel world.store e c r x.addr z.addr
    call (inside_of_over overlay (List.Subset.refl _)) overlay.here.linked.ptr
    (linked.below _ e entered) linked.ptr
  obtain ⟨next, roots⟩ := cut_element h.separate stands.inHeap seat.1 level touched
  rw [← last, ← heap] at next roots
  have noScopes : c.nextScope = .nil := (regular_at h.regular there).here.noScopes array
  have place : k < x.child.length := (List.getElem?_eq_some_iff.mp seat.1).1
  have fewer : (x.child.eraseIdx k).length < x.child.length := by
    rw [List.length_eraseIdx_of_lt place]
    omega
  have replaces : Replaces c (dropItem c e) := by constructor <;> simp [dropItem]
  rw [above] at regular ⊢
  exact cut_effect h there stands absorbs replaces (List.eraseIdx_sublist ..) fewer next roots
    (over_dropped stands.overlay array noScopes entered) regular retval

/-- What a deletion below an archive does to the document. -/
theorem delete_effect (h : Backed full world)
    (tidy : ∀ D, documentOf world d a = some D → Tidy D)
    (there : (rootNode world.root).getAt (archiveAt d a ++ q) = some n)
    (notArray : n.info.jsl ≠ .array) {segm : Segment}
    (found : n.follow (.scope (fold segm.name)) = some c) (target : Named c segm) {fuel : Nat}
    (call : rtDelete fuel world.store c n segm = some deleted)
    (heap : store'.heap = deleted.store.heap)
    (regular : Regular 0 (rootNode (world.modifyAt (fun _ => deleted.parentnode)
      (archiveAt d a ++ q) store').root)) :
    let world' := world.modifyAt (fun _ => deleted.parentnode) (archiveAt d a ++ q) store'
    Backed full world' ∧ DocEffect world d a v world' deleted.retval := by
  intro world'
  obtain ⟨D, x, stands, absorbs⟩ := h.edit there
  obtain ⟨z, seat, tells, overlay⟩ := stands.overlay.down found
  have linked := stands.overlay.here.linked
  have apart := (tidy D (documentOf_stands h stands)).names x stands.inside
  have inside := inside_of_over overlay (List.Subset.refl _)
  have notItem : ¬ IsItem c := (regular_at h.regular there).here.level c
    (mem_of_avlsearch Node.scopeKey found)
  rcases Int.lt_or_le deleted.retval 0 with negative | ok
  · obtain ⟨store, parent⟩ := rtDelete_negative call negative
    refine settled_effect h (Int.ne_of_lt negative) ?_ (heap.trans (congrArg Store.heap store))
    rw [rootNode_modifyAt world _ (by simp), parent, modifyAt_self there]
  cases rtDelete_done target overlay.here.room call ok with
  | @scope store₁ r level level' same call stored above =>
    obtain ⟨mid, touched, last⟩ := rtDeleteRange_cutsOut z.addrs fuel store₁ c n r x.addr z.addr
      call inside overlay.here.linked.ptr (linked.below _ c found) linked.ptr
    have parent : deleted.parentnode = removeScope n c.info.scopeName := by
      have done := (rtDeleteRange_unlinks true fuel _ _ _ _ _ _ call).above
      rw [above, done, parentAfter, if_neg notItem]
    rw [same] at touched
    rw [stored, last] at heap
    simp only [world', parent] at regular ⊢
    exact member_cut h there stands absorbs notArray found notItem apart seat touched heap regular _
  | @entire store₁ c₁ r level index drained call stored above =>
    obtain ⟨first, inside', alike⟩ := deleteAllItems_touched inside drained
    obtain ⟨mid, touched, last⟩ := rtDeleteRange_cutsOut z.addrs fuel store₁ c₁ n r x.addr z.addr
      call inside' (alike.ptr.trans overlay.here.linked.ptr)
      (alike.parentptr.trans (linked.below _ c found)) linked.ptr
    have parent : deleted.parentnode = removeScope n c.info.scopeName := by
      have done := (rtDeleteRange_unlinks true fuel _ _ _ _ _ _ call).above
      rw [above, done, (parentAfter_congr alike.same n).1, parentAfter, if_neg notItem]
    rw [stored, last, cutOut_congr alike.same] at heap
    simp only [world', parent] at regular ⊢
    exact member_cut h there stands absorbs notArray found notItem apart seat
      (first.trans touched) heap regular _
  | @item k e r level place entered call stored above =>
    have done := (rtDeleteRange_unlinks true fuel _ _ _ _ _ _ call).above
    have key : r.2.1.scopeKey = fold segm.name := by
      rw [done, scopeKey_of_same (same_parentAfter e c)]
      exact key_of_avlsearch Node.scopeKey found
    rw [key] at above
    have same : world' = world.modifyAt (fun _ => r.2.1)
        (archiveAt d a ++ (q ++ [.scope (fold segm.name)])) store' := by
      rw [← List.append_assoc, modifyAt_child there, ← above]
    have member : (rootNode world.root).getAt (archiveAt d a ++ (q ++ [.scope (fold segm.name)])) =
        some c := by
      rw [← List.append_assoc]
      exact getAt_snoc there found
    have regular' : Regular 0 (rootNode world'.root) := regular
    rw [same] at regular' ⊢
    exact element_cut h tidy member level entered call (heap.trans (congrArg Store.heap stored))
      regular' _

end Deletions

section Archives
variable {world : World ν} {full : Bytes → Bytes → Prop} {d a v : Bytes} {n m m' archive : Node}
variable {D : Item ν} {store' : Store ν}

/-- The archives after a write to a directory. -/
theorem archive_dir (there : n.follow (.scope d) = some m) (key : m'.scopeKey = m.scopeKey)
    (d' a' : Bytes) : (n.modifyAt (fun _ => m') [.scope d]).getAt (archiveAt d' a') =
      if d' = d then m'.follow (.scope a') else n.getAt (archiveAt d' a') := by
  have keeps : ∀ x, n.getAt [.scope d] = some x → m'.scopeKey = x.scopeKey := by
    intro x hx
    rw [Catalog.getAt_one, there] at hx
    obtain rfl := Option.some.inj hx
    exact key
  rw [Node.getAt, follow_modifyAt keeps]
  split
  · rename_i same
    rw [if_pos (Step.scope.inj same), there, Option.map_some, Option.bind_some, Catalog.getAt_one]
    rfl
  · rename_i other
    rw [if_neg fun same => other (congrArg Step.scope same), Node.getAt]

omit [DoubleText ν] in
/-- A document of its own beside the others. -/
theorem separate_addRoot {heap : Heap ν} (separate : Separate heap) (kind : Kind ν) :
    Separate ((cjsonCreate heap kind).1.addRoot (cjsonCreate heap kind).2) := by
  have own : (cjsonCreate heap kind).2.addrs = [heap.nextAddr] := by
    rw [addrs_eq]
    rfl
  have roots : ((cjsonCreate heap kind).1.addRoot (cjsonCreate heap kind).2).roots.flatMap addrs =
      heap.roots.flatMap addrs ++ [heap.nextAddr] := by
    simp only [Heap.addRoot, cjsonCreate, List.flatMap_append, List.flatMap_singleton]
    rw [← own]
    rfl
  constructor
  · rw [roots, List.nodup_append']
    refine ⟨separate.apart, List.nodup_singleton _, fun b hb same => ?_⟩
    obtain rfl := List.mem_singleton.mp same
    exact absurd (separate.below _ hb) (Nat.lt_irrefl _)
  · intro b hb
    rw [roots, List.mem_append, List.mem_singleton] at hb
    rcases hb with old | rfl
    · exact Nat.lt_succ_of_lt (separate.below b old)
    · exact Nat.lt_succ_self _

/-- A new archive over a new document. -/
theorem made_effect (h : Backed full world)
    (there : (rootNode world.root).follow (.scope d) = some m)
    (missing : m.follow (.scope a) = none) (key : archive.scopeKey = a)
    (parentptr : archive.info.jsonparentptr = none)
    (overlay : Over (full d a) store'.heap.nextAddr archive D) (object : D.kind = .cjsonObject)
    (unnamed : D.string = none) (addr : D.addr = world.store.heap.nextAddr)
    (later : world.store.heap.nextAddr ≤ store'.heap.nextAddr)
    (roots : store'.heap.roots = world.store.heap.roots ++ [D]) (separate : Separate store'.heap)
    (regular : Regular 0 (rootNode (world.modifyAt (fun _ => insertScope m archive)
      [.scope d] store').root)) (retval : Int) :
    let world' := world.modifyAt (fun _ => insertScope m archive) [.scope d] store'
    Backed full world' ∧ DocEffect world d a v world' retval := by
  intro world'
  have dir : (rootNode world.root).getAt [.scope d] = some m := by rw [Catalog.getAt_one, there]
  have ordered := (regular_at h.regular dir).here.ordered
  have places : ∀ d' a', (rootNode world'.root).getAt (archiveAt d' a') =
      if d' = d ∧ a' = a then some archive else (rootNode world.root).getAt (archiveAt d' a') := by
    intro d' a'
    rw [rootNode_modifyAt world _ (by simp), archive_dir there
      (by rw [Node.scopeKey, insertScope_info, Node.scopeKey])]
    by_cases same : d' = d
    · subst same
      rw [if_pos rfl, follow_insertScope ordered, key]
      by_cases file : a' = a
      · subst file
        rw [if_pos rfl, if_pos ⟨rfl, rfl⟩, missing]
        rfl
      · rw [if_neg fun same => file (Step.scope.inj same), if_neg fun same => file same.2]
        rw [Node.getAt, there, Option.bind_some, Catalog.getAt_one]
    · rw [if_neg same, if_neg fun both => same both.1]
  have before : (rootNode world.root).getAt (archiveAt d a) = none := by
    rw [Node.getAt, there, Option.bind_some, Catalog.getAt_one, missing]
  have stays : ∀ D' ∈ world.store.heap.roots, D' ∈ store'.heap.roots := by
    intro D' mem
    rw [roots]
    exact List.mem_append_left _ mem
  have new : archive.info.jsonptr = some world.store.heap.nextAddr := by
    rw [overlay.here.linked.ptr, addr]
  -- the address of the new document was not in use
  have fresh : ∀ d' a' archive', (rootNode world.root).getAt (archiveAt d' a') = some archive' →
      archive'.info.jsonptr ≠ archive.info.jsonptr := by
    intro d' a' archive' hArchive' same
    obtain ⟨D', file⟩ := h.filed d' a' archive' hArchive'
    rw [file.overlay.here.linked.ptr, new, Option.some.injEq] at same
    have used := h.separate.below D'.addr
      (List.mem_flatMap.mpr ⟨D', file.root, addr_mem_addrs D'⟩)
    exact absurd used (by rw [same]; exact Nat.lt_irrefl _)
  refine ⟨⟨regular, separate, ?_, ?_⟩, .made before ?_⟩
  · intro d' a' archive' hArchive'
    rw [places] at hArchive'
    split at hArchive'
    · rename_i here
      obtain ⟨rfl, rfl⟩ := here
      obtain rfl := Option.some.inj hArchive'
      refine ⟨D, ?_, overlay, parentptr, object, unnamed⟩
      change D ∈ store'.heap.roots
      rw [roots]
      exact List.mem_append_right _ (List.mem_singleton_self D)
    · obtain ⟨D', file⟩ := h.filed d' a' archive' hArchive'
      exact ⟨D', stays D' file.root, file.overlay.mono later, file.parentptr, file.object,
        file.unnamed⟩
  · intro d₁ a₁ d₂ a₂ archive₁ archive₂ h₁ h₂ same
    rw [places] at h₁ h₂
    split at h₁ <;> split at h₂
    · rename_i one two
      exact ⟨one.1.trans two.1.symm, one.2.trans two.2.symm⟩
    · obtain rfl := Option.some.inj h₁
      exact absurd same.symm (fresh _ _ _ h₂)
    · obtain rfl := Option.some.inj h₂
      exact absurd same (fresh _ _ _ h₁)
    · exact h.apart d₁ a₁ d₂ a₂ archive₁ archive₂ h₁ h₂ same
  · rw [places, if_pos ⟨rfl, rfl⟩]
    exact Option.some_ne_none archive

/-- What is appended from an archive on that is not there yet. -/
theorem make_effect (h : Backed full world) (short : v.length < maxValueSize) {name : Bytes}
    {index : Int} {rest : List Segment} (below : Below rest) (noDot : dot ∉ name)
    (there : (rootNode world.root).follow (.scope d) = some m)
    (missing : m.follow (.scope (fold name)) = none)
    (regular : Regular 0 (rootNode (world.modifyAt
      (fun _ => (rtAppend v world.store m (⟨name, index, .archive⟩ :: rest)).node) [.scope d]
      (rtAppend v world.store m (⟨name, index, .archive⟩ :: rest)).store).root)) :
    let r := rtAppend v world.store m (⟨name, index, .archive⟩ :: rest)
    let world' := world.modifyAt (fun _ => r.node) [.scope d] r.store
    Backed full world' ∧ DocEffect world d (fold name) v world' r.retval := by
  have dir : (rootNode world.root).getAt [.scope d] = some m := by rw [Catalog.getAt_one, there]
  have refused : ∀ store' : Store ν, store'.heap = world.store.heap →
      Backed full (world.modifyAt (fun _ => m) [.scope d] store') ∧ DocEffect world d (fold name) v
        (world.modifyAt (fun _ => m) [.scope d] store') (-1) := by
    intro store' heap
    refine settled_effect h (Int.neg_ne_zero.mpr Int.one_ne_zero) ?_ heap
    rw [rootNode_modifyAt world _ (by simp), modifyAt_self dir]
  rw [rtAppend_archive] at regular ⊢
  split at regular
  · exact refused _ rfl
  · rename_i fs fsSection slot
    split at regular
    · exact refused _ rfl
    · rename_i archive made
      obtain ⟨named, level, tree, array, size, ptr, parentptr, _⟩ := archiveNode_spec noDot made
      simp only [makeArchive] at regular ⊢
      -- the archive as the segments below it find it
      generalize hStart : archive.setInfo (fun info => { info with fsSection := fsSection }) = start
        at regular ⊢
      have own : start.info.jsonptr = some world.store.heap.nextAddr ∧
          start.info.jsonparentptr = none ∧ start.scopeKey = fold name ∧
          start.info.jsl = .archive := by
        subst hStart
        simp only [Node.info_setInfo, Node.scopeKey, named, level, ptr, parentptr, and_self]
      have nowhere : ∀ s, start.follow s = none := by
        intro s
        subst hStart
        cases s <;> simp [Node.follow, tree, array, avlsearch]
      have overlay : ∀ next, Over (full d (fold name)) next start
          (cjsonCreate world.store.heap .cjsonObject).2 := by
        intro next
        refine over_leaf own.1 ?_ ?_ nowhere rfl (fun _ => by simp [own.2.2.2])
        · subst hStart
          simpa using size
        · subst hStart
          rw [Node.nextScope_setInfo, tree]
          exact ordered_nil _
      have separate := separate_addRoot h.separate (.cjsonObject : Kind ν)
      have inHeap : (cjsonCreate world.store.heap (.cjsonObject : Kind ν)).2 ∈
          ((cjsonCreate world.store.heap .cjsonObject).1.addRoot
            (cjsonCreate world.store.heap .cjsonObject).2).roots.flatMap items :=
        List.mem_flatMap.mpr ⟨_, List.mem_append_right _ (List.mem_singleton_self _),
          self_mem_items _⟩
      have grew := appendsWell_of_below (full d (fold name)) short below
        { world.store with
          fs := fs
          heap := (cjsonCreate world.store.heap .cjsonObject).1.addRoot
            (cjsonCreate world.store.heap .cjsonObject).2 } start _ separate inHeap (overlay _)
        (by simp [own.2.2.2]) (by rw [own.2.2.2]; rfl) fun segm _ => nowhere _
      have key := scopeKey_rtAppend v
        { world.store with
          fs := fs
          heap := (cjsonCreate world.store.heap .cjsonObject).1.addRoot
            (cjsonCreate world.store.heap .cjsonObject).2 } start rest
      generalize rtAppend v
        { world.store with
          fs := fs
          heap := (cjsonCreate world.store.heap .cjsonObject).1.addRoot
            (cjsonCreate world.store.heap .cjsonObject).2 } start rest = r at regular key grew ⊢
      have later : world.store.heap.nextAddr <
          ((cjsonCreate world.store.heap (.cjsonObject : Kind ν)).1.addRoot
            (cjsonCreate world.store.heap .cjsonObject).2).nextAddr := Nat.lt_succ_self _
      cases grew with
      | refused heap same failed =>
        rw [same] at regular ⊢
        refine made_effect h there missing own.2.2.1 own.2.1 (overlay _) rfl rfl rfl ?_ ?_ ?_
          regular _
        · rw [heap]
          exact Nat.le_of_lt later
        · rw [heap]
          rfl
        · rw [heap]
          exact separate
      | grown y later' roots nodup fresh replaces overlay' =>
        have parent : r.node.info.jsonparentptr = none := by rw [replaces.parentptr, own.2.1]
        refine made_effect h there missing (key.trans own.2.2.1) parent overlay' rfl rfl rfl
          (Nat.le_of_lt (Nat.lt_trans later later')) ?_
          (separate_append separate inHeap (Nat.le_of_lt later') roots nodup fresh) regular _
        have unused : world.store.heap.nextAddr ∉ world.store.heap.roots.flatMap Item.addrs :=
          fun mem => absurd (h.separate.below _ mem) (Nat.lt_irrefl _)
        rw [roots, Heap.addRoot, List.map_append, List.map_singleton, update_here]
        exact congrArg (· ++ _) (update_map_of_not_mem _ unused)

/-- An archive is deleted with its document. -/
theorem removed_effect (h : Backed full world)
    (there : (rootNode world.root).follow (.scope d) = some m)
    (found : m.follow (.scope a) = some archive) {segm : Segment} (target : Named archive segm)
    {fuel : Nat} {deleted : Deleted ν}
    (call : rtDelete fuel world.store archive m segm = some deleted)
    (heap : store'.heap = deleted.store.heap)
    (regular : Regular 0 (rootNode (world.modifyAt (fun _ => deleted.parentnode)
      [.scope d] store').root)) :
    let world' := world.modifyAt (fun _ => deleted.parentnode) [.scope d] store'
    Backed full world' ∧ DocEffect world d a v world' deleted.retval := by
  intro world'
  have dir : (rootNode world.root).getAt [.scope d] = some m := by rw [Catalog.getAt_one, there]
  have file : (rootNode world.root).getAt (archiveAt d a) = some archive := by
    rw [Node.getAt, there, Option.bind_some, Catalog.getAt_one, found]
  have regularDir := regular_at h.regular dir
  have level : archive.info.jsl = .archive := (regular_at h.regular file).here.stands
  have notItem := regularDir.here.level archive (mem_of_avlsearch Node.scopeKey found)
  obtain ⟨D, filed⟩ := h.filed d a archive file
  rcases Int.lt_or_le deleted.retval 0 with negative | ok
  · obtain ⟨store, parent⟩ := rtDelete_negative call negative
    refine settled_effect h (Int.ne_of_lt negative) ?_ (heap.trans (congrArg Store.heap store))
    rw [rootNode_modifyAt world _ (by simp), parent, modifyAt_self dir]
  have array : archive.info.jsl ≠ .array := by simp [level]
  cases rtDelete_done target filed.overlay.here.room call ok with
  | entire isArray => exact absurd isArray array
  | item isArray => exact absurd isArray array
  | @scope store₁ r level' _ same call stored above =>
    obtain ⟨mid, touched, last⟩ := rtDeleteRange_archive call
      (inside_of_over filed.overlay (List.Subset.refl _)) level filed.overlay.here.linked.ptr
      filed.parentptr
    have parent : deleted.parentnode = removeScope m archive.info.scopeName := by
      have done := (rtDeleteRange_unlinks true fuel _ _ _ _ _ _ call).above
      rw [above, done, parentAfter, if_neg notItem]
    have name : fold archive.info.scopeName = a := key_of_avlsearch Node.scopeKey found
    rw [same] at touched
    rw [stored, last] at heap
    have next : store'.heap.nextAddr = world.store.heap.nextAddr := by
      rw [heap]
      exact touched.2
    have roots : store'.heap.roots =
        world.store.heap.roots.filter fun c => c.addr ≠ D.addr := by
      rw [heap]
      exact touched_filter h.separate.apart filed.root touched.1
    have places : ∀ d' a', (rootNode world'.root).getAt (archiveAt d' a') =
        if d' = d ∧ a' = a then none else (rootNode world.root).getAt (archiveAt d' a') := by
      intro d' a'
      rw [rootNode_modifyAt world _ (by simp), parent, archive_dir there
        (by rw [Node.scopeKey, removeScope_info, Node.scopeKey])]
      by_cases same : d' = d
      · subst same
        rw [if_pos rfl, follow_removeScope regularDir.here.ordered, name]
        by_cases gone : a' = a
        · rw [if_pos (congrArg Step.scope gone), if_pos ⟨rfl, gone⟩]
        · rw [if_neg fun same => gone (Step.scope.inj same), if_neg fun both => gone both.2]
          rw [Node.getAt, there, Option.bind_some, Catalog.getAt_one]
      · rw [if_neg same, if_neg fun both => same both.1]
    have kept : ∀ d' a' archive', (rootNode world'.root).getAt (archiveAt d' a') = some archive' →
        ¬ (d' = d ∧ a' = a) ∧ (rootNode world.root).getAt (archiveAt d' a') = some archive' := by
      intro d' a' archive' hArchive'
      rw [places] at hArchive'
      split at hArchive'
      · cases hArchive'
      · exact ⟨‹_›, hArchive'⟩
    have separate : Separate store'.heap := by
      have fewer : (store'.heap.roots.flatMap Item.addrs).Sublist
          (world.store.heap.roots.flatMap Item.addrs) := by
        rw [roots]
        exact List.Sublist.flatMap List.filter_sublist _
      refine ⟨h.separate.apart.sublist fewer, fun b hb => ?_⟩
      rw [next]
      exact h.separate.below b (fewer.subset hb)
    refine ⟨⟨regular, separate, ?_, ?_⟩, .removed ?_ ?_⟩
    · intro d' a' archive' hArchive'
      obtain ⟨other, old⟩ := kept d' a' archive' hArchive'
      obtain ⟨D', filed'⟩ := h.filed d' a' archive' old
      refine ⟨D', ?_, filed'.overlay.mono (Nat.le_of_eq next.symm), filed'.parentptr, filed'.object,
        filed'.unnamed⟩
      change D' ∈ store'.heap.roots
      rw [roots, List.mem_filter]
      refine ⟨filed'.root, decide_eq_true fun same => other ?_⟩
      refine h.apart d' a' d a archive' archive old file ?_
      rw [filed'.overlay.here.linked.ptr, filed.overlay.here.linked.ptr, same]
    · intro d₁ a₁ d₂ a₂ archive₁ archive₂ h₁ h₂ same
      exact h.apart d₁ a₁ d₂ a₂ archive₁ archive₂ (kept _ _ _ h₁).2 (kept _ _ _ h₂).2 same
    · rw [file]
      exact Option.some_ne_none archive
    · rw [places, if_pos ⟨rfl, rfl⟩]

end Archives

section Updates
variable {world : World ν} {full : Bytes → Bytes → Prop} {jrp : Jrp} {v d a : Bytes} {u : Updated ν}

theorem below_of_accepted {rest : List Segment}
    (accepted : AcceptedKey (⟨d, -1, .dir⟩ :: ⟨a, -1, .archive⟩ :: rest)) :
    rest = [] ∨ Below rest := by
  cases accepted with
  | archive fits fits' => exact Or.inl rfl
  | below fits fits' below => exact Or.inr below

omit [DoubleText ν] in
/-- Where a way stops with segments left, that node is a directory, or lies in an archive. -/
theorem place_of_walks {rest passed left : List Segment} {path : Path} {n : Node} {segm : Segment}
    (walk : Walks (rootNode world.root) (⟨d, -1, .dir⟩ :: ⟨a, -1, .archive⟩ :: rest) path passed n
      (segm :: left)) (started : path ≠ []) :
    (path = [.scope (fold d)] ∧ segm = ⟨a, -1, .archive⟩ ∧ left = rest) ∨
      ∃ q, path = archiveAt (fold d) (fold a) ++ q ∧ segm :: left <:+ rest := by
  rcases walks_below walk with ⟨none, _⟩ | ⟨dir, same⟩ | below
  · exact absurd none started
  · obtain ⟨rfl, rfl⟩ := List.cons.inj same
    exact Or.inl ⟨dir, rfl, rfl⟩
  · exact Or.inr below

/-- Every update of a key with an archive. -/
theorem update_effect (h : Backed full world)
    (tidy : ∀ D, documentOf world (fold d) (fold a) = some D → Tidy D)
    (accepted : AcceptedKey jrp.segm) {rest : List Segment}
    (key : jrp.segm = ⟨d, -1, .dir⟩ :: ⟨a, -1, .archive⟩ :: rest) (noDot : dot ∉ a)
    (value : jrp.valuestring = some v) (short : v.length < maxValueSize)
    (done : rtConfigUpdate world jrp = some u) :
    Backed full u.world ∧ DocEffect world (fold d) (fold a) v u.world u.retval := by
  have regular := regular_update h.regular accepted done
  have shape := accepted
  rw [key] at shape
  have lower := below_of_accepted shape
  have inner : ∀ segm : Segment, ∀ left, segm :: left <:+ rest → Below (segm :: left) := by
    intro segm left suffix
    rcases lower with rfl | below
    · cases List.suffix_nil.mp suffix
    · exact below_of_suffix below suffix (List.cons_ne_nil _ _)
  have failed : (-1 : Int) ≠ 0 := Int.neg_ne_zero.mpr Int.one_ne_zero
  have startedOf : ∀ {path : Path} {passed : List Segment} {n : Node} {segm : Segment},
      Walks (rootNode world.root) jrp.segm path passed n [segm] → path ≠ [] := by
    rintro path passed n segm walk rfl
    rw [key] at walk
    cases walk
  have member : ∀ {n c : Node} {segm : Segment} {q : Path},
      (rootNode world.root).getAt (archiveAt (fold d) (fold a) ++ q) = some n →
      n.follow (.scope (fold segm.name)) = some c → (rootNode world.root).getAt
        (archiveAt (fold d) (fold a) ++ (q ++ [.scope (fold segm.name)])) = some c := by
    intro n c segm q there found
    rw [← List.append_assoc]
    exact getAt_snoc there found
  cases update_cases h.regular.built accepted value done with
  | refused archive => exact settled_effect h failed rfl rfl
  | @delete path passed n c segm walk found target keyword deleted call checkpoints archive =>
    have started := startedOf walk
    have there := getAt_of_walks walk
    have notArray := notArray_of_walks walk h.regular nofun
    rw [key] at walk
    rcases place_of_walks walk started with ⟨rfl, rfl, _⟩ | ⟨q, rfl, suffix⟩
    · rw [Catalog.getAt_one] at there
      exact removed_effect h there found target call rfl regular
    · exact delete_effect h tidy there notArray found target call rfl regular
  | @field path passed n c segm walk found level level' keep archive =>
    have started := startedOf walk
    have there := getAt_of_walks walk
    rw [key] at walk
    rcases place_of_walks walk started with ⟨rfl, rfl, _⟩ | ⟨q, rfl, suffix⟩
    · have file := (h.regular.follow (by rwa [Catalog.getAt_one] at there)).follow found
      have stands : c.info.jsl = .archive := file.here.stands
      rw [level] at stands
      cases stands
    · refine field_effect h there found level short rfl ?_ regular
      rw [List.append_assoc]
      rfl
  | @item path passed n c segm walk found level level' place keep archive =>
    have started := startedOf walk
    have there := getAt_of_walks walk
    rw [key] at walk
    rcases place_of_walks walk started with ⟨rfl, rfl, _⟩ | ⟨q, rfl, suffix⟩
    · cases level'
    · have here := member there found
      obtain ⟨D, x, stands, absorbs⟩ := h.edit here
      dsimp only at regular ⊢
      rw [List.append_assoc] at regular ⊢
      rcases place with ⟨k, place⟩ | entire
      · obtain ⟨e, entered⟩ := placeOf_entered stands.overlay.here.linked.size place
        exact item_effect h here place entered level short rfl rfl regular
      · -- the index for all items is one that no value can be written to
        have refused : rtArrayFieldUpdate world.store c segm.index v = (world.store, c, -1) := by
          have symbols : jaSymLast < jaSymEntire := by decide
          have room := stands.overlay.here.room
          rw [rtArrayFieldUpdate, stands.overlay.here.linked.ptr]
          dsimp only
          rw [if_pos (Or.inr (Or.inr (by omega)))]
        rw [refused]
        refine settled_effect h failed ?_ rfl
        rw [rootNode_modifyAt world _ (by simp), modifyAt_self here]
  | @missing path passed left m segm walk started missing level noFile keep archive =>
    have there := getAt_of_walks walk
    have notArray := notArray_of_walks walk h.regular nofun
    rw [key] at walk
    rcases place_of_walks walk started with ⟨rfl, rfl, rfl⟩ | ⟨q, rfl, suffix⟩
    · rw [Catalog.getAt_one] at there
      have dir : m.info.jsl = .dir := (h.regular.follow there).here.stands
      have long := noFile dir
      have below : Below left := by
        refine lower.resolve_left ?_
        rintro rfl
        rw [key] at long
        exact absurd long (Nat.lt_irrefl 2)
      exact make_effect h short below noDot there missing regular
    · obtain ⟨D, x, stands, absorbs⟩ := h.edit there
      have leaf : isLeaf m.info.jsl = false := by
        simp [isLeaf, level.1, level.2]
      refine grown_effect h there stands absorbs ?_ regular
      refine appendsWell_of_below _ short (inner segm left suffix) world.store m x h.separate
        stands.inHeap stands.overlay notArray leaf ?_
      rintro segm' same
      obtain rfl := Option.some.inj same
      exact missing
  | @extend path passed left m c segm walk found level level' next keep archive =>
    have there := getAt_of_walks walk
    have started : path ≠ [] := by
      rintro rfl
      rw [key] at walk
      cases walk
      cases level'
    rw [key] at walk
    rcases place_of_walks walk started with ⟨rfl, rfl, _⟩ | ⟨q, rfl, suffix⟩
    · cases level'
    · have here := member there found
      obtain ⟨D, x, stands, absorbs⟩ := h.edit here
      have later : left = [] ∨ AppendsWell (ν := ν) (full (fold d) (fold a)) v left := by
        cases inner segm left suffix with
        | field => cases level'
        | scope => cases level'
        | array => exact Or.inl rfl
        | item _ _ _ below => exact Or.inr (appendsWell_of_below _ short below)
      have grew : Grew (full (fold d) (fold a)) world.store c x
          (rtAppend v world.store c (segm :: left)) := by
        obtain ⟨name, index, jsl⟩ := segm
        obtain rfl : jsl = .array := level'
        rw [rtAppend_array]
        split
        · rename_i takes
          exact grew_addTo short later h.separate stands.inHeap stands.overlay level
            (appendable_iff.mp takes).2.2
        · exact grew_nothing ..
      dsimp only at regular ⊢
      rw [List.append_assoc] at regular ⊢
      exact grown_effect h here stands absorbs grew regular

/-- Nothing is written to a directory itself. -/
theorem dir_refused (regular : Regular 0 (rootNode world.root)) (key : jrp.segm = [⟨d, -1, .dir⟩])
    (accepted : AcceptedKey jrp.segm) (value : jrp.valuestring = some v)
    (done : rtConfigUpdate world jrp = some u) :
    u.retval < 0 ∧ rootNode u.world.root = rootNode world.root ∧
      u.world.store.heap = world.store.heap := by
  have top : ∀ {path : Path} {passed left : List Segment} {n c : Node} {segm : Segment},
      Walks (rootNode world.root) jrp.segm path passed n (segm :: left) →
      path = [] ∧ n = rootNode world.root ∧ segm = ⟨d, -1, .dir⟩ := by
    intro path passed left n c segm walk
    rw [key] at walk
    cases walk with
    | stop => exact ⟨rfl, rfl, rfl⟩
    | scope found level level' further => cases further
    | item found level level' => cases level'
  have negative : (-1 : Int) < 0 := by decide
  have dir : ∀ {c : Node} {k : Bytes}, (rootNode world.root).follow (.scope k) = some c →
      c.info.jsl = .dir := fun found => (regular.follow found).here.stands
  cases update_cases regular.built accepted value done with
  | refused => exact ⟨negative, rfl, rfl⟩
  | @delete path passed n c segm walk found target keyword deleted call =>
    obtain ⟨rfl, rfl, rfl⟩ := @top _ _ _ _ c _ walk
    obtain rfl := rtDelete_dir (dir found) call
    exact ⟨negative, rfl, rfl⟩
  | @field path passed n c segm walk found level =>
    obtain ⟨rfl, rfl, rfl⟩ := @top _ _ _ _ c _ walk
    rw [dir found] at level
    cases level
  | @item path passed n c segm walk found level =>
    obtain ⟨rfl, rfl, rfl⟩ := @top _ _ _ _ c _ walk
    rw [dir found] at level
    cases level
  | @missing path passed rest m segm walk started =>
    exact absurd (@top _ _ _ _ m _ walk).1 started
  | @extend path passed rest m c segm walk found level =>
    obtain ⟨rfl, rfl, rfl⟩ := @top _ _ _ _ c _ walk
    rw [dir found] at level
    cases level

/-- A document that a tree leaves nothing out of. -/
theorem tidy_of_backed (h : Backed full world) (isFull : full d a) {D : Item ν}
    (document : documentOf world d a = some D) : Tidy D := by
  obtain ⟨archive, there, pointer⟩ := Option.bind_eq_some_iff.mp document
  obtain ⟨D', filed⟩ := h.filed d a archive there
  rw [filed.overlay.here.linked.ptr, Option.bind_some, deref_of_mem h.separate
    (List.mem_flatMap.mpr ⟨D', filed.root, self_mem_items D'⟩)] at pointer
  obtain rfl := Option.some.inj pointer
  exact tidy_of_over filed.overlay isFull

/-- Where nothing is left out of the tree, every request leaves it so. -/
theorem backed_update (h : Backed (fun _ _ => True) world) (received : Catalog.Received jrp)
    (done : rtConfigUpdate world jrp = some u) : Backed (fun _ _ => True) u.world := by
  have accepted := received.accepted
  have noDot := received.noDot
  cases value : jrp.valuestring with
  | none =>
    rw [rtConfigUpdate, value] at done
    obtain rfl := Option.some.inj done
    exact h
  | some v =>
    have short : v.length < maxValueSize := by
      obtain ⟨payload, parsed⟩ := received
      exact ((acceptedKey_of_rtCreateJrp parsed).2 v value).2.2
    have file : ∀ {d a : Bytes} {rest : List Segment},
        jrp.segm = ⟨d, -1, .dir⟩ :: ⟨a, -1, .archive⟩ :: rest →
          Backed (fun _ _ => True) u.world := by
      intro d a rest key
      have mem : ⟨a, -1, .archive⟩ ∈ jrp.segm := by
        rw [key]
        exact List.mem_cons_of_mem _ (List.mem_cons_self ..)
      exact (update_effect h (fun D document => tidy_of_backed h trivial document) accepted key
        (noDot _ mem) value short done).1
    generalize hs : jrp.segm = segms at accepted
    cases accepted with
    | dir fits =>
      obtain ⟨_, tree, heap⟩ := dir_refused h.regular hs (hs ▸ .dir fits) value done
      exact backed_congr h tree heap
    | archive fits fits' => exact file hs
    | below fits fits' below => exact file hs

end Updates

end WriteEffects
