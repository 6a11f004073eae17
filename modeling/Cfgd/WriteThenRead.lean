import Cfgd.WriteFrame

/-!
# Read after write

A write that is answered with success is read back under its key, and every key that
was found before and has another place is answered as before. The one exception is
an index that names an object item of which the stored text `name[i]` is the value.
-/

namespace WriteThenRead

open AvlTree CText CJson Request ConfigNode Loader FsImage Runtime DeleteRange DeleteTargets
open SearchSound PlainDoc KeyShape Reach Levels AppendSteps ReadBack UpdateCases WriteFrame

variable {ν : Type}

section Places

theorem keyPlace_of_walks {n m : Node} {segms passed left : List Segment} {path : Path}
    (walk : Walks n segms path passed m left) (roomy : Roomy n) :
    keyPlace n segms = (keyPlace m left).map (path ++ ·) := by
  induction walk with
  | stop n segms => simp
  | scope found level level' further ih =>
    simp only [keyPlace, found, Option.bind_some, if_neg level, ih (roomy.down found),
      Option.map_map]
    rfl
  | item found level level' place entered further ih =>
    have room := (roomy.down found).here
    have notSize := (placeOf_symbols place room).1
    simp only [keyPlace, found, Option.bind_some, if_pos level, if_neg notSize, place, entered,
      ih ((roomy.down found).down entered), Option.map_map]
    rfl

theorem placeOf_ne {size index : Int} {k : Nat} (place : placeOf size index = some k)
    (room : size < jaSymLast) : ¬ (index = size ∨ index = jaSymAdd) := by
  obtain ⟨_, notAdd, _⟩ := placeOf_symbols place room
  rintro (same | add)
  · rw [placeOf] at place
    split at place
    · omega
    · split at place
      · omega
      · cases place
  · exact notAdd add

theorem placeOf_next {size index : Int} (room : size < jaSymLast)
    (next : index = size ∨ index = jaSymAdd) :
    placeOf size index = none ∧ index ≠ jaSymQuerySize := by
  have order : jaSymLast < jaSymAdd ∧ jaSymAdd < jaSymQuerySize := by decide
  constructor
  · rw [placeOf, if_neg (by omega), if_neg (by omega)]
  · omega

theorem extended_of_walks {n m : Node} {segms passed left : List Segment} {path : Path}
    (walk : Walks n segms path passed m left) (roomy : Roomy n) :
    extendedArray n segms = (extendedArray m left).map (path ++ ·) := by
  induction walk with
  | stop n segms => simp
  | scope found level level' further ih =>
    simp only [extendedArray, found, Option.bind_some, if_neg level, ih (roomy.down found),
      Option.map_map]
    rfl
  | item found level level' place entered further ih =>
    have old := placeOf_ne place (roomy.down found).here
    simp only [extendedArray, found, Option.bind_some, if_pos level, if_neg old, place, entered,
      ih ((roomy.down found).down entered), Option.map_map]
    rfl

end Places

section Growth

def nowhere : Path → Prop := fun _ => False

def atPath (path : Path) : Path → Prop := fun q => q = path

theorem grows_setValue (v : Bytes) (ptr : Addr) (c : Node) :
    Grows nowhere (atPath []) nowhere c (setValue v ptr c) := by
  intro q m there _
  cases q with
  | nil =>
    obtain rfl := Option.some.inj there
    refine ⟨_, rfl, by simp [setValue], fun changed => absurd rfl changed, ?_, ?_, ?_⟩ <;>
      simp [setValue]
  | cons s q =>
    refine ⟨m, ?_, stays_refl _ _ m⟩
    rw [Node.getAt, setValue, follow_setInfo]
    exact there

/-- Below the node itself nothing is lost. -/
theorem grows_of_follow {n n' : Node} {extended : Path → Prop}
    (here : Stays False (extended []) n n')
    (keeps : ∀ s c, n.follow s = some c → n'.follow s = some c) :
    Grows nowhere nowhere extended n n' := by
  intro q m there _
  cases q with
  | nil =>
    obtain rfl := Option.some.inj there
    exact ⟨_, rfl, here⟩
  | cons s q =>
    rw [Node.getAt] at there
    obtain ⟨c, hc, below⟩ := Option.bind_eq_some_iff.mp there
    refine ⟨m, ?_, stays_refl _ _ m⟩
    rw [Node.getAt, keeps s c hc]
    exact below

/-- What `rt_append` does to its node takes nothing away from it. -/
theorem grows_grown {node node' : Node} {segm : Segment} (grown : Grown node segm node')
    (ord : Ordered Node.scopeKey node.nextScope)
    (missing : node.follow (.scope (fold segm.name)) = none) :
    Grows nowhere nowhere (fun q => q = [] ∧ node.info.jsl = .array) node node' := by
  cases grown with
  | unchanged => exact grows_refl node
  | scope child named =>
    apply grows_of_follow
    · refine ⟨?_, fun _ => ?_, ?_, fun _ => ?_, ?_⟩ <;> simp
    · intro s c hc
      rw [follow_insertScope ord]
      by_cases same : s = .scope child.scopeKey
      · rw [same, named, missing] at hc
        cases hc
      · rw [if_neg same, hc]
  | item child array =>
    apply grows_of_follow
    · refine ⟨by simp [addItem], fun _ => by simp [addItem], ?_, ?_, ?_⟩
      · have longer : node.info.arraysize ≤ node.info.arraysize + 1 := by omega
        simp [addItem, longer]
      · exact fun longer => absurd ⟨rfl, array⟩ longer
      · simp [addItem]
    · intro s c hc
      cases s with
      | scope key => simpa [addItem, Node.follow] using hc
      | item i =>
        have inside := (List.getElem?_eq_some_iff.mp hc).1
        have grown : (node.array ++ [child])[i]? = some c := by
          rw [List.getElem?_append_left inside]
          exact hc
        simpa [addItem, Node.follow] using grown

end Growth

section Roots
variable {world : World ν}

theorem built_getAt' {n m : Node} {path : Path} (built : Built n) (there : n.getAt path = some m) :
    Built m := by
  induction path generalizing n with
  | nil =>
    obtain rfl := Option.some.inj there
    exact built
  | cons s rest ih =>
    rw [Node.getAt] at there
    obtain ⟨c, hc, below⟩ := Option.bind_eq_some_iff.mp there
    rcases mem_of_follow hc with mem | mem
    · exact ih (built.scopes c mem) below
    · exact ih (built.items c mem) below

theorem oddBelow_getAt {n m : Node} {path : Path} (plain : ¬ OddBelow n)
    (there : n.getAt path = some m) : ¬ OddBelow m := by
  induction path generalizing n with
  | nil =>
    obtain rfl := Option.some.inj there
    exact plain
  | cons s rest ih =>
    rw [Node.getAt] at there
    obtain ⟨c, hc, below⟩ := Option.bind_eq_some_iff.mp there
    rcases mem_of_follow hc with mem | mem
    · exact ih (oddBelow_scope plain mem) below
    · exact ih (oddBelow_item plain mem).2 below

theorem roomy_root (wf : WellFormed world) : Roomy (rootNode world.root) := by
  have empty : ∀ n : Node, Built n → n.info.jsl = .dir → n.info.arraysize < jaSymLast := by
    intro n built level
    rw [built.size, built.noItems (by rw [level]; exact nofun)]
    decide
  intro q m there
  cases q with
  | nil =>
    obtain rfl := Option.some.inj there
    have blank : (0 : Int) < jaSymLast := by decide
    exact blank
  | cons s q =>
    rw [Node.getAt] at there
    obtain ⟨dir, hdir, below⟩ := Option.bind_eq_some_iff.mp there
    cases s with
    | item i => cases hdir
    | scope key =>
      have mem := mem_of_avlsearch Node.scopeKey hdir
      have builtDir := wf.built.scopes dir mem
      obtain ⟨level, archives⟩ := wf.dirs dir mem
      cases q with
      | nil =>
        obtain rfl := Option.some.inj below
        exact empty dir builtDir level
      | cons s q =>
        rw [Node.getAt] at below
        obtain ⟨archive, harchive, inside⟩ := Option.bind_eq_some_iff.mp below
        cases s with
        | item i =>
          have none := builtDir.noItems (by rw [level]; exact nofun)
          rw [Node.follow, none] at harchive
          cases harchive
        | scope key' =>
          have leveled := (archives archive (mem_of_avlsearch Node.scopeKey harchive)).2
          exact roomy_of_leveled leveled q m inside

theorem leveled_walks {n m : Node} {segms passed left : List Segment} {path : Path}
    (walk : Walks n segms path passed m left) (leveled : Leveled n) : Leveled m := by
  induction walk with
  | stop n segms => exact leveled
  | scope found _ _ _ ih => exact ih (leveled.found found).2.2
  | item found _ _ _ entered _ ih =>
    exact ih ((leveled.found found).2.2.items _ (List.mem_of_getElem? entered))

/-- Where a way can stop: under a level that takes members, at a leaf, or at an odd item. -/
theorem walks_levels {n m : Node} {segms passed left : List Segment} {path : Path}
    (walk : Walks n segms path passed m left) (leveled : Leveled n)
    (opens : TakesMembers n.info.jsl) : TakesMembers m.info.jsl ∨ m.info.jsl = .field ∨
      m.info.jsl = .arrayItemAsField ∨ OddBelow n := by
  induction walk with
  | stop n segms => exact Or.inl opens
  | @scope n c m segm rest passed left path found level level' further ih =>
    obtain ⟨_, member, leveledC⟩ := leveled.found found
    have mem := mem_of_avlsearch Node.scopeKey found
    rcases member with scope | field | array
    · rcases ih leveledC (Or.inr (Or.inl scope)) with h | h | h | odd
      · exact Or.inl h
      · exact Or.inr (Or.inl h)
      · exact Or.inr (Or.inr (Or.inl h))
      · exact Or.inr (Or.inr (Or.inr (.scope mem odd)))
    · have closed : ¬ TakesMembers c.info.jsl := field ▸ closed_levels.2.1
      exact Or.inr (Or.inl (walks_closed further leveledC closed ▸ field))
    · exact absurd array level
  | @item n c e m segm rest passed left path k found level level' place entered further ih =>
    obtain ⟨_, _, leveledC⟩ := leveled.found found
    have mem := mem_of_avlsearch Node.scopeKey found
    have inside : e ∈ c.array := List.mem_of_getElem? entered
    rcases leveledC.elements e inside with (object | leaf) | dir
    · rcases ih (leveledC.items e inside) (Or.inr (Or.inr object)) with h | h | h | odd
      · exact Or.inl h
      · exact Or.inr (Or.inl h)
      · exact Or.inr (Or.inr (Or.inl h))
      · exact Or.inr (Or.inr (Or.inr (.scope mem (.item inside odd))))
    · have closed : ¬ TakesMembers e.info.jsl := leaf ▸ closed_levels.2.2
      have same := walks_closed further (leveledC.items e inside) closed
      exact Or.inr (Or.inr (Or.inl (same ▸ leaf)))
    · refine Or.inr (Or.inr (Or.inr (.scope mem (.here inside ?_))))
      rw [IsItem, dir]
      rintro (h | h) <;> cases h

theorem readsThrough_here (m : Node) (segms : List Segment) :
    ReadsThrough m m segms segms [] [] :=
  ⟨rfl, rfl, fun _ _ _ _ _ _ => rfl⟩

/-- The three kinds of places at which the way of an accepted key can stop. -/
theorem walks_root (wf : WellFormed world) {segms passed left : List Segment}
    (accepted : AcceptedKey segms) {path : Path} {m : Node}
    (walk : Walks (rootNode world.root) segms path passed m left) (started : path ≠ [])
    (more : left ≠ []) :
    (m ∈ world.root.toList ∧
      (∃ before, ReadsThrough (rootNode world.root) m segms left path before) ∧
      ∃ name rest, left = ⟨name, -1, .archive⟩ :: rest ∧
        (rest = [] ∧ segms.length = 2 ∨ Below rest)) ∨
    (Leveled m ∧ (TakesMembers m.info.jsl → Below left ∧
      ∃ before, ReadsThrough (rootNode world.root) m segms left path before) ∧
      (TakesMembers m.info.jsl ∨ m.info.jsl = .field ∨ m.info.jsl = .arrayItemAsField)) := by
  have plain : (-1 : Int) ≠ jaSymAdd := by decide
  cases walk with
  | stop => exact absurd rfl started
  | item found level level' => cases accepted <;> cases level'
  | @scope n dir m segm rest passed left path found level level' further =>
    have mem : dir ∈ world.root.toList := mem_of_avlsearch Node.scopeKey found
    obtain ⟨levelDir, archives⟩ := wf.dirs dir mem
    have archive : ∃ name rest', rest = ⟨name, -1, .archive⟩ :: rest' ∧ segm.index ≠ jaSymAdd ∧
        (rest' = [] ∧ (segm :: rest).length = 2 ∨ Below rest') := by
      cases accepted with
      | dir fits =>
        cases further
        exact absurd rfl more
      | archive fits fits' => exact ⟨_, [], rfl, plain, Or.inl ⟨rfl, rfl⟩⟩
      | below fits fits' below => exact ⟨_, _, rfl, plain, Or.inr below⟩
    obtain ⟨name, rest', rfl, index, shape⟩ := archive
    cases further with
    | stop =>
      refine Or.inl ⟨mem, ?_, name, rest', rfl, shape⟩
      exact ⟨_, readsThrough_scope found rfl index (Or.inl levelDir) (readsThrough_here m _)⟩
    | item found level level' => cases level'
    | @scope _ a _ _ _ passed _ path found' level'' level''' further =>
      have mem' := mem_of_avlsearch Node.scopeKey found'
      obtain ⟨levelArchive, leveled⟩ := archives a mem'
      have opens : TakesMembers a.info.jsl := Or.inl levelArchive
      right
      refine ⟨leveled_walks further leveled, ?_, ?_⟩
      · intro opensM
        rcases shape with ⟨rfl, _⟩ | below
        · cases further
          exact absurd rfl more
        · obtain ⟨before, through, below', _⟩ :=
            readsThrough_of_walks further leveled below more opensM
          have there := getAt_of_walks further
          have there' : dir.getAt (.scope (fold name) :: path) = some m := by
            rw [Node.getAt, found']
            exact there
          have inner := readsThrough_scope found' there plain (Or.inr (Or.inl levelArchive)) through
          exact ⟨below', _, readsThrough_scope found there' index (Or.inl levelDir) inner⟩
      · rcases walks_levels further leveled opens with h | h | h | odd
        · exact Or.inl h
        · exact Or.inr (Or.inl h)
        · exact Or.inr (Or.inr h)
        · exact absurd (.scope mem (.scope mem' odd)) wf.even

end Roots

section Law

/-- The written key, with the index of the new item for `+`, is answered with the value. -/
def ReadsBack (root root' : Avl Node) (segm : List Segment) (v : Bytes) : Prop :=
  ∀ q : Jrp, q.segm = readKey (some (rootNode root)) segm → rtSearch root' q = (0, v)

/-- Every key that was found and has another place is answered as before, but for the
size and the last item of the array that was extended. -/
def Framed (root root' : Avl Node) (segm : List Segment) : Prop :=
  ∀ q : Jrp, 0 ≤ (rtSearch root q).1 →
    (∀ place, keyPlace (rootNode root) q.segm = some place →
      keyPlace (rootNode root) segm ≠ some place) →
    (∀ a ∈ keyViews (rootNode root) q.segm, extendedArray (rootNode root) segm ≠ some a) →
    rtSearch root' q = rtSearch root q

/-- The key ends at an object item of which the stored text is the value. -/
def ItemAlias (root : Avl Node) (segm : List Segment) (v : Bytes) : Prop :=
  ∃ place item, keyPlace (rootNode root) segm = some place ∧
    (rootNode root).getAt place = some item ∧ item.info.jsl = .arrayItem ∧
    item.info.scopeValue = v

/-- What is to be shown of an update that was not refused. -/
def ReadAfterWrite (world : World ν) (segm : List Segment) (v : Bytes) (u : Updated ν) : Prop :=
  (ReadsBack world.root u.world.root segm v ∧ Framed world.root u.world.root segm) ↔
    ¬ ItemAlias world.root segm v

variable {world : World ν} {v : Bytes} {segms passed rest : List Segment} {segm : Segment}
variable {path : Path} {n c m : Node}

theorem framed_of_grows (wf : WellFormed world) {root' : Avl Node}
    {written extended : Path → Prop}
    (grows : Grows nowhere written extended (rootNode world.root) (rootNode root'))
    (place : ∀ q, written q → keyPlace (rootNode world.root) segms = some q)
    (array : ∀ q, extended q → extendedArray (rootNode world.root) segms = some q) :
    Framed world.root root' segms := by
  intro q resolved elsewhere views
  refine search_of_grows grows (roomy_root wf) resolved (fun _ _ _ => id) ?_ ?_
  · intro r hr _ hw
    exact elsewhere r hr (place r hw)
  · intro a ha hx
    exact views a ha (array a hx)

/-- A write at a node of the tree, seen from the root. -/
theorem grows_world {written extended : Path → Prop} {write : Node → Node} {store : Store ν}
    (there : (rootNode world.root).getAt path = some m) (started : path ≠ [])
    (key : (write m).scopeKey = m.scopeKey)
    (grows : Grows nowhere written extended m (write m)) :
    Grows nowhere (fun q => ∃ q', q = path ++ q' ∧ written q')
      (fun q => ∃ q', q = path ++ q' ∧ extended q')
      (rootNode world.root) (rootNode (world.modifyAt write path store).root) := by
  rw [rootNode_modifyAt world write started]
  intro q x hx _
  apply grows_modifyAt there key grows q x hx
  rintro ⟨_, _, none⟩
  exact none

theorem modifyAt_root {write : Node → Node} {store : Store ν} :
    (world.modifyAt write path store).root =
      ((rootNode world.root).modifyAt write path).nextScope := rfl

/-- Where a written member lies, the way to it is read. -/
theorem readsThrough_member (wf : WellFormed world) (accepted : AcceptedKey segms)
    (walk : Walks (rootNode world.root) segms path passed n (segm :: rest))
    (started : path ≠ []) (found : n.follow (.scope (fold segm.name)) = some c)
    (level : c.info.jsl ≠ .archive) :
    Leveled c ∧ Below (segm :: rest) ∧
      ∃ before, ReadsThrough (rootNode world.root) n segms (segm :: rest) path before := by
  rcases walks_root wf accepted walk started (List.cons_ne_nil _ _) with
    ⟨mem, _⟩ | ⟨leveled, reads, _⟩
  · have mem' := mem_of_avlsearch Node.scopeKey found
    exact absurd ((wf.dirs n mem).2 c mem').1 level
  · obtain ⟨opens, _, leveledC⟩ := leveled.found found
    obtain ⟨below, reads⟩ := reads opens
    exact ⟨leveledC, below, reads⟩

/-- The search after a write to a member goes to what was written. -/
theorem search_member (store : Store ν) (answer : Bytes → Int × Bytes) {before : List Segment}
    {c' : Node}
    (reads : ReadsThrough (rootNode world.root) n segms (segm :: rest) path before)
    (found : n.follow (.scope (fold segm.name)) = some c) (key : c'.scopeKey = c.scopeKey)
    (answers : ∀ tree retval dupvalue,
      avlsearch Node.scopeKey tree (fold segm.name) = some c' →
      rtSearchLoop retval tree dupvalue (readKey (some n) (segm :: rest)) = answer dupvalue)
    (q : Jrp) (hq : q.segm = readKey (some (rootNode world.root)) segms) :
    rtSearch (world.modifyAt (fun _ => c') (path ++ [.scope (fold segm.name)]) store).root q =
      answer q.dupvalue := by
  have keeps : ∀ m, n.getAt [.scope (fold segm.name)] = some m → c'.scopeKey = m.scopeKey := by
    intro m hm
    rw [Node.getAt, found] at hm
    exact Option.some.inj hm ▸ key
  have info : (n.modifyAt (fun _ => c') [.scope (fold segm.name)]).info = n.info := modifyAt_info
  rw [modifyAt_root, modifyAt_append, rtSearch, hq, reads.key]
  apply Eq.trans (reads.search _ ⟨by rw [Node.scopeKey, info, Node.scopeKey], by rw [info]⟩ _
    (readKey_ne_nil (List.cons_ne_nil _ _)) 0 q.dupvalue)
  apply answers
  have step := follow_modifyAt keeps (.scope (fold segm.name))
  rw [if_pos rfl, found, Option.map_some] at step
  exact step

/-- Where a member is named, the key leads to it. -/
theorem keyPlace_member (wf : WellFormed world)
    (walk : Walks (rootNode world.root) segms path passed n [segm])
    (found : n.follow (.scope (fold segm.name)) = some c) (level : c.info.jsl ≠ .array) :
    keyPlace (rootNode world.root) segms = some (path ++ [.scope (fold segm.name)]) := by
  rw [keyPlace_of_walks walk (roomy_root wf)]
  simp [keyPlace, found, level]

theorem keyPlace_item (wf : WellFormed world)
    (walk : Walks (rootNode world.root) segms path passed n [segm])
    (found : n.follow (.scope (fold segm.name)) = some c) (level : c.info.jsl = .array) {k : Nat}
    (place : placeOf c.info.arraysize segm.index = some k) {e : Node}
    (entered : c.follow (.item k) = some e) (room : c.info.arraysize < jaSymLast) :
    keyPlace (rootNode world.root) segms =
      some (path ++ [.scope (fold segm.name), .item k]) := by
  have notSize := (placeOf_symbols place room).1
  rw [keyPlace_of_walks walk (roomy_root wf)]
  simp [keyPlace, found, level, place, entered, notSize]

variable [DoubleText ν]

/-- A field after an update that succeeded. -/
theorem rtFieldUpdate_written {store : Store ν} (level : c.info.jsl = .field)
    (ok : 0 ≤ (rtFieldUpdate store c v).2.2) :
    (rtFieldUpdate store c v).2.1.scopeKey = c.scopeKey ∧
      (rtFieldUpdate store c v).2.1.info.jsl = .field ∧
      (rtFieldUpdate store c v).2.1.info.scopeValue = v ∧
      Grows nowhere (atPath []) nowhere c (rtFieldUpdate store c v).2.1 := by
  rcases rtFieldUpdate_cases store v level with ⟨_, same, value⟩ | ⟨_, _, item, _, _, made⟩
  · rw [same]
    exact ⟨rfl, level, value ok, grows_refl c⟩
  · rw [made]
    exact ⟨by simp [Node.scopeKey, setValue], by simp [setValue, level], by simp [setValue],
      grows_setValue v item.addr c⟩

theorem readAfterWrite_field (wf : WellFormed world) (accepted : AcceptedKey segms)
    (walk : Walks (rootNode world.root) segms path passed n [segm]) (started : path ≠ [])
    (found : n.follow (.scope (fold segm.name)) = some c) (level : c.info.jsl = .field)
    (level' : segm.jsl ≠ .array) {archive : Option Path}
    (ok : 0 ≤ (rtFieldUpdate world.store c v).2.2) :
    ReadAfterWrite world segms v
      ⟨world.modifyAt (fun _ => (rtFieldUpdate world.store c v).2.1)
        (path ++ [.scope (fold segm.name)]) (rtFieldUpdate world.store c v).1,
        (rtFieldUpdate world.store c v).2.2, archive⟩ := by
  obtain ⟨key, field, value, grows⟩ := rtFieldUpdate_written level ok
  have notArray : c.info.jsl ≠ .array := by rw [level]; exact nofun
  have notArchive : c.info.jsl ≠ .archive := by rw [level]; exact nofun
  obtain ⟨_, below, before, reads⟩ :=
    readsThrough_member wf accepted walk started found notArchive
  have there := getAt_member walk found
  have place := keyPlace_member wf walk found notArray
  refine iff_of_true ⟨?_, ?_⟩ ?_
  · refine search_member _ (fun _ => (0, v)) reads found key ?_
    intro tree retval dupvalue located
    have search : searchScope tree segm.name = some _ := located
    cases below with
    | field fits =>
      have plain : (-1 : Int) ≠ jaSymAdd := by decide
      simp only [readKey, if_neg plain]
      rw [rtSearchLoop, search]
      simp only [field, value]
      rfl
    | array fits range => exact absurd rfl level'
    | scope fits below => exact absurd rfl below.ne_nil
    | item fits range single below => exact absurd rfl level'
  · refine framed_of_grows wf (grows_world there (by simp) key grows) ?_ ?_
    · rintro _ ⟨_, rfl, rfl⟩
      rw [place, List.append_nil]
    · rintro _ ⟨_, _, none⟩
      exact none.elim
  · rintro ⟨place', item, same, found', object, _⟩
    obtain rfl := Option.some.inj (place.symm.trans same)
    obtain rfl := Option.some.inj (there.symm.trans found')
    rw [level] at object
    cases object

/-- An item after an update that succeeded. -/
theorem rtArrayFieldUpdate_written {store : Store ν} {index : Int} {k : Nat} {e : Node}
    (place : placeOf c.info.arraysize index = some k) (entered : c.follow (.item k) = some e)
    (level : c.info.jsl = .array)
    (object : e.info.jsl = .arrayItem →
      (e.info.jsonptr.bind store.heap.deref).map Item.kind = some .cjsonObject)
    (ok : 0 ≤ (rtArrayFieldUpdate store c index v).2.2) :
    ∃ c', (rtArrayFieldUpdate store c index v).2.1 = c' ∧ c'.info = c.info ∧
      (∃ e', c'.follow (.item k) = some e' ∧ e'.info.jsl = e.info.jsl ∧ e'.info.scopeValue = v) ∧
      (e.info.jsl = .arrayItem → e.info.scopeValue = v) ∧
      Grows nowhere (atPath [.item k]) nowhere c c' := by
  rcases rtArrayFieldUpdate_cases store v place entered level with
    ⟨_, same, value⟩ | ⟨_, _, item, _, new, made⟩
  · rw [same]
    exact ⟨c, rfl, rfl, ⟨e, entered, rfl, value ok⟩, fun _ => value ok, grows_refl c⟩
  · rw [made]
    have there : c.getAt [.item k] = some e := by
      rw [Node.getAt, entered]
      rfl
    have keeps : ∀ m, c.getAt [.item k] = some m →
        (setValue v item.addr m).scopeKey = m.scopeKey := by
      intro m _
      simp [Node.scopeKey, setValue]
    refine ⟨_, rfl, modifyAt_info, ⟨setValue v item.addr e, ?_, ?_⟩, ?_, ?_⟩
    · rw [follow_modifyAt keeps, if_pos rfl, entered]
      rfl
    · simp [setValue]
    · intro isObject
      rw [newOne, object isObject] at new
      cases new
    · intro q m hm _
      have stay : ¬ ∃ q', q = [Step.item k] ++ q' ∧ nowhere q' := by
        rintro ⟨_, _, none⟩
        exact none
      obtain ⟨m', hm', stays⟩ := grows_modifyAt there (keeps e there)
        (grows_setValue v item.addr e) q m hm stay
      refine ⟨m', hm', stays.jsl, fun w => stays.value ?_, stays.more, fun _ => stays.size ?_,
        stays.filled⟩
      · rintro ⟨_, rfl, rfl⟩
        exact w rfl
      · rintro ⟨_, _, none⟩
        exact none

theorem readAfterWrite_item (wf : WellFormed world) (accepted : AcceptedKey segms)
    (walk : Walks (rootNode world.root) segms path passed n [segm]) (started : path ≠ [])
    (found : n.follow (.scope (fold segm.name)) = some c) (level : c.info.jsl = .array)
    (level' : segm.jsl = .array) {k : Nat}
    (place : placeOf c.info.arraysize segm.index = some k) {archive : Option Path}
    (ok : 0 ≤ (rtArrayFieldUpdate world.store c segm.index v).2.2) :
    ReadAfterWrite world segms v
      ⟨world.modifyAt (fun _ => (rtArrayFieldUpdate world.store c segm.index v).2.1)
        (path ++ [.scope (fold segm.name)]) (rtArrayFieldUpdate world.store c segm.index v).1,
        (rtArrayFieldUpdate world.store c segm.index v).2.2, archive⟩ := by
  have notArchive : c.info.jsl ≠ .archive := by simp [level]
  obtain ⟨leveled, below, before, reads⟩ :=
    readsThrough_member wf accepted walk started found notArchive
  have there := getAt_member walk found
  obtain ⟨e, entered⟩ := placeOf_entered (built_getAt' wf.built there).size place
  have thereItem : (rootNode world.root).getAt
      (path ++ [.scope (fold segm.name), .item k]) = some e := by
    rw [getAt_append, getAt_of_walks walk, Option.bind_some, Node.getAt, found, Option.bind_some,
      Node.getAt, entered]
    rfl
  have keyAt := keyPlace_item wf walk found level place entered leveled.room
  obtain ⟨c', same, info, ⟨e', entered', jsl, value⟩, stale, grows⟩ :=
    rtArrayFieldUpdate_written place entered level (wf.objects _ e thereItem) ok
  rw [same]
  have key : c'.scopeKey = c.scopeKey := by rw [Node.scopeKey, info, Node.scopeKey]
  have plain := (placeOf_symbols place leveled.room).2.1
  have search : ∀ tree retval dupvalue,
      avlsearch Node.scopeKey tree (fold segm.name) = some c' →
      (e.info.jsl = .arrayItem →
        rtSearchLoop retval tree dupvalue (readKey (some n) [segm]) = (-1, dupvalue)) ∧
      (e.info.jsl = .arrayItemAsField →
        rtSearchLoop retval tree dupvalue (readKey (some n) [segm]) = (0, v)) := by
    intro tree retval dupvalue located
    have one : readKey (some n) [segm] = [segm] := by simp [readKey, plain]
    rw [one, rtSearchLoop_enter located (by rw [info, level]) level' (by rwa [info])
      (by rw [info]; exact leveled.room) entered', jsl, value]
    constructor
    · intro object
      rw [object]
      rfl
    · intro leaf
      rw [leaf]
      rfl
  have framed : Framed world.root (world.modifyAt (fun _ => c')
      (path ++ [.scope (fold segm.name)])
      (rtArrayFieldUpdate world.store c segm.index v).1).root segms := by
    refine framed_of_grows wf (grows_world there (by simp) key grows) ?_ ?_
    · rintro _ ⟨_, rfl, rfl⟩
      rw [keyAt]
      simp
    · rintro _ ⟨_, _, lost⟩
      exact lost.elim
  have item : IsItem e := by
    by_contra odd
    exact oddBelow_getAt wf.even there (.here (List.mem_of_getElem? entered) odd)
  rcases item with object | leaf
  · refine iff_of_false ?_ ?_
    · rintro ⟨readBack, _⟩
      let q : Jrp := ⟨readKey (some (rootNode world.root)) segms, none, [], []⟩
      have failed : rtSearch _ q = (-1, q.dupvalue) := search_member
        (rtArrayFieldUpdate world.store c segm.index v).1 (fun dupvalue => (-1, dupvalue)) reads
        found key (fun tree retval dupvalue located =>
          (search tree retval dupvalue located).1 object) q rfl
      have done := failed.symm.trans (readBack q rfl)
      cases (Prod.mk.inj done).1
    · exact fun free => free ⟨_, e, keyAt, thereItem, object, stale object⟩
  · refine iff_of_true ⟨?_, framed⟩ ?_
    · exact search_member _ (fun _ => (0, v)) reads found key fun tree retval dupvalue located =>
        (search tree retval dupvalue located).2 leaf
    · rintro ⟨place', item, same', found', object, _⟩
      obtain rfl := Option.some.inj (keyAt.symm.trans same')
      obtain rfl := Option.some.inj (thereItem.symm.trans found')
      rw [leaf] at object
      cases object

omit [DoubleText ν] in
/-- What was appended for names that did not exist. -/
theorem readAfterWrite_missing (wf : WellFormed world) (accepted : AcceptedKey segms)
    (noDot : ∀ segm ∈ segms, dot ∉ segm.name)
    (walk : Walks (rootNode world.root) segms path passed m (segm :: rest)) (started : path ≠ [])
    (missing : m.follow (.scope (fold segm.name)) = none)
    (level : m.info.jsl ≠ .field ∧ m.info.jsl ≠ .arrayItemAsField)
    (noFile : m.info.jsl = .dir → 2 < segms.length) {archive : Option Path}
    (ok : 0 ≤ (rtAppend v world.store m (segm :: rest)).retval) :
    ReadAfterWrite world segms v
      ⟨world.modifyAt (fun _ => (rtAppend v world.store m (segm :: rest)).node) path
        (rtAppend v world.store m (segm :: rest)).store,
        (rtAppend v world.store m (segm :: rest)).retval, archive⟩ := by
  have there := getAt_of_walks walk
  have built := built_getAt' wf.built there
  have nowhereYet : keyPlace (rootNode world.root) segms = none := by
    rw [keyPlace_of_walks walk (roomy_root wf)]
    simp [keyPlace, missing]
  have kept := rtAppend_kept v world.store m (segm :: rest)
  have notArray : m.info.jsl ≠ .array := by
    rcases walks_root wf accepted walk started (List.cons_ne_nil _ _) with
      ⟨mem, _⟩ | ⟨_, _, opens | field | leaf⟩
    · rw [(wf.dirs m mem).1]
      simp
    · rcases opens with h | h | h <;> rw [h] <;> simp
    · exact absurd field level.1
    · exact absurd leaf level.2
  have size : m.info.arraysize = 0 := by
    rw [built.size, built.noItems notArray]
    rfl
  refine iff_of_true ⟨?_, ?_⟩ ?_
  · have search : ∃ before,
        ReadsThrough (rootNode world.root) m segms (segm :: rest) path before ∧
        ∀ retval dupvalue,
          rtSearchLoop retval (rtAppend v world.store m (segm :: rest)).node.nextScope
          dupvalue (readKey none (segm :: rest)) = (0, v) := by
      rcases walks_root wf accepted walk started (List.cons_ne_nil _ _) with
        ⟨mem, ⟨before, reads⟩, name, rest', left, shape⟩ | ⟨_, reads, opens | field | leaf⟩
      · obtain ⟨rfl, rfl⟩ := List.cons.inj left
        refine ⟨before, reads, ?_⟩
        rcases shape with ⟨_, two⟩ | below
        · have more := noFile (wf.dirs m mem).1
          omega
        · exact read_newArchive below built.ordered missing
            (noDot _ ((suffix_of_walks walk).subset (List.mem_cons_self ..))) ok
      · obtain ⟨below, before, reads⟩ := reads opens
        exact ⟨before, reads, read_rtAppend below built.ordered (by simpa using missing) notArray
          size ok⟩
      · exact absurd field level.1
      · exact absurd leaf level.2
    obtain ⟨before, reads, search⟩ := search
    intro q hq
    rw [modifyAt_root, rtSearch, hq, reads.key, readKey_missing missing]
    apply Eq.trans (reads.search _ ⟨?_, kept.2.1⟩ _ (readKey_ne_nil (List.cons_ne_nil _ _)) 0
      q.dupvalue)
    · exact search 0 q.dupvalue
    · exact scopeKey_rtAppend ..
  · have grown := @rtAppend_grown ν v world.store m segm rest
      (noDot segm ((suffix_of_walks walk).subset (List.mem_cons_self ..)))
    refine framed_of_grows wf (grows_world there started (scopeKey_rtAppend ..)
      (grows_grown grown built.ordered missing)) ?_ ?_
    · rintro _ ⟨_, _, lost⟩
      exact lost.elim
    · rintro _ ⟨_, _, _, array⟩
      exact absurd array notArray
  · rintro ⟨place, _, same, _⟩
    rw [nowhereYet] at same
    cases same

omit [DoubleText ν] in
/-- An item that was appended to an array. -/
theorem readAfterWrite_extend (wf : WellFormed world) (accepted : AcceptedKey segms)
    (noDot : ∀ segm ∈ segms, dot ∉ segm.name)
    (walk : Walks (rootNode world.root) segms path passed m (segm :: rest)) (started : path ≠ [])
    (found : m.follow (.scope (fold segm.name)) = some c) (level : c.info.jsl = .array)
    (level' : segm.jsl = .array)
    (next : segm.index = c.info.arraysize ∨ segm.index = jaSymAdd) {archive : Option Path}
    (ok : 0 ≤ (rtAppend v world.store c (segm :: rest)).retval) :
    ReadAfterWrite world segms v
      ⟨world.modifyAt (fun _ => (rtAppend v world.store c (segm :: rest)).node)
        (path ++ [.scope (fold segm.name)]) (rtAppend v world.store c (segm :: rest)).store,
        (rtAppend v world.store c (segm :: rest)).retval, archive⟩ := by
  have notArchive : c.info.jsl ≠ .archive := by rw [level]; exact nofun
  obtain ⟨leveled, below, before, reads⟩ :=
    readsThrough_member wf accepted walk started found notArchive
  have there := getAt_member walk found
  have size := (built_getAt' wf.built there).size
  obtain ⟨noPlace, notSize⟩ := placeOf_next leveled.room next
  have nowhereYet : keyPlace (rootNode world.root) segms = none := by
    rw [keyPlace_of_walks walk (roomy_root wf)]
    simp [keyPlace, found, level, noPlace, notSize]
  have extended : extendedArray (rootNode world.root) segms =
      some (path ++ [.scope (fold segm.name)]) := by
    rw [extended_of_walks walk (roomy_root wf)]
    simp [extendedArray, found, level, next]
  have inside : segm ∈ segms := (suffix_of_walks walk).subset (List.mem_cons_self ..)
  have grown := @rtAppend_grown ν v world.store c segm rest (noDot segm inside)
  have key := scopeKey_rtAppend v world.store c (segm :: rest)
  have noScopes := (built_getAt' wf.built there).noScopes level
  refine iff_of_true ⟨?_, ?_⟩ ?_
  · rcases segm with ⟨name, index, jsl⟩
    obtain rfl : jsl = .array := level'
    rw [rtAppend_array] at ok key ⊢
    split at ok
    · rename_i canAppend
      rw [if_pos canAppend, if_pos level] at key ⊢
      refine search_member _ (fun _ => (0, v)) reads found key ?_
      intro tree retval dupvalue located
      have read : readKey (some m) (⟨name, index, .array⟩ :: rest) =
          ⟨name, c.info.arraysize, .array⟩ :: readKey none rest := by
        have same : (if index = jaSymAdd then c.info.arraysize else index) =
            c.info.arraysize := by
          rcases next with rfl | rfl
          · exact ite_self _
          · exact if_pos rfl
        have none := (placeOf_next leveled.room (Or.inl rfl)).1
        simp [readKey, found, level, same, none]
      rw [read]
      refine @read_addTo ν v world.store c ⟨name, c.info.arraysize, .array⟩ rest tree level
        size (appendable_iff.mp canAppend).2.2 rfl rfl located ?_ _ _
      intro more
      rw [addTo, if_neg more] at ok
      cases below with
      | array fits range => exact absurd rfl more
      | item fits range single below =>
        have notArray : (rtAllocateArrayItem world.store c).2.info.jsl ≠ .array :=
          (by decide : Jsl.arrayItem ≠ .array)
        exact read_rtAppend below (ordered_nil _) (fun _ _ => rfl) notArray rfl ok
    · cases ok
  · refine framed_of_grows wf (grows_world there (by simp) key
      (grows_grown grown ?_ ?_)) ?_ ?_
    · rw [noScopes]
      exact ordered_nil _
    · rw [Node.follow, noScopes]
      rfl
    · rintro _ ⟨_, _, lost⟩
      exact lost.elim
    · rintro _ ⟨_, rfl, rfl, _⟩
      rw [extended, List.append_nil]
  · rintro ⟨place, _, same, _⟩
    rw [nowhereYet] at same
    cases same

theorem rtConfigUpdate_nil {jrp : Jrp} (value : jrp.valuestring = some v)
    (none : jrp.segm = []) : ∃ archive, rtConfigUpdate world jrp = some ⟨world, -1, archive⟩ := by
  rw [rtConfigUpdate, value, none]
  dsimp only
  split
  · exact ⟨_, rfl⟩
  · exact ⟨_, rfl⟩

omit [DoubleText ν] in
/-- Directly under the root there are directories only. -/
theorem started_of_found (wf : WellFormed world)
    (walk : Walks (rootNode world.root) segms path passed n (segm :: rest))
    (found : n.follow (.scope (fold segm.name)) = some c) (level : c.info.jsl ≠ .dir) :
    path ≠ [] := by
  rintro rfl
  cases walk
  exact level (wf.dirs c (mem_of_avlsearch Node.scopeKey found)).1

/-- A write to a well-formed tree that is answered with success is read back, and every
other key is answered as before, if and only if it did not leave an object item as it was. -/
theorem write_then_read_iff {key : Bytes} {jrp : Jrp} (wf : WellFormed world)
    (separated : rtSeparateSegment key = some jrp.segm) (value : jrp.valuestring = some v)
    (keep : v ≠ keywordDeleted) :
    ∃ u, rtConfigUpdate world jrp = some u ∧ (0 ≤ u.retval →
      ((ReadsBack world.root u.world.root jrp.segm v ∧
        Framed world.root u.world.root jrp.segm) ↔ ¬ ItemAlias world.root jrp.segm v)) := by
  obtain ⟨u, done⟩ := rtConfigUpdate_total world value keep
  refine ⟨u, done, fun ok => ?_⟩
  by_cases nonempty : key = []
  · rw [rtSeparateSegment, if_pos nonempty, Option.some.injEq] at separated
    obtain ⟨archive, refused⟩ := @rtConfigUpdate_nil ν world v _ jrp value separated.symm
    obtain rfl := Option.some.inj (refused.symm.trans done)
    cases ok
  have accepted := acceptedKey_of_rtSeparateSegment nonempty separated
  have noDot := noDot_of_rtSeparateSegment separated
  cases update_cases wf.built accepted value done with
  | refused archive => cases ok
  | delete walk found target keyword call => exact absurd keyword keep
  | field walk found level level' notDeleted archive =>
    have started := started_of_found wf walk found (by simp [level])
    exact readAfterWrite_field wf accepted walk started found level level' ok
  | @item path passed n c segm walk found level level' place notDeleted archive =>
    have started := started_of_found wf walk found (by simp [level])
    rcases place with ⟨k, place⟩ | entire
    · exact readAfterWrite_item wf accepted walk started found level level' place ok
    · have order : jaSymLast < jaSymEntire := by decide
      have room := roomy_root wf _ c (getAt_member walk found)
      have none := rtArrayFieldUpdate_entire world.store v (Int.le_of_lt (room.trans order))
      rw [← entire] at none
      rw [none] at ok
      cases ok
  | missing walk started missing level noFile notDeleted archive =>
    exact readAfterWrite_missing wf accepted noDot walk started missing level noFile ok
  | extend walk found level level' next notDeleted archive =>
    have started := started_of_found wf walk found (by simp [level])
    exact readAfterWrite_extend wf accepted noDot walk started found level level' next ok

end Law

section ObjectItem

/-- `{"arr":[{}]}` -/
def objectDocument : Item Nat :=
  .mk 1 none .cjsonObject
    [.mk 2 (some (ofChars ['a', 'r', 'r'])) .cjsonArray [.mk 3 none .cjsonObject []]]

/-- The archive d.a with this document. -/
def objectWorld : World Nat where
  root := loadedRoot (oneArchive objectDocument)
  store := { nullStore with heap := ⟨[objectDocument], 8⟩ }

theorem plain_of_lists {n : Node} (scopes : ∀ c ∈ n.nextScope.toList, ¬ OddBelow c)
    (items : ∀ c ∈ n.array, IsItem c ∧ ¬ OddBelow c) : ¬ OddBelow n := by
  intro odd
  cases odd with
  | here mem odd => exact odd (items _ mem).1
  | scope mem below => exact scopes _ mem below
  | item mem below => exact (items _ mem).2 below

theorem objectWorld_even : ¬ OddBelow (rootNode objectWorld.root) := by
  have single : ∀ {m : Node} {P : Node → Prop}, P m → ∀ c ∈ [m], P c := by
    intro m P h c hc
    exact List.mem_singleton.mp hc ▸ h
  have none : ∀ {P : Node → Prop}, ∀ c ∈ ([] : List Node), P c := fun c hc => nomatch hc
  exact plain_of_lists (single (plain_of_lists (single (plain_of_lists (single
    (plain_of_lists none (single ⟨Or.inl rfl, plain_of_lists none none⟩))) none)) none)) none

theorem objectWorld_wellFormed : WellFormed objectWorld := by
  have items : objectDocument.items = [objectDocument,
      .mk 2 (some (ofChars ['a', 'r', 'r'])) .cjsonArray [.mk 3 none .cjsonObject []],
      .mk 3 none .cjsonObject []] := rfl
  have shape : Producible objectDocument := by
    refine .object (by simp) fun c hc => ?_
    obtain rfl := List.mem_singleton.mp hc
    refine .array (by simp) fun e he => ?_
    obtain rfl := List.mem_singleton.mp he
    exact .object nofun nofun
  have each : ∀ P : Item Nat → Prop, P objectDocument →
      ∀ dir ∈ oneArchive objectDocument, ∀ image ∈ dir.archives, P image.document := by
    intro P h dir hdir image himage
    obtain rfl := List.mem_singleton.mp hdir
    obtain rfl := List.mem_singleton.mp himage
    exact h
  refine wellFormed_loaded (oneArchive_loaded shape rfl)
    (each (fun document => document.kind = .cjsonObject) rfl) (each Countable ?_)
    objectWorld_even (each (fun document => ∀ j ∈ document.items,
      objectWorld.store.heap.deref j.addr = some j) ?_)
  · intro j hj
    rw [items] at hj
    rcases List.mem_cons.mp hj with rfl | hj
    · exact ⟨by decide, nofun⟩
    rcases List.mem_cons.mp hj with rfl | hj
    · exact ⟨by decide, fun _ c hc => by rw [List.mem_singleton.mp hc]; rfl⟩
    · obtain rfl := List.mem_singleton.mp hj
      exact ⟨by decide, nofun⟩
  · intro j hj
    rw [items] at hj
    rcases List.mem_cons.mp hj with rfl | hj
    · rfl
    rcases List.mem_cons.mp hj with rfl | hj
    · rfl
    · obtain rfl := List.mem_singleton.mp hj
      rfl

/-- `d.a.arr[0]=arr[0]` -/
def itemText : Bytes := ofChars ['a', 'r', 'r', '[', '0', ']']

def itemRequest : Jrp where
  segm := [⟨ofChars ['d'], -1, .dir⟩, ⟨ofChars ['a'], -1, .archive⟩,
    ⟨ofChars ['a', 'r', 'r'], 0, .array⟩]
  valuestring := some itemText
  dupkey := ofChars ['d', '.', 'a', '.'] ++ itemText
  dupvalue := itemText

theorem itemRequest_separated : rtSeparateSegment itemRequest.dupkey = some itemRequest.segm := by
  decide +kernel

theorem not_always_read_back : ¬ ∀ (world : World Nat) (key : Bytes) (jrp : Jrp) (v : Bytes)
    (u : Updated Nat), WellFormed world → rtSeparateSegment key = some jrp.segm →
    jrp.valuestring = some v → v ≠ keywordDeleted → rtConfigUpdate world jrp = some u →
    0 ≤ u.retval → ReadsBack world.root u.world.root jrp.segm v ∧
      Framed world.root u.world.root jrp.segm := by
  intro claim
  have done : ∃ u, rtConfigUpdate objectWorld itemRequest = some u ∧ u.retval = 1 ∧
      rtSearch u.world.root itemRequest = (-1, itemText) :=
    ⟨_, rfl, rfl, rfl⟩
  obtain ⟨u, hu, ok, missed⟩ := done
  have notDeleted : itemText ≠ keywordDeleted := by decide
  have back := (claim objectWorld _ itemRequest itemText u objectWorld_wellFormed
    itemRequest_separated rfl notDeleted hu (by rw [ok]; decide)).1 itemRequest rfl
  rw [missed] at back
  cases (Prod.mk.inj back).1

/-- `d.a.arr[0]=arr[0]` on the same tree, by the theorem. -/
theorem write_then_read_iff_objectItem : ∃ u, rtConfigUpdate objectWorld itemRequest = some u ∧
    (0 ≤ u.retval → ((ReadsBack objectWorld.root u.world.root itemRequest.segm itemText ∧
      Framed objectWorld.root u.world.root itemRequest.segm) ↔
        ¬ ItemAlias objectWorld.root itemRequest.segm itemText)) := by
  have notDeleted : itemText ≠ keywordDeleted := by decide
  exact write_then_read_iff objectWorld_wellFormed itemRequest_separated rfl notDeleted

end ObjectItem

end WriteThenRead
