import Cfgd.KeyShape
import Cfgd.Reach

/-!
# What an update can do

`rt_config_update` on a tree as the loader builds it: it refuses the request, or it
deletes, replaces or appends at the place where the way of the key ends. Everything
that is said about updates is said of these cases.
-/

namespace UpdateCases

open AvlTree CText CJson Request ConfigNode Loader FsImage Runtime DeleteRange KeyShape Reach

variable {ν : Type} [DoubleText ν]

/-- What the last segment asks of the node that it names. -/
inductive Named (c : Node) (segm : Segment) : Prop where
  | scope (level : c.info.jsl ≠ .array) (level' : segm.jsl ≠ .array) : Named c segm
  | item {k : Nat} (level : c.info.jsl = .array) (level' : segm.jsl = .array)
      (place : placeOf c.info.arraysize segm.index = some k) : Named c segm
  | entire (level : c.info.jsl = .array) (level' : segm.jsl = .array) (filled : c.array ≠ [])
      (index : segm.index = jaSymEntire) : Named c segm

/-- The result of an update, by what it did. -/
inductive UpdateCase (world : World ν) (jrp : Jrp) (v : Bytes) : Updated ν → Prop where
  | refused (archive : Option Path) : UpdateCase world jrp v ⟨world, -1, archive⟩
  | delete {path : Path} {passed : List Segment} {n c : Node} {segm : Segment}
      (walk : Walks (rootNode world.root) jrp.segm path passed n [segm])
      (found : n.follow (.scope (fold segm.name)) = some c) (target : Named c segm)
      (keyword : v = keywordDeleted) {deleted : Deleted ν}
      (call : rtDelete c.idents.length world.store c n segm = some deleted)
      (checkpoints : List Bytes) (archive : Option Path) :
      UpdateCase world jrp v ⟨world.modifyAt (fun _ => deleted.parentnode) path
        { deleted.store with deletedCheckpoints := checkpoints }, deleted.retval, archive⟩
  | field {path : Path} {passed : List Segment} {n c : Node} {segm : Segment}
      (walk : Walks (rootNode world.root) jrp.segm path passed n [segm])
      (found : n.follow (.scope (fold segm.name)) = some c) (level : c.info.jsl = .field)
      (level' : segm.jsl ≠ .array) (notDeleted : v ≠ keywordDeleted) (archive : Option Path) :
      UpdateCase world jrp v ⟨world.modifyAt (fun _ => (rtFieldUpdate world.store c v).2.1)
        (path ++ [.scope (fold segm.name)]) (rtFieldUpdate world.store c v).1,
        (rtFieldUpdate world.store c v).2.2, archive⟩
  | item {path : Path} {passed : List Segment} {n c : Node} {segm : Segment}
      (walk : Walks (rootNode world.root) jrp.segm path passed n [segm])
      (found : n.follow (.scope (fold segm.name)) = some c) (level : c.info.jsl = .array)
      (level' : segm.jsl = .array)
      (place : (∃ k, placeOf c.info.arraysize segm.index = some k) ∨ segm.index = jaSymEntire)
      (notDeleted : v ≠ keywordDeleted) (archive : Option Path) :
      UpdateCase world jrp v
        ⟨world.modifyAt (fun _ => (rtArrayFieldUpdate world.store c segm.index v).2.1)
          (path ++ [.scope (fold segm.name)]) (rtArrayFieldUpdate world.store c segm.index v).1,
          (rtArrayFieldUpdate world.store c segm.index v).2.2, archive⟩
  | missing {path : Path} {passed rest : List Segment} {m : Node} {segm : Segment}
      (walk : Walks (rootNode world.root) jrp.segm path passed m (segm :: rest))
      (started : path ≠ []) (missing : m.follow (.scope (fold segm.name)) = none)
      (level : m.info.jsl ≠ .field ∧ m.info.jsl ≠ .arrayItemAsField)
      (noFile : m.info.jsl = .dir → 2 < jrp.segm.length) (notDeleted : v ≠ keywordDeleted)
      (archive : Option Path) :
      UpdateCase world jrp v
        ⟨world.modifyAt (fun _ => (rtAppend v world.store m (segm :: rest)).node) path
          (rtAppend v world.store m (segm :: rest)).store,
          (rtAppend v world.store m (segm :: rest)).retval, archive⟩
  | extend {path : Path} {passed rest : List Segment} {m c : Node} {segm : Segment}
      (walk : Walks (rootNode world.root) jrp.segm path passed m (segm :: rest))
      (found : m.follow (.scope (fold segm.name)) = some c) (level : c.info.jsl = .array)
      (level' : segm.jsl = .array)
      (next : segm.index = c.info.arraysize ∨ segm.index = jaSymAdd)
      (notDeleted : v ≠ keywordDeleted) (archive : Option Path) :
      UpdateCase world jrp v
        ⟨world.modifyAt (fun _ => (rtAppend v world.store c (segm :: rest)).node)
          (path ++ [.scope (fold segm.name)]) (rtAppend v world.store c (segm :: rest)).store,
          (rtAppend v world.store c (segm :: rest)).retval, archive⟩

/-- What `rt_delete` did, by the level of the node and the index of the segment. -/
inductive DeleteCase (fuel : Nat) (store : Store ν) (c parent : Node) (segm : Segment) :
    Deleted ν → Prop where
  | refused (level : c.info.jsl ≠ .field ∧ c.info.jsl ≠ .logicScope ∧ c.info.jsl ≠ .archive) :
      DeleteCase fuel store c parent segm ⟨store, parent, -1, []⟩
  | whole {store' : Store ν} {parent' : Node} {tree : Avl Node} {old : Bytes}
      (level : c.info.jsl = .field ∨ c.info.jsl = .logicScope ∨
        c.info.jsl = .array ∧ segm.index < 0)
      (text : old = c.info.scopeValue ∨ old = [])
      (call : rtDeleteRange true fuel store c parent = some (store', parent', tree)) :
      DeleteCase fuel store c parent segm ⟨store', parent', 0, old⟩
  | archive {store' : Store ν} {parent' : Node} {tree : Avl Node} (level : c.info.jsl = .archive)
      (call : rtDeleteRange true fuel { store with fs := fsDeleteFile store.fs c.info.fsSection }
        c parent = some (store', parent', tree)) :
      DeleteCase fuel store c parent segm ⟨store', parent', 0, []⟩
  | item {which : Int} {e c' : Node} {store' : Store ν} {tree : Avl Node}
      (level : c.info.jsl = .array)
      (index : 0 ≤ segm.index ∧ segm.index < c.info.arraysize ∧ which = segm.index ∨
        segm.index = jaSymLast ∧ which = c.info.arraysize - 1)
      (found : rtSeekArrayNode c which = some e)
      (call : rtDeleteRange true fuel store e c = some (store', c', tree)) :
      DeleteCase fuel store c parent segm ⟨store', parent.setNextScope fun tree =>
        modify Node.scopeKey (fun _ => c') tree c'.scopeKey, 0, e.info.scopeValue⟩
  | entire {store₁ store' : Store ν} {c₁ parent' : Node} {tree : Avl Node}
      (level : c.info.jsl = .array) (index : segm.index = jaSymEntire)
      (drained : deleteAllItems fuel fuel store c = some (store₁, c₁))
      (call : rtDeleteRange true fuel store₁ c₁ parent = some (store', parent', tree)) :
      DeleteCase fuel store c parent segm ⟨store', parent', 0, []⟩

omit [DoubleText ν] in
theorem rtDelete_cases {fuel : Nat} {store : Store ν} {c parent : Node} {segm : Segment}
    {deleted : Deleted ν} (h : rtDelete fuel store c parent segm = some deleted) :
    DeleteCase fuel store c parent segm deleted := by
  have other : ∀ {jsl : Jsl}, c.info.jsl = jsl → jsl ≠ .field ∧ jsl ≠ .logicScope ∧ jsl ≠ .archive →
      some (⟨store, parent, -1, []⟩ : Deleted ν) = some deleted →
        DeleteCase fuel store c parent segm deleted := by
    rintro jsl rfl level same
    obtain rfl := Option.some.inj same
    exact .refused level
  rw [rtDelete] at h
  cases level : c.info.jsl with
  | dir =>
    simp only [level] at h
    exact other level (by decide) h
  | arrayItem =>
    simp only [level] at h
    exact other level (by decide) h
  | arrayItemAsField =>
    simp only [level] at h
    exact other level (by decide) h
  | archive =>
    simp only [level] at h
    obtain ⟨⟨store', parent', tree⟩, call, rfl⟩ := Option.map_eq_some_iff.mp h
    exact .archive level call
  | field =>
    simp only [level] at h
    obtain ⟨⟨store', parent', tree⟩, call, rfl⟩ := Option.map_eq_some_iff.mp h
    exact .whole (Or.inl level) (Or.inl rfl) call
  | logicScope =>
    simp only [level] at h
    obtain ⟨⟨store', parent', tree⟩, call, rfl⟩ := Option.map_eq_some_iff.mp h
    exact .whole (Or.inr (Or.inl level)) (Or.inr rfl) call
  | array =>
    simp only [level] at h
    split at h
    · exact other level (by decide) h
    · split at h
      · rename_i negative
        obtain ⟨⟨store', parent', tree⟩, call, rfl⟩ := Option.map_eq_some_iff.mp h
        exact .whole (Or.inr (Or.inr ⟨level, negative⟩)) (Or.inr rfl) call
      · rename_i positive
        split at h
        · rename_i inside
          split at h
          · cases h
          · rename_i found
            obtain ⟨⟨store', c', tree⟩, call, rfl⟩ := Option.map_eq_some_iff.mp h
            exact .item level (Or.inl ⟨Int.not_lt.mp positive, inside, rfl⟩) found call
        · split at h
          · rename_i last
            split at h
            · cases h
            · rename_i found
              obtain ⟨⟨store', c', tree⟩, call, rfl⟩ := Option.map_eq_some_iff.mp h
              exact .item level (Or.inr ⟨last, rfl⟩) found call
          · split at h
            · rename_i entire
              split at h
              · cases h
              · rename_i drained
                obtain ⟨⟨store', parent', tree⟩, call, rfl⟩ := Option.map_eq_some_iff.mp h
                exact .entire level entire drained call
            · exact other level (by decide) h

omit [DoubleText ν] in
/-- A directory is not deleted. -/
theorem rtDelete_dir {fuel : Nat} {store : Store ν} {c parent : Node} {segm : Segment}
    {deleted : Deleted ν} (level : c.info.jsl = .dir)
    (h : rtDelete fuel store c parent segm = some deleted) :
    deleted = ⟨store, parent, -1, []⟩ := by
  cases rtDelete_cases h with
  | refused => rfl
  | whole level' => simp [level] at level'
  | archive level' => simp [level] at level'
  | item level' => simp [level] at level'
  | entire level' => simp [level] at level'

omit [DoubleText ν] in
/-- A write below a directory is a write to the tree. -/
theorem rootNode_modifyAt (world : World ν) (write : Node → Node) {path : Path}
    (started : path ≠ []) (store : Store ν) :
    rootNode (world.modifyAt write path store).root =
      (rootNode world.root).modifyAt write path := by
  obtain ⟨s, rest, rfl⟩ := List.exists_cons_of_ne_nil started
  cases s with
  | scope key => rfl
  | item i => simp [World.modifyAt, rootNode, Node.modifyAt, Node.setArray]

/-- The index for all items stands at the end of an accepted key. -/
theorem entire_last {segms rest : List Segment} {segm : Segment} (accepted : AcceptedKey segms)
    (suffix : segm :: rest <:+ segms) (entire : segm.index = jaSymEntire) : rest = [] := by
  have plain : (-1 : Int) ≠ jaSymEntire := by decide
  have inBelow : ∀ {segms : List Segment}, Below segms → segm :: rest <:+ segms → rest = [] := by
    intro segms below suffix
    induction below with
    | field fits =>
      rcases List.suffix_cons_iff.mp suffix with same | none
      · exact (List.cons.inj same).2
      · cases List.suffix_nil.mp none
    | array fits range =>
      rcases List.suffix_cons_iff.mp suffix with same | none
      · exact (List.cons.inj same).2
      · cases List.suffix_nil.mp none
    | scope fits below ih =>
      rcases List.suffix_cons_iff.mp suffix with same | later
      · obtain ⟨rfl, rfl⟩ := List.cons.inj same
        exact absurd entire plain
      · exact ih later
    | item fits range single below ih =>
      rcases List.suffix_cons_iff.mp suffix with same | later
      · obtain ⟨rfl, rfl⟩ := List.cons.inj same
        exact absurd entire single
      · exact ih later
  have other : ∀ {name : Bytes} {level : Jsl} {rest' : List Segment},
      segm :: rest <:+ ⟨name, -1, level⟩ :: rest' → segm :: rest <:+ rest' := by
    intro name level rest' suffix
    rcases List.suffix_cons_iff.mp suffix with same | later
    · obtain ⟨rfl, rfl⟩ := List.cons.inj same
      exact absurd entire plain
    · exact later
  cases accepted with
  | dir fits => cases List.suffix_nil.mp (other suffix)
  | archive fits fits' => cases List.suffix_nil.mp (other (other suffix))
  | below fits fits' below => exact inBelow below (other (other suffix))

section Found
variable {world : World ν} {jrp : Jrp} {v : Bytes}

/-- The branch of `rt_config_update` for a node that was found. -/
theorem updateFound_cases {path : Path} {passed : List Segment} {n c : Node} {segm : Segment}
    (walk : Walks (rootNode world.root) jrp.segm path passed n [segm])
    (found : n.follow (.scope (fold segm.name)) = some c) (target : Named c segm)
    {reached : Reached} (final : reached.segm.getLast? = some { segm with jsl := c.info.jsl })
    {u : Updated ν} (h : updateFound world jrp reached v
      (path ++ [.scope (fold segm.name)]) = some u) : UpdateCase world jrp v u := by
  have there := getAt_of_walks walk
  have here := getAt_member walk found
  have above : (path ++ [Step.scope (fold segm.name)]).dropLast = path := by simp
  rw [updateFound, here, above, there, final] at h
  dsimp only at h
  split at h
  · rename_i keyword
    obtain ⟨deleted, call, rfl⟩ := Option.map_eq_some_iff.mp h
    have same : rtDelete c.idents.length world.store c n segm = some deleted := call
    split
    · exact .delete walk found target keyword same _ _
    · exact .delete walk found target keyword same deleted.store.deletedCheckpoints _
  · rename_i keep
    split at h
    · rename_i field
      obtain rfl := Option.some.inj h
      cases target with
      | scope level level' => exact .field walk found field.1 level' keep _
      | item level _ _ =>
        rw [level] at field
        cases field.1
      | entire level _ _ _ =>
        rw [level] at field
        cases field.1
    · split at h
      · obtain rfl := Option.some.inj h
        cases target with
        | scope level level' => exact absurd ‹c.info.jsl = .array› level
        | item level level' place => exact .item walk found level level' (Or.inl ⟨_, place⟩) keep _
        | entire level level' filled index =>
          exact .item walk found level level' (Or.inr index) keep _
      · obtain rfl := Option.some.inj h
        exact .refused _

omit [DoubleText ν] in
/-- The branch for a segment that is new. -/
theorem updateMissing_cases {reached : Reached} {path : Path} {m : Node}
    (there : (rootNode world.root).getAt path = some m) :
    updateMissing world jrp reached v path = ⟨world, -1, reached.archive⟩ ∨
      ∃ archive, (m.info.jsl ≠ .field ∧ m.info.jsl ≠ .arrayItemAsField) ∧
        (m.info.jsl = .dir → 2 < jrp.segm.length) ∧ v ≠ keywordDeleted ∧
        updateMissing world jrp reached v path =
          ⟨world.modifyAt (fun _ => (rtAppend v world.store m
              (reached.segm.drop reached.offset)).node) path
            (rtAppend v world.store m (reached.segm.drop reached.offset)).store,
            (rtAppend v world.store m (reached.segm.drop reached.offset)).retval, archive⟩ := by
  rw [updateMissing, there]
  dsimp only
  split
  · exact Or.inl rfl
  · rename_i leaf
    split
    · exact Or.inl rfl
    · rename_i file
      split
      · exact Or.inl rfl
      · rename_i keep
        refine Or.inr ⟨_, not_or.mp leaf, ?_, keep, rfl⟩
        intro dir
        by_contra short
        exact file ⟨dir, by omega⟩

end Found

/-- Where a key leads whose segments are all there. -/
theorem found_at {root : Avl Node} {segms : List Segment} (built : Built (rootNode root))
    (accepted : AcceptedKey segms) {reached : Reached} {here : Path}
    (reach : rtReachLastMatchScope root segms = some reached) (last : reached.last = some here) :
    ∃ path passed n c segm, Walks (rootNode root) segms path passed n [segm] ∧
      n.follow (.scope (fold segm.name)) = some c ∧ here = path ++ [.scope (fold segm.name)] ∧
      reached.segm.getLast? = some { segm with jsl := c.info.jsl } ∧ Named c segm := by
  cases reachedBy_root built reach with
  | @whole path passed m archive walk =>
    simp only [List.nil_append] at last ⊢
    by_cases started : path = []
    · subst started
      cases last
    · obtain ⟨before, passed', n, segm, c, walk', found, final, place⟩ := walks_last walk started
      refine ⟨before, passed', n, c, segm, walk', found, ?_, final, ?_⟩
      · rcases place with ⟨rfl, _⟩ | ⟨_, _, k, _, rfl⟩
        · rw [nodeOf_scope] at last
          exact (Option.some.inj last).symm
        · have item := nodeOf_item before (fold segm.name) k
          rw [List.append_assoc, List.singleton_append] at item
          rw [item] at last
          exact (Option.some.inj last).symm
      · rcases place with ⟨_, level, level'⟩ | ⟨level, level', k, place, _⟩
        · exact .scope level level'
        · exact .item level level' place
  | missing archive walk missing => cases last
  | extend archive walk found level level' next => cases last
  | @entire path passed rest segm m c archive walk found level level' filled index =>
    obtain rfl := entire_last accepted (suffix_of_walks walk) index
    refine ⟨path, passed, m, c, segm, walk, found, (Option.some.inj last).symm, ?_,
      .entire level level' filled index⟩
    rw [List.nil_append, List.getLast?_append, level, ← level']
    rfl

/-- Every update does one of these. -/
theorem update_cases {world : World ν} {jrp : Jrp} {v : Bytes} {u : Updated ν}
    (built : Built (rootNode world.root)) (accepted : AcceptedKey jrp.segm)
    (value : jrp.valuestring = some v) (h : rtConfigUpdate world jrp = some u) :
    UpdateCase world jrp v u := by
  rw [rtConfigUpdate, value] at h
  dsimp only at h
  split at h
  · obtain rfl := Option.some.inj h
    exact .refused _
  split at h
  · obtain rfl := Option.some.inj h
    exact .refused _
  rename_i reached hreach
  have reach := reachedBy_root built hreach
  clear hreach
  cases reach with
  | @whole path passed m archive walk =>
    simp only [List.nil_append] at h
    by_cases started : path = []
    · subst started
      simp only [nodeOf, previousOf, if_true] at h
      obtain rfl := Option.some.inj h
      exact .refused _
    · obtain ⟨before, passed', n, segm, c, walk', found, final, place⟩ := walks_last walk started
      have last : nodeOf path = some (before ++ [.scope (fold segm.name)]) := by
        rcases place with ⟨rfl, _⟩ | ⟨_, _, k, _, rfl⟩
        · exact nodeOf_scope before _
        · simpa using nodeOf_item before (fold segm.name) k
      have target : Named c segm := by
        rcases place with ⟨_, level, level'⟩ | ⟨level, level', k, place, _⟩
        · exact .scope level level'
        · exact .item level level' place
      simp only [last] at h
      exact updateFound_cases walk' found target final h
  | @missing path passed rest segm m archive walk missing =>
    simp only [List.nil_append] at h
    by_cases started : path = []
    · subst started
      simp only [previousOf, if_true] at h
      obtain rfl := Option.some.inj h
      exact .refused _
    · simp only [previousOf, if_neg started] at h
      obtain rfl := Option.some.inj h
      rcases updateMissing_cases (getAt_of_walks walk) with
        same | ⟨archive, level, file, keep, same⟩
      · rw [same]
        exact .refused _
      · rw [same, List.drop_left]
        exact .missing walk started missing level file keep _
  | @extend path passed rest segm m c archive walk found level level' next =>
    simp only [List.nil_append, Option.some.injEq] at h
    subst h
    have there := getAt_member walk found
    rcases updateMissing_cases there with same | ⟨archive, _, _, keep, same⟩
    · rw [same]
      exact .refused _
    · rw [same, List.drop_left]
      exact .extend walk found level level' next keep _
  | @entire path passed rest segm m c archive walk found level level' filled index =>
    obtain rfl := entire_last accepted (suffix_of_walks walk) index
    simp only [List.nil_append] at h
    refine updateFound_cases walk found (.entire level level' filled index) ?_ h
    rw [List.getLast?_append, level, ← level']
    rfl

/-- Only a deletion can fail to come to an end. -/
theorem rtConfigUpdate_total (world : World ν) {jrp : Jrp} {v : Bytes}
    (value : jrp.valuestring = some v) (keep : v ≠ keywordDeleted) :
    ∃ u, rtConfigUpdate world jrp = some u := by
  rw [← Option.isSome_iff_exists, rtConfigUpdate, value]
  dsimp only
  split
  · rfl
  · split
    · rfl
    · split
      · rw [updateFound]
        split
        · rw [if_neg keep]
          split
          · rfl
          · split <;> rfl
        · rfl
      · rfl
      · rfl

section Values
variable (store : Store ν) (v : Bytes)

/-- Values are written to the documents only. -/
theorem rtFieldUpdate_store (node : Node) :
    ∃ heap, (rtFieldUpdate store node v).1 = { store with heap := heap } := by
  rw [rtFieldUpdate]
  split
  · split
    · exact ⟨_, rfl⟩
    · split
      · exact ⟨_, rfl⟩
      · split
        · exact ⟨_, rfl⟩
        · exact ⟨_, rfl⟩
  · exact ⟨_, rfl⟩

theorem rtArrayFieldUpdate_store (node : Node) (which : Int) :
    ∃ heap, (rtArrayFieldUpdate store node which v).1 = { store with heap := heap } := by
  rw [rtArrayFieldUpdate]
  split
  · exact ⟨_, rfl⟩
  · split
    · exact ⟨_, rfl⟩
    · dsimp only
      split
      · exact ⟨_, rfl⟩
      · split
        · exact ⟨_, rfl⟩
        · split
          · exact ⟨_, rfl⟩
          · exact ⟨_, rfl⟩

/-- `rt_field_update` leaves everything as it is, or replaces the item of the field. -/
theorem rtFieldUpdate_cases {node : Node} (level : node.info.jsl = .field) :
    ((rtFieldUpdate store node v).1 = store ∧ (rtFieldUpdate store node v).2.1 = node ∧
      (0 ≤ (rtFieldUpdate store node v).2.2 → node.info.scopeValue = v)) ∨
    ∃ parent heap item, node.info.jsonparentptr = some parent ∧
      newOne store.heap node.info.jsonptr v = some (heap, item) ∧
      rtFieldUpdate store node v =
        ({ store with heap := cjsonReplaceItemInObject heap parent node.info.scopeName item },
          setValue v item.addr node, 0) := by
  cases hptr : node.info.jsonptr with
  | none => simp [rtFieldUpdate, hptr]
  | some ptr =>
    cases hparent : node.info.jsonparentptr with
    | none => simp [rtFieldUpdate, hptr, hparent]
    | some parent =>
      by_cases same : node.info.scopeValue = v
      · simp [rtFieldUpdate, hptr, hparent, level, same]
      · cases hnew : newOne store.heap (some ptr) v with
        | none => simp [rtFieldUpdate, hptr, hparent, level, same, hnew]
        | some made =>
          obtain ⟨heap, item⟩ := made
          refine Or.inr ⟨parent, heap, item, rfl, rfl, ?_⟩
          simp [rtFieldUpdate, hptr, hparent, level, same, hnew]

/-- A value that is there already is not written. -/
theorem rtFieldUpdate_same {node : Node} (level : node.info.jsl = .field)
    (same : node.info.scopeValue = v) : (rtFieldUpdate store node v).2.2 ≠ 0 := by
  rw [rtFieldUpdate]
  split
  · rw [if_neg (not_not.mpr level), if_pos same]
    exact Int.one_ne_zero
  · exact Int.neg_ne_zero.mpr Int.one_ne_zero

section Items
variable {c : Node} {index : Int} {k : Nat} {e : Node}

/-- `rt_array_field_update` of the item that the index leads to. -/
theorem rtArrayFieldUpdate_at (place : placeOf c.info.arraysize index = some k)
    (entered : c.follow (.item k) = some e) (level : c.info.jsl = .array) {array : Addr}
    (ptr : c.info.jsonptr = some array) : rtArrayFieldUpdate store c index v =
      if e.info.scopeValue = v then (store, c, 1)
      else match newOne store.heap e.info.jsonptr v with
        | none => (store, c, -1)
        | some (heap, item) => ({ store with heap := cjsonReplaceItemInArray heap array k item },
            c.modifyAt (setValue v item.addr) [.item k], 0) := by
  have inside : ¬ (c.info.jsl ≠ .array ∨ index < 0 ∨
      (c.info.arraysize ≤ index ∧ index ≠ jaSymLast)) := by
    have positive : (0 : Int) < jaSymLast := by decide
    have bounds : 0 ≤ index ∧ (index < c.info.arraysize ∨ index = jaSymLast) := by
      rw [placeOf] at place
      split at place
      · omega
      · split at place
        · omega
        · cases place
    rintro (h | h | h)
    · exact h level
    · omega
    · omega
  have offset : (if c.info.arraysize ≤ index then c.info.arraysize - 1 else index) = (k : Int) := by
    rw [placeOf] at place
    split at place
    · obtain rfl := Option.some.inj place
      rw [if_neg (by omega)]
      omega
    · split at place
      · obtain rfl := Option.some.inj place
        have positive : (0 : Int) < jaSymLast := by decide
        rw [if_pos (by omega)]
        omega
      · cases place
  have seek : rtSeekArrayNode c (k : Int) = some e := by
    rw [rtSeekArrayNode_eq_follow]
    exact entered
  rw [rtArrayFieldUpdate]
  simp only [ptr, if_neg inside, offset, seek, Int.toNat_natCast]
  rfl

/-- What `rt_array_field_update` does to the item that the index leads to. -/
theorem rtArrayFieldUpdate_cases (place : placeOf c.info.arraysize index = some k)
    (entered : c.follow (.item k) = some e) (level : c.info.jsl = .array) :
    ((rtArrayFieldUpdate store c index v).1 = store ∧ (rtArrayFieldUpdate store c index v).2.1 = c ∧
      (0 ≤ (rtArrayFieldUpdate store c index v).2.2 → e.info.scopeValue = v)) ∨
    ∃ array heap item, c.info.jsonptr = some array ∧
      newOne store.heap e.info.jsonptr v = some (heap, item) ∧
      rtArrayFieldUpdate store c index v =
        ({ store with heap := cjsonReplaceItemInArray heap array k item },
          c.modifyAt (setValue v item.addr) [.item k], 0) := by
  cases ptr : c.info.jsonptr with
  | none => simp [rtArrayFieldUpdate, ptr]
  | some array =>
    rw [rtArrayFieldUpdate_at store v place entered level ptr]
    by_cases same : e.info.scopeValue = v
    · simp [same]
    · cases made : newOne store.heap e.info.jsonptr v with
      | none => simp [same]
      | some new => exact Or.inr ⟨array, new.1, new.2, rfl, rfl, if_neg same⟩

theorem rtArrayFieldUpdate_same (place : placeOf c.info.arraysize index = some k)
    (entered : c.follow (.item k) = some e) (level : c.info.jsl = .array)
    (same : e.info.scopeValue = v) : (rtArrayFieldUpdate store c index v).2.2 ≠ 0 := by
  cases ptr : c.info.jsonptr with
  | none => simp [rtArrayFieldUpdate, ptr]
  | some array =>
    rw [rtArrayFieldUpdate_at store v place entered level ptr, if_pos same]
    exact Int.one_ne_zero

end Items

/-- An index that leads to no item is refused. -/
theorem rtArrayFieldUpdate_entire {c : Node} (room : c.info.arraysize ≤ jaSymEntire) :
    rtArrayFieldUpdate store c jaSymEntire v = (store, c, -1) := by
  have outside : c.info.jsl ≠ .array ∨ jaSymEntire < 0 ∨
      (c.info.arraysize ≤ jaSymEntire ∧ jaSymEntire ≠ jaSymLast) :=
    Or.inr (Or.inr ⟨room, by decide⟩)
  rw [rtArrayFieldUpdate]
  cases c.info.jsonptr with
  | none => rfl
  | some array => simp only [if_pos outside]

end Values

end UpdateCases
