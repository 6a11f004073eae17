import Cfgd.DeleteTargets

/-!
# Deleting scopes, arrays, archives and directories

The calls that `rt_delete` and the removal of a directory make, on the tree as the loader
leaves it in memory. They take out exactly what is below their target, but for two things
that the loader can leave there. An element of an array that is null, true, false or an
array stays in the list when it is freed, so that the loop meets it again. And an array
whose name is so long that its copy wrote to `jsl` is taken for something else: its items
are left behind, or it is looked for in a list of items.
-/

namespace CopiedNames

open AvlTree CText CJson Request ConfigNode Loader FsImage Runtime DocTree DocSearch SearchSound
open DeleteRange PlainDoc DeleteTargets

variable {ν : Type} [DoubleText ν]

/-- The call frees every block below the target once and no other, and the parent keeps
everything else. -/
def Deletes (store : Store ν) (n parent : Node) (result : Option (Store ν × Node)) : Prop :=
  ∃ store' parent', result = some (store', parent') ∧ FreesExactly store store' n.idents ∧
    Loses parent n parent'

/-- What deletions trip over at or below a node: an item whose level is not that of an
item, items in a node that does not look like an array, a node under a name that looks like
an item. -/
inductive Spoiled : Node → Prop where
  | odd {n c : Node} (mem : c ∈ n.array) (odd : ¬ IsItem c) : Spoiled n
  | lost {n : Node} (filled : n.array ≠ []) (other : n.info.jsl ≠ .array) : Spoiled n
  | mistaken {n c : Node} (mem : c ∈ n.nextScope.toList) (item : IsItem c) : Spoiled n
  | scope {n c : Node} (mem : c ∈ n.nextScope.toList) (below : Spoiled c) : Spoiled n
  | item {n c : Node} (mem : c ∈ n.array) (below : Spoiled c) : Spoiled n

/-! ## The tree in memory -/

section Copied

theorem copiedItems_eq (items : List Node) : copiedItems items = items.map copied := by
  induction items with
  | nil => rfl
  | cons n rest ih => rw [copiedItems, ih, List.map_cons]

theorem toList_copiedTree (tree : Avl Node) :
    (copiedTree tree).toList = tree.toList.map copied := by
  induction tree with
  | nil => rfl
  | node l n r _ left right =>
    rw [copiedTree, Avl.toList, Avl.toList, List.map_append, List.map_cons, left, right]

@[simp] theorem copied_info (n : Node) : (copied n).info = copiedInfo n.info := by
  cases n
  rw [copied]
  rfl

@[simp] theorem copied_nextScope (n : Node) : (copied n).nextScope = copiedTree n.nextScope := by
  cases n
  rw [copied]
  rfl

@[simp] theorem copied_array (n : Node) : (copied n).array = n.array.map copied := by
  cases n
  rw [copied, copiedItems_eq]
  rfl

@[simp] theorem copiedInfo_ident (info : NodeInfo) : (copiedInfo info).ident = info.ident := by
  rw [copiedInfo]
  split <;> rfl

@[simp] theorem copiedInfo_arraysize (info : NodeInfo) :
    (copiedInfo info).arraysize = info.arraysize := by
  rw [copiedInfo]
  split <;> rfl

@[simp] theorem scopeKey_copied (n : Node) : (copied n).scopeKey = n.scopeKey := by
  rw [Node.scopeKey, Node.scopeKey, copied_info, copiedInfo]
  split <;> rfl

theorem copiedInfo_of_ne {info : NodeInfo} (other : info.jsl ≠ .array) :
    copiedInfo info = info := if_neg other

/-- Only the types of arrays are written to. -/
theorem array_of_copied {n : Node} (array : (copied n).info.jsl = .array) :
    n.info.jsl = .array := by
  by_contra other
  rw [copied_info, copiedInfo_of_ne other] at array
  exact other array

theorem ordered_copiedTree {tree : Avl Node} (ordered : Ordered Node.scopeKey tree) :
    Ordered Node.scopeKey (copiedTree tree) := by
  rw [Ordered, toList_copiedTree, List.pairwise_map]
  simp only [scopeKey_copied]
  exact ordered

/-- The copies keep the shape of the tree. -/
theorem shaped_copied {n : Node} (built : Built n) (nodup : n.idents.Nodup) :
    Shaped (copied n) := by
  induction built with
  | @mk n ordered size noItems noScopes level scopes items scopesIh itemsIh =>
    have parts := nodup
    rw [idents_eq, List.nodup_cons] at parts
    obtain ⟨nodupScopes, nodupItems, apart⟩ := List.nodup_append'.mp parts.2
    refine .mk ?_ ?_ ?_ ?_ ?_ ?_
    · rw [copied_nextScope]
      exact ordered_copiedTree ordered
    · rw [copied_info, copiedInfo_arraysize, copied_array, List.length_map]
      exact size
    · intro array
      rw [copied_nextScope, noScopes (array_of_copied array)]
      rfl
    · intro c mem listed
      rw [copied_nextScope, toList_copiedTree] at mem
      obtain ⟨d, hd, rfl⟩ := List.mem_map.mp mem
      rw [InList, copied_array, List.map_map] at listed
      obtain ⟨e, he, same⟩ := List.mem_map.mp listed
      simp only [Function.comp_apply, copied_info, copiedInfo_ident] at same
      refine apart (List.mem_flatMap.mpr ⟨d, hd, ident_mem_idents d⟩) ?_
      exact List.mem_flatMap.mpr ⟨e, he, same ▸ ident_mem_idents e⟩
    · intro c mem
      rw [copied_nextScope, toList_copiedTree] at mem
      obtain ⟨d, hd, rfl⟩ := List.mem_map.mp mem
      exact scopesIh d hd ((List.nodup_flatMap.mp nodupScopes).1 d hd)
    · intro c mem
      rw [copied_array] at mem
      obtain ⟨d, hd, rfl⟩ := List.mem_map.mp mem
      exact itemsIh d hd ((List.nodup_flatMap.mp nodupItems).1 d hd)

mutual
theorem idents_copied : ∀ n : Node, (copied n).idents = n.idents
  | .mk info nextScope array => by
    rw [copied, Node.idents, Node.idents, copiedInfo_ident, avlIdents_copied nextScope,
      listIdents_copied array]
theorem avlIdents_copied : ∀ tree : Avl Node,
    Node.avlIdents (copiedTree tree) = Node.avlIdents tree
  | .nil => rfl
  | .node l n r _ => by
    rw [copiedTree, Node.avlIdents, Node.avlIdents, avlIdents_copied l, idents_copied n,
      avlIdents_copied r]
theorem listIdents_copied : ∀ items : List Node,
    Node.listIdents (copiedItems items) = Node.listIdents items
  | [] => rfl
  | n :: rest => by
    rw [copiedItems, Node.listIdents, Node.listIdents, idents_copied n, listIdents_copied rest]
end

theorem copiedInfo_of_short {info : NodeInfo}
    (short : info.jsl = .array → info.scopeName.length < jslOffset) : copiedInfo info = info := by
  by_cases array : info.jsl = .array
  · rw [copiedInfo, if_pos array, copiedJsl, if_pos (short array), ← array]
  · exact copiedInfo_of_ne array

mutual
theorem copied_of_short : ∀ n : Node, (∀ name ∈ arrayNames n, name.length < jslOffset) →
    copied n = n
  | .mk info nextScope array, short => by
    rw [arrayNames] at short
    rw [copied, copiedTree_of_short nextScope fun name mem =>
        short name (List.mem_append_right _ (List.mem_append_left _ mem)),
      copiedItems_of_short array fun name mem =>
        short name (List.mem_append_right _ (List.mem_append_right _ mem)),
      copiedInfo_of_short fun isArray =>
        short _ (by rw [if_pos isArray]; exact List.mem_cons_self ..)]
theorem copiedTree_of_short : ∀ tree : Avl Node,
    (∀ name ∈ treeArrayNames tree, name.length < jslOffset) → copiedTree tree = tree
  | .nil, _ => rfl
  | .node l n r _, short => by
    rw [treeArrayNames] at short
    rw [copiedTree, copiedTree_of_short l fun name mem => short name (List.mem_append_left _ mem),
      copied_of_short n fun name mem =>
        short name (List.mem_append_right _ (List.mem_append_left _ mem)),
      copiedTree_of_short r fun name mem =>
        short name (List.mem_append_right _ (List.mem_append_right _ mem))]
theorem copiedItems_of_short : ∀ items : List Node,
    (∀ name ∈ itemArrayNames items, name.length < jslOffset) → copiedItems items = items
  | [], _ => rfl
  | n :: rest, short => by
    rw [itemArrayNames] at short
    rw [copiedItems, copied_of_short n fun name mem => short name (List.mem_append_left _ mem),
      copiedItems_of_short rest fun name mem => short name (List.mem_append_right _ mem)]
end

/-- While the names of the arrays are shorter, the tree in memory is the one that was
loaded. -/
theorem memoryOf_of_short {root : Avl Node}
    (short : ∀ name ∈ treeArrayNames root, name.length < jslOffset) :
    memoryOf root = some root := by
  have limits : jslOffset < jsonptrOffset := by decide
  rw [memoryOf, if_pos fun name mem => (short name mem).trans limits,
    copiedTree_of_short root short]

/-- The tree of the loader, as it is in memory: its shape, and directories on its first
level. -/
theorem shaped_memoryOf {images : List (DirImage ν)}
    (loaded : ∀ dir ∈ images, ∀ image ∈ dir.archives,
      Producible image.document ∧ image.document.string = none) {root : Avl Node}
    (memory : memoryOf (loadedRoot images) = some root) (nodup : (rootNode root).idents.Nodup) :
    Shaped (rootNode root) ∧ ∀ dir ∈ root.toList, dir.info.jsl = .dir ∧ dir.array = [] := by
  obtain ⟨built, level⟩ := built_loadedRoot loaded
  rw [memoryOf] at memory
  split at memory
  · obtain rfl := Option.some.inj memory
    have whole : rootNode (copiedTree (loadedRoot images)) =
        copied (rootNode (loadedRoot images)) := by
      rw [rootNode, rootNode, copied, copiedInfo_of_ne (by rintro ⟨⟩)]
      rfl
    rw [whole] at nodup ⊢
    rw [idents_copied] at nodup
    refine ⟨shaped_copied built nodup, fun dir mem => ?_⟩
    rw [toList_copiedTree] at mem
    obtain ⟨d, hd, rfl⟩ := List.mem_map.mp mem
    have isDir := level d hd
    have noItems : d.array = [] := (built.scopes d hd).noItems (by rw [isDir]; rintro ⟨⟩)
    rw [copied_info, copiedInfo_of_ne (by rw [isDir]; rintro ⟨⟩), copied_array, noItems]
    exact ⟨isDir, rfl⟩
  · cases memory

end Copied

/-! ## What spoils a deletion -/

section Spoils

theorem spoiled_of_oddBelow {n : Node} (h : OddBelow n) : Spoiled n := by
  induction h with
  | here mem odd => exact .odd mem odd
  | scope mem _ ih => exact .scope mem ih
  | item mem _ ih => exact .item mem ih

/-- The terminator of a name of 448 bytes makes a directory of an array. -/
theorem spoiled_of_long {n : Node} (array : n.info.jsl = .array)
    (long : n.info.scopeName.length = jslOffset) (filled : n.array ≠ []) :
    Spoiled (copied n) := by
  refine .lost (by simpa using filled) ?_
  rw [copied_info, copiedInfo, if_pos array]
  dsimp only
  rw [copiedJsl, if_neg (by omega), List.drop_eq_nil_of_le (by omega)]
  rintro ⟨⟩

/-- A node that nothing spoils is built as deletions need it. -/
theorem built_of_unspoiled {n : Node} (shaped : Shaped n) (plain : ¬ Spoiled n) : Built n := by
  induction shaped with
  | mk ordered size noScopes apart scopes items scopesIh itemsIh =>
    refine .mk ordered size ?_ noScopes ?_ ?_ ?_
    · exact fun other => not_not.mp fun filled => plain (.lost filled other)
    · exact fun c mem item => plain (.mistaken mem item)
    · exact fun c mem => scopesIh c mem fun below => plain (.scope mem below)
    · exact fun c mem => itemsIh c mem fun below => plain (.item mem below)

theorem mem_idents_of_reaches {n : Node} {i : Nat} (h : Reaches n i) : i ∈ n.idents := by
  induction h with
  | here n => exact ident_mem_idents n
  | scope mem _ ih =>
    rw [idents_eq]
    exact List.mem_cons_of_mem _ (List.mem_append_left _ (List.mem_flatMap.mpr ⟨_, mem, ih⟩))
  | item _ mem _ ih =>
    rw [idents_eq]
    exact List.mem_cons_of_mem _ (List.mem_append_right _ (List.mem_flatMap.mpr ⟨_, mem, ih⟩))

/-- A block belongs to one node of a list. -/
theorem eq_of_mem_idents {l : List Node} (nodup : (l.flatMap Node.idents).Nodup) {c d : Node}
    (hc : c ∈ l) (hd : d ∈ l) {i : Nat} (inC : i ∈ c.idents) (inD : i ∈ d.idents) : c = d := by
  induction l with
  | nil => cases hc
  | cons first rest ih =>
    rw [List.flatMap_cons] at nodup
    obtain ⟨-, nodupRest, apart⟩ := List.nodup_append'.mp nodup
    rcases List.mem_cons.mp hc with rfl | laterC
    · rcases List.mem_cons.mp hd with rfl | laterD
      · rfl
      · exact absurd (List.mem_flatMap.mpr ⟨d, laterD, inD⟩) (apart inC)
    · rcases List.mem_cons.mp hd with rfl | laterD
      · exact absurd (List.mem_flatMap.mpr ⟨c, laterC, inC⟩) (apart inD)
      · exact ih nodupRest laterC laterD

section Below
variable {n c : Node} {i : Nat} (nodup : n.idents.Nodup)
include nodup

/-- What a call does not get to below a node under a name is not got to from above. -/
theorem unreached_scope (mem : c ∈ n.nextScope.toList) (inside : i ∈ c.idents)
    (missed : ¬ Reaches c i) : i ∈ n.idents ∧ ¬ Reaches n i := by
  rw [idents_eq, List.nodup_cons] at nodup
  obtain ⟨nodupScopes, -, apart⟩ := List.nodup_append'.mp nodup.2
  have inScopes := List.mem_flatMap.mpr ⟨c, mem, inside⟩
  refine ⟨?_, fun reaches => ?_⟩
  · rw [idents_eq]
    exact List.mem_cons_of_mem _ (List.mem_append_left _ inScopes)
  · cases reaches with
    | here => exact nodup.1 (List.mem_append_left _ inScopes)
    | scope other below =>
      obtain rfl := eq_of_mem_idents nodupScopes mem other inside (mem_idents_of_reaches below)
      exact missed below
    | item _ other below =>
      exact apart inScopes (List.mem_flatMap.mpr ⟨_, other, mem_idents_of_reaches below⟩)

theorem unreached_item (mem : c ∈ n.array) (inside : i ∈ c.idents)
    (missed : n.info.jsl = .array → ¬ Reaches c i) : i ∈ n.idents ∧ ¬ Reaches n i := by
  rw [idents_eq, List.nodup_cons] at nodup
  obtain ⟨-, nodupItems, apart⟩ := List.nodup_append'.mp nodup.2
  have inItems := List.mem_flatMap.mpr ⟨c, mem, inside⟩
  refine ⟨?_, fun reaches => ?_⟩
  · rw [idents_eq]
    exact List.mem_cons_of_mem _ (List.mem_append_right _ inItems)
  · cases reaches with
    | here => exact nodup.1 (List.mem_append_right _ inItems)
    | scope other below =>
      exact apart (List.mem_flatMap.mpr ⟨_, other, mem_idents_of_reaches below⟩) inItems
    | item array other below =>
      obtain rfl := eq_of_mem_idents nodupItems mem other inside (mem_idents_of_reaches below)
      exact missed array below

end Below

/-- What spoils a deletion keeps it from its end, or there is a block that it leaves. -/
theorem stuck_or_unreached {n : Node} (h : Spoiled n) (nodup : n.idents.Nodup) :
    Stuck n ∨ ∃ i ∈ n.idents, ¬ Reaches n i := by
  have parts : ∀ {n : Node}, n.idents.Nodup → (∀ c ∈ n.nextScope.toList, c.idents.Nodup) ∧
      ∀ c ∈ n.array, c.idents.Nodup := by
    intro n nodup
    rw [idents_eq, List.nodup_cons] at nodup
    obtain ⟨nodupScopes, nodupItems, -⟩ := List.nodup_append'.mp nodup.2
    exact ⟨(List.nodup_flatMap.mp nodupScopes).1, (List.nodup_flatMap.mp nodupItems).1⟩
  -- the items of what does not look like an array are left
  have left : ∀ {n c : Node}, n.idents.Nodup → c ∈ n.array → n.info.jsl ≠ .array →
      ∃ i ∈ n.idents, ¬ Reaches n i := fun {_ c} nodup mem other =>
    ⟨_, unreached_item nodup mem (ident_mem_idents c) fun array => absurd array other⟩
  induction h with
  | @odd n c mem odd =>
    by_cases array : n.info.jsl = .array
    · exact Or.inl (.odd array mem odd)
    · exact Or.inr (left nodup mem array)
  | lost filled other =>
    obtain ⟨c, mem⟩ := List.exists_mem_of_ne_nil _ filled
    exact Or.inr (left nodup mem other)
  | mistaken mem item => exact Or.inl (.mistaken mem item)
  | scope mem _ ih =>
    rcases ih ((parts nodup).1 _ mem) with stuck | ⟨i, inside, missed⟩
    · exact Or.inl (.scope mem stuck)
    · exact Or.inr ⟨i, unreached_scope nodup mem inside missed⟩
  | @item n c mem _ ih =>
    by_cases array : n.info.jsl = .array
    · rcases ih ((parts nodup).2 _ mem) with stuck | ⟨i, inside, missed⟩
      · exact Or.inl (.item array mem stuck)
      · exact Or.inr ⟨i, unreached_item nodup mem inside fun _ => missed⟩
    · exact Or.inr (left nodup mem array)

omit [DoubleText ν] in
/-- A block that is not got to is not freed. -/
theorem not_freesExactly {store store' : Store ν} {P : Nat → Prop} {idents : List Nat}
    (within : FreesWithin store store' P) (live : Live store idents)
    (missed : ∃ i ∈ idents, ¬ P i) : ¬ FreesExactly store store' idents := by
  rintro ⟨l, freed, perm⟩
  obtain ⟨i, inside, not_⟩ := missed
  have gone : i ∈ store'.freed := by
    rw [freed]
    exact List.mem_append_left _ (perm.mem_iff.mpr inside)
  exact (within i gone).elim (live i inside) not_

end Spoils

/-! ## The deletions -/

section Targets

theorem loses_congr {parent n n' parent' : Node} (same : Same n n')
    (h : Loses parent n (parentAfter n parent)) :
    parentAfter n' parent = parentAfter n parent ∧
      (parent' = parentAfter n' parent → Loses parent n parent') := by
  have parents := (parentAfter_congr same parent).1
  refine ⟨parents, ?_⟩
  rintro rfl
  rw [parents]
  exact h

omit [DoubleText ν] in
/-- Either function takes out the whole range below a scope, a field, an array or an archive. -/
theorem deletes_range_iff (deep : Bool) {store : Store ν} {n parent : Node}
    (shaped : Shaped parent) (mem : n ∈ parent.nextScope.toList) (nodup : n.idents.Nodup)
    (live : Live store n.idents) :
    (∃ fuel ≤ n.idents.length, Deletes store n parent
      ((rtDeleteRange deep fuel store n parent).map fun r => (r.1, r.2.1))) ↔
        ¬ IsItem n ∧ ¬ Spoiled n := by
  have shapedN := shaped.scopes n mem
  constructor
  · rintro ⟨fuel, _, store', parent', ended, frees, _⟩
    obtain ⟨r, call, same⟩ := Option.map_eq_some_iff.mp ended
    obtain ⟨rfl, -⟩ := Prod.mk.inj same
    constructor
    · intro item
      rw [rtDeleteRange_unlisted deep fuel item (shaped.apart n mem)] at call
      cases call
    · intro spoiled
      rcases stuck_or_unreached spoiled nodup with stuck | missed
      · rw [rtDeleteRange_none deep fuel shapedN stuck] at call
        cases call
      · exact not_freesExactly (rtDeleteRange_within deep fuel shapedN call) live missed frees
  · rintro ⟨level, plain⟩
    obtain ⟨store', call, frees⟩ := rtDeleteRange_total deep n.idents.length store n parent
      ⟨built_of_unspoiled shapedN plain, mt spoiled_of_oddBelow plain, Nat.le_refl _⟩
      (fun item => absurd item level) nodup live
    refine ⟨_, Nat.le_refl _, store', parentAfter n parent, by rw [call]; rfl, frees, ?_⟩
    exact loses_scope shaped.ordered mem level

omit [DoubleText ν] in
/-- With an odd item `[*]` never comes to a good end. -/
theorem rtDelete_entire_none {fuel : Nat} {store : Store ν} {n parent : Node} {segm : Segment}
    (shaped : Shaped n) (nodup : n.idents.Nodup) (array : n.info.jsl = .array)
    (filled : n.array ≠ []) (entire : segm.index = jaSymEntire)
    (room : (n.array.length : Int) ≤ jaSymEntire) (stuck : Stuck n) :
    rtDelete fuel store n parent segm = none := by
  rw [idents_eq, List.nodup_cons] at nodup
  have noScopes := shaped.noScopes array
  have inArray : (∃ c ∈ n.array, ¬ IsItem c ∨ (Shaped c ∧ Stuck c)) →
      rtDelete fuel store n parent segm = none := by
    intro bad
    rw [rtDelete_entire array shaped.size filled entire room,
      deleteAllItems_none fuel fuel store n shaped.size (List.nodup_append'.mp nodup.2).2.1 bad]
    rfl
  cases stuck with
  | odd _ mem odd => exact inArray ⟨_, mem, Or.inl odd⟩
  | item _ mem below => exact inArray ⟨_, mem, Or.inr ⟨shaped.items _ mem, below⟩⟩
  | mistaken mem item =>
    rw [noScopes] at mem
    cases mem
  | scope mem below =>
    rw [noScopes] at mem
    cases mem

omit [DoubleText ν] in
/-- A loop for `[*]` that ends frees only what it gets to, and leaves nothing in the list. -/
theorem deleteAllItems_within {fuel k : Nat} {store store' : Store ν} {cur cur' : Node}
    {P : Nat → Prop} (size : cur.info.arraysize = cur.array.length)
    (nodup : (cur.array.flatMap Node.idents).Nodup)
    (items : ∀ c ∈ cur.array, IsItem c ∧ Shaped c ∧ ∀ i, Reaches c i → P i)
    (h : deleteAllItems fuel k store cur = some (store', cur')) :
    FreesWithin store store' P ∧ Same cur cur' ∧ cur'.array = [] ∧
      cur'.nextScope = cur.nextScope ∧ cur'.info.arraysize = 0 := by
  induction k generalizing store cur with
  | zero => cases h
  | succ k ih =>
    rcases List.eq_nil_or_concat cur.array with harray | ⟨init, last, harray⟩
    · have none : cur.info.arraysize = 0 := by rw [size, harray]; rfl
      rw [deleteAllItems, if_neg (by omega)] at h
      obtain ⟨rfl, rfl⟩ := Prod.mk.inj (Option.some.inj h)
      exact ⟨fun i hi => Or.inl hi, same_refl _, harray, rfl, none⟩
    · rw [List.concat_eq_append] at harray
      rw [deleteAllItems_last harray size] at h
      rw [harray] at nodup items
      obtain ⟨left, count, scopes⟩ := dropItem_last harray (apart_of_nodup nodup) size
      obtain ⟨level, shaped, reaches⟩ := items last (by simp)
      split at h
      · cases h
      · rename_i store₁ cur₁ tree call
        have after : cur₁ = dropItem cur last := by
          rw [(rtDeleteRange_unlinks true fuel _ _ _ _ _ _ call).above, parentAfter, if_pos level]
        have first : FreesWithin store store₁ P := fun i hi =>
          (rtDeleteRange_within true fuel shaped call i hi).imp_right (reaches i)
        subst after
        rw [List.flatMap_append] at nodup
        obtain ⟨later, same, empty, tree', zero⟩ := ih count
          (by rw [left]; exact (List.nodup_append'.mp nodup).1)
          (by rw [left]; exact fun c hc => items c (List.mem_append_left _ hc)) h
        have step := same_parentAfter last cur
        rw [parentAfter, if_pos level] at step
        exact ⟨first.trans later, step.trans same, empty, tree'.trans scopes, zero⟩

/-- An array without items is shaped, and a call on it gets to its own block only. -/
theorem emptied {n n' : Node} (same : Same n n') (empty : n'.array = [])
    (scopes : n'.nextScope = .nil) (zero : n'.info.arraysize = 0) :
    Shaped n' ∧ n'.idents = [n.info.ident] ∧ ∀ i, Reaches n' i → Reaches n i := by
  have noScopes : ∀ c, c ∉ n'.nextScope.toList := by
    rw [scopes]
    exact fun c => List.not_mem_nil
  have noItems : ∀ c, c ∉ n'.array := by
    rw [empty]
    exact fun c => List.not_mem_nil
  refine ⟨?_, ?_, ?_⟩
  · refine .mk (by rw [scopes]; exact ordered_nil _) (by rw [zero, empty]; rfl)
      (fun _ => scopes) ?_ ?_ ?_
    · exact fun c mem => absurd mem (noScopes c)
    · exact fun c mem => absurd mem (noScopes c)
    · exact fun c mem => absurd mem (noItems c)
  · rw [idents_eq, scopes, empty, same.ident]
    rfl
  · intro i reaches
    cases reaches with
    | here =>
      rw [same.ident]
      exact .here n
    | scope mem => exact absurd mem (noScopes _)
    | item _ mem => exact absurd mem (noItems _)

omit [DoubleText ν] in
theorem idents_of_array {n parent : Node} (shaped : Shaped parent)
    (mem : n ∈ parent.nextScope.toList) (array : n.info.jsl = .array) :
    n.nextScope = .nil ∧ n.idents = n.info.ident :: n.array.flatMap Node.idents := by
  have noScopes := (shaped.scopes n mem).noScopes array
  refine ⟨noScopes, ?_⟩
  rw [idents_eq, noScopes]
  rfl

omit [DoubleText ν] in
/-- `[*]` on an array that is spoiled does not end, or misses a block. -/
theorem entire_spoiled {store store' : Store ν} {n parent parent' : Node} {segm : Segment}
    {fuel : Nat} (shaped : Shaped parent) (mem : n ∈ parent.nextScope.toList)
    (nodup : n.idents.Nodup) (live : Live store n.idents) (array : n.info.jsl = .array)
    (filled : n.array ≠ []) (entire : segm.index = jaSymEntire)
    (room : (n.array.length : Int) ≤ jaSymEntire) (spoiled : Spoiled n)
    (ended : (rtDelete fuel store n parent segm).map (fun d => (d.store, d.parentnode)) =
      some (store', parent')) : ¬ FreesExactly store store' n.idents := by
  have shapedN := shaped.scopes n mem
  obtain ⟨noScopes, idents⟩ := idents_of_array shaped mem array
  have nodupItems : (n.array.flatMap Node.idents).Nodup := by
    rw [idents] at nodup
    exact (List.nodup_cons.mp nodup).2
  rcases stuck_or_unreached spoiled nodup with stuck | missed
  · rw [rtDelete_entire_none shapedN nodup array filled entire room stuck] at ended
    cases ended
  · rw [rtDelete_entire array shapedN.size filled entire room] at ended
    obtain ⟨deleted, call, same⟩ := Option.map_eq_some_iff.mp ended
    obtain ⟨⟨store₁, n₁⟩, drained, last⟩ := Option.bind_eq_some_iff.mp call
    obtain ⟨r, range, rfl⟩ := Option.map_eq_some_iff.mp last
    obtain ⟨rfl, -⟩ := Prod.mk.inj same
    have level : ∀ c ∈ n.array, IsItem c := by
      intro c hc
      by_contra odd
      rw [deleteAllItems_none fuel fuel store n shapedN.size nodupItems ⟨c, hc, Or.inl odd⟩]
        at drained
      cases drained
    obtain ⟨within, same, empty, tree, zero⟩ := deleteAllItems_within shapedN.size nodupItems
      (fun c hc => ⟨level c hc, shapedN.items c hc, fun i below => Reaches.item array hc below⟩)
      drained
    obtain ⟨shaped₁, -, reaches⟩ := emptied same empty (tree.trans noScopes) zero
    have rest : FreesWithin store₁ r.1 (Reaches n) := fun i hi =>
      (rtDeleteRange_within true fuel shaped₁ range i hi).imp_right (reaches i)
    exact not_freesExactly (within.trans rest) live missed

omit [DoubleText ν] in
/-- `[*]` on any other array takes out the items, and then the array. -/
theorem entire_plain {store : Store ν} {n parent : Node} {segm : Segment}
    (shaped : Shaped parent) (mem : n ∈ parent.nextScope.toList) (nodup : n.idents.Nodup)
    (live : Live store n.idents) (array : n.info.jsl = .array) (filled : n.array ≠ [])
    (entire : segm.index = jaSymEntire) (room : (n.array.length : Int) ≤ jaSymEntire)
    (plain : ¬ Spoiled n) : Deletes store n parent
      ((rtDelete n.idents.length store n parent segm).map fun d => (d.store, d.parentnode)) := by
  have shapedN := shaped.scopes n mem
  obtain ⟨noScopes, idents⟩ := idents_of_array shaped mem array
  have builtN := built_of_unspoiled shapedN plain
  have notOdd := mt spoiled_of_oddBelow plain
  have itemsFit := length_le_flatMap_idents n.array
  have size := congrArg List.length idents
  rw [List.length_cons] at size
  rw [idents] at nodup live
  obtain ⟨alone, nodupItems⟩ := List.nodup_cons.mp nodup
  obtain ⟨store₁, n₁, drained, same, empty, scopes, zero, frees⟩ :=
    deleteAllItems_total n.idents.length n.idents.length store n (by omega) shapedN.size
      (by
        intro c hc
        obtain ⟨level, plain'⟩ := oddBelow_item notOdd hc
        have one := length_idents_le hc
        exact ⟨level, builtN.items c hc, plain', by omega⟩)
      nodupItems (fun i hi => live i (List.mem_cons_of_mem _ hi))
  obtain ⟨shaped₁, idents₁, -⟩ := emptied same empty (scopes.trans noScopes) zero
  have plain₁ : ¬ Spoiled n₁ := by
    have level : n₁.info.jsl = .array := same.jsl.trans array
    intro spoiled
    cases spoiled with
    | odd mem => rw [empty] at mem; cases mem
    | lost filled => exact filled empty
    | mistaken mem => rw [scopes, noScopes] at mem; cases mem
    | scope mem => rw [scopes, noScopes] at mem; cases mem
    | item mem => rw [empty] at mem; cases mem
  have level₁ : ¬ IsItem n₁ := notItem_of_array (same.jsl.trans array)
  obtain ⟨store', call, frees'⟩ := rtDeleteRange_total true n.idents.length store₁ n₁ parent
    ⟨built_of_unspoiled shaped₁ plain₁, mt spoiled_of_oddBelow plain₁,
      by rw [idents₁, List.length_singleton]; omega⟩
    (fun item => absurd item level₁) (by rw [idents₁]; exact List.nodup_singleton _)
    (by
      rw [idents₁]
      refine live_of_freesExactly frees (fun i hi => live i ?_) ?_
      · rw [List.mem_singleton.mp hi]
        exact List.mem_cons_self ..
      · exact List.disjoint_singleton.mpr alone)
  obtain ⟨parents, loses⟩ := loses_congr same
    (loses_scope shaped.ordered mem (notItem_of_array array))
  refine ⟨store', parentAfter n₁ parent, ?_, ?_, loses rfl⟩
  · rw [rtDelete_entire array shapedN.size filled entire room, drained, Option.bind_some]
    simp only [call]
    rfl
  · rw [idents]
    rw [idents₁] at frees'
    exact (frees.trans frees').perm (List.perm_append_singleton _ _)

omit [DoubleText ν] in
/-- `[*]` takes out the items and the array. -/
theorem deletes_entire_iff {store : Store ν} {n parent : Node} {segm : Segment}
    (shaped : Shaped parent) (mem : n ∈ parent.nextScope.toList) (nodup : n.idents.Nodup)
    (live : Live store n.idents) (array : n.info.jsl = .array) (filled : n.array ≠ [])
    (entire : segm.index = jaSymEntire) (room : (n.array.length : Int) ≤ jaSymEntire) :
    (∃ fuel ≤ n.idents.length, Deletes store n parent
      ((rtDelete fuel store n parent segm).map fun d => (d.store, d.parentnode))) ↔
        ¬ Spoiled n := by
  constructor
  · rintro ⟨fuel, _, store', parent', ended, frees, _⟩ spoiled
    exact entire_spoiled shaped mem nodup live array filled entire room spoiled ended frees
  · intro plain
    exact ⟨_, Nat.le_refl _,
      entire_plain shaped mem nodup live array filled entire room plain⟩

omit [DoubleText ν] in
/-- The removal of a directory that is spoiled does not end, or misses a block. -/
theorem dir_spoiled {deep : Bool} {fuel : Nat} {store store' : Store ν} {dir : Node}
    {root root' : Avl Node} (shaped : Shaped dir) (level : dir.info.jsl = .dir)
    (nodup : dir.idents.Nodup) (live : Live store dir.idents) (spoiled : Spoiled dir)
    (ended : rtDeleteRangeOfDir deep fuel store dir root = some (store', root')) :
    ¬ FreesExactly store store' dir.idents := by
  have unlinks := rtDeleteRange_unlinks (ν := ν) deep fuel
  rw [rtDeleteRangeOfDir] at ended
  split at ended
  · cases ended
  · rename_i alive
    cases drained : drainScopes (rtDeleteRange deep fuel) (fuel + 1) store dir with
    | none =>
      rw [drained] at ended
      cases ended
    | some result =>
      obtain ⟨store₁, dir₁⟩ := result
      rw [drained] at ended
      obtain ⟨rfl, -⟩ := Prod.mk.inj (Option.some.inj ended)
      obtain ⟨same, -⟩ := drainScopes_same unlinks drained
      -- the loop ends for the directory as it does in a call on a node
      have call : rtDeleteRange deep (fuel + 1) store dir (rootNode root) ≠ none := by
        have noArray : ¬ (dir₁.info.jsl = .array ∧ dir₁.array ≠ [] ∧ 0 < dir₁.info.arraysize) := by
          rw [same.jsl, level]
          rintro ⟨array, _⟩
          cases array
        have noItem : ¬ IsItem dir₁ := by
          rw [IsItem, same.jsl, level]
          rintro (item | item) <;> cases item
        rw [rtDeleteRange_succ, if_neg alive, drained, Option.bind_some]
        dsimp only
        rw [afterScopes, if_neg noArray, if_neg noItem]
        exact Option.some_ne_none _
      rcases stuck_or_unreached spoiled nodup with stuck | missed
      · exact absurd (rtDeleteRange_none deep (fuel + 1) shaped stuck store _) call
      · have scopes : FreesWithin store store₁ (Reaches dir) :=
          drainScopes_within unlinks shaped.ordered
            (fun c hc store parent r call i hi =>
              (rtDeleteRange_within deep fuel (shaped.scopes c hc) call i hi).imp_right
                (.scope hc)) drained
        have within : FreesWithin store (store₁.free dir₁) (Reaches dir) := by
          intro i hi
          rw [Store.free, same.ident] at hi
          rcases List.mem_cons.mp hi with rfl | before
          · exact Or.inr (.here dir)
          · exact scopes i before
        exact not_freesExactly within live missed

omit [DoubleText ν] in
/-- Any other directory is emptied, and taken out of the root. -/
theorem dir_plain (deep : Bool) {store : Store ν} {dir : Node} {root : Avl Node}
    (shaped : Shaped (rootNode root)) (mem : dir ∈ root.toList) (level : dir.info.jsl = .dir)
    (noItems : dir.array = []) (nodup : dir.idents.Nodup) (live : Live store dir.idents)
    (plain : ¬ Spoiled dir) : Deletes store dir (rootNode root)
      ((rtDeleteRangeOfDir deep dir.idents.length store dir root).map
        fun r => (r.1, rootNode r.2)) := by
  have idents : dir.idents =
      dir.info.ident :: dir.nextScope.toList.flatMap Node.idents := by
    rw [idents_eq, noItems, List.flatMap_nil, List.append_nil]
  have builtDir := built_of_unspoiled (shaped.scopes dir mem) plain
  rw [idents] at nodup live
  obtain ⟨alone, nodupScopes⟩ := List.nodup_cons.mp nodup
  have alive : dir.info.ident ∉ store.freed := live _ (List.mem_cons_self ..)
  have scopesFit := length_le_flatMap_idents dir.nextScope.toList
  have size := congrArg List.length idents
  rw [List.length_cons] at size
  have ready : ∀ c ∈ dir.nextScope.toList,
      ¬ IsItem c ∧ Built c ∧ ¬ OddBelow c ∧ c.idents.length ≤ dir.idents.length := by
    intro c hc
    have one := length_idents_le hc
    exact ⟨builtDir.level c hc, builtDir.scopes c hc,
      oddBelow_scope (mt spoiled_of_oddBelow plain) hc, by omega⟩
  obtain ⟨store₁, drained, frees⟩ := drainScopes_total
    (rtDeleteRange_total deep dir.idents.length) (dir.idents.length + 1) store dir (by omega)
    builtDir.ordered ready nodupScopes (fun i hi => live i (List.mem_cons_of_mem _ hi))
  have item : ¬ IsItem dir := by
    rw [IsItem, level]
    rintro (h | h) <;> cases h
  have loses := loses_scope shaped.ordered mem item
  have after : parentAfter dir (rootNode root) =
      rootNode (avlremove Node.scopeKey root (fold dir.info.scopeName)) := by
    rw [parentAfter, if_neg item]
    rfl
  rw [after] at loses
  obtain ⟨l, freed, perm⟩ := frees
  refine ⟨store₁.free dir, _, ?_, ⟨dir.info.ident :: l, ?_, ?_⟩, loses⟩
  · rw [rtDeleteRangeOfDir, if_neg alive, drained]
    simp [Store.free]
  · rw [Store.free, freed]
    rfl
  · rw [idents]
    exact perm.cons _

omit [DoubleText ν] in
/-- A directory has no parent node; it is taken out of the root. -/
theorem deletes_dir_iff (deep : Bool) {store : Store ν} {dir : Node} {root : Avl Node}
    (shaped : Shaped (rootNode root)) (mem : dir ∈ root.toList) (level : dir.info.jsl = .dir)
    (noItems : dir.array = []) (nodup : dir.idents.Nodup) (live : Live store dir.idents) :
    (∃ fuel ≤ dir.idents.length, Deletes store dir (rootNode root)
      ((rtDeleteRangeOfDir deep fuel store dir root).map fun r => (r.1, rootNode r.2))) ↔
        ¬ Spoiled dir := by
  constructor
  · rintro ⟨fuel, _, store', parent', ended, frees, _⟩ spoiled
    obtain ⟨⟨_, _⟩, call, same⟩ := Option.map_eq_some_iff.mp ended
    obtain ⟨rfl, -⟩ := Prod.mk.inj same
    exact dir_spoiled (shaped.scopes dir mem) level nodup live spoiled call frees
  · intro plain
    exact ⟨_, Nat.le_refl _, dir_plain deep shaped mem level noItems nodup live plain⟩

omit [DoubleText ν] in
/-- Every turn of the loops leaves fewer nodes. -/
theorem fewer_after_turn {deep : Bool} {fuel : Nat} {store store' : Store ν}
    {cur c cur' : Node} {tree : Avl Node} (shaped : Shaped cur) (nodup : cur.idents.Nodup)
    (child : c ∈ cur.nextScope.toList ∨ (c ∈ cur.array ∧ IsItem c))
    (h : rtDeleteRange deep fuel store c cur = some (store', cur', tree)) :
    cur.idents.Perm (c.idents ++ cur'.idents) ∧ cur'.idents.length < cur.idents.length := by
  have done := rtDeleteRange_unlinks deep fuel _ _ _ _ _ _ h
  have perm : cur.idents.Perm (c.idents ++ cur'.idents) := by
    rw [done.above]
    rcases child with scope | ⟨item, level⟩
    · have level : ¬ IsItem c := by
        intro level
        rw [rtDeleteRange_unlisted deep fuel level (shaped.apart c scope)] at h
        cases h
      exact (loses_scope shaped.ordered scope level).idents
    · rw [parentAfter, if_pos level]
      rw [idents_eq, List.nodup_cons] at nodup
      exact perm_dropItem item (List.nodup_append'.mp nodup.2).2.1
  refine ⟨perm, ?_⟩
  have length := perm.length_eq
  have one := length_idents_scopes c
  rw [List.length_append] at length
  omega

end Targets

section LoadedTree

/-- Below a shaped node everything is shaped, and its blocks are among those of the node. -/
theorem shaped_getAt {n m : Node} {place : Path} (shaped : Shaped n) (nodup : n.idents.Nodup)
    (h : n.getAt place = some m) : Shaped m ∧ m.idents.Nodup ∧ m.idents ⊆ n.idents := by
  induction place generalizing n with
  | nil =>
    obtain rfl := Option.some.inj h
    exact ⟨shaped, nodup, List.Subset.refl _⟩
  | cons s rest ih =>
    rw [Node.getAt] at h
    obtain ⟨c, hc, h⟩ := Option.bind_eq_some_iff.mp h
    have idents := idents_eq n
    rw [idents, List.nodup_cons] at nodup
    obtain ⟨nodupScopes, nodupItems, -⟩ := List.nodup_append'.mp nodup.2
    have child : Shaped c ∧ c.idents.Nodup ∧ c.idents ⊆ n.idents := by
      rw [idents]
      rcases mem_of_follow hc with mem | mem
      · refine ⟨shaped.scopes c mem, (List.nodup_flatMap.mp nodupScopes).1 c mem, fun i hi => ?_⟩
        exact List.mem_cons_of_mem _
          (List.mem_append_left _ (List.mem_flatMap.mpr ⟨c, mem, hi⟩))
      · refine ⟨shaped.items c mem, (List.nodup_flatMap.mp nodupItems).1 c mem, fun i hi => ?_⟩
        exact List.mem_cons_of_mem _
          (List.mem_append_right _ (List.mem_flatMap.mpr ⟨c, mem, hi⟩))
    obtain ⟨shapedM, nodupM, subset⟩ := ih child.1 child.2.1 h
    exact ⟨shapedM, nodupM, List.Subset.trans subset child.2.2⟩

/-- Deletions on the tree that the loader has left in memory. The blocks of the tree are
different and none is free. A scope, a field, an array or an archive under a node, an array
by `[*]`, and a directory are deleted as they should be exactly when nothing at or below
them spoils it; and every turn of the loops leaves fewer nodes. -/
theorem delete_iff {images : List (DirImage ν)}
    (loaded : ∀ dir ∈ images, ∀ image ∈ dir.archives,
      Producible image.document ∧ image.document.string = none)
    {root : Avl Node} (memory : memoryOf (loadedRoot images) = some root)
    (nodup : (rootNode root).idents.Nodup) {store : Store ν}
    (live : Live store (rootNode root).idents) :
    (∀ place parent key n, (rootNode root).getAt place = some parent →
      parent.follow (.scope key) = some n →
      (∀ deep, (∃ fuel ≤ n.idents.length, Deletes store n parent
        ((rtDeleteRange deep fuel store n parent).map fun r => (r.1, r.2.1))) ↔
          ¬ IsItem n ∧ ¬ Spoiled n) ∧
      (n.info.jsl = .array → n.array ≠ [] → (n.array.length : Int) ≤ jaSymEntire →
        ∀ segm : Segment, segm.index = jaSymEntire →
          ((∃ fuel ≤ n.idents.length, Deletes store n parent
            ((rtDelete fuel store n parent segm).map fun d => (d.store, d.parentnode))) ↔
              ¬ Spoiled n))) ∧
    (∀ dir ∈ root.toList, ∀ deep,
      (∃ fuel ≤ dir.idents.length, Deletes store dir (rootNode root)
        ((rtDeleteRangeOfDir deep fuel store dir root).map
          fun r => (r.1, rootNode r.2))) ↔ ¬ Spoiled dir) ∧
    (∀ deep fuel (store store' : Store ν) cur c cur' tree, Shaped cur → cur.idents.Nodup →
      c ∈ cur.nextScope.toList ∨ (c ∈ cur.array ∧ IsItem c) →
      rtDeleteRange deep fuel store c cur = some (store', cur', tree) →
      cur.idents.Perm (c.idents ++ cur'.idents) ∧ cur'.idents.length < cur.idents.length) := by
  obtain ⟨shaped, level⟩ := shaped_memoryOf loaded memory nodup
  refine ⟨?_, ?_, ?_⟩
  · intro place parent key n hparent hn
    obtain ⟨shapedP, nodupP, subsetP⟩ := shaped_getAt shaped nodup hparent
    have below : parent.getAt [.scope key] = some n := by rw [Node.getAt, hn]; rfl
    obtain ⟨_, nodupN, subsetN⟩ := shaped_getAt shapedP nodupP below
    have liveN : Live store n.idents := fun i hi => live i (subsetP (subsetN hi))
    have mem := mem_of_avlsearch Node.scopeKey hn
    refine ⟨fun deep => deletes_range_iff deep shapedP mem nodupN liveN, ?_⟩
    intro array filled room segm entire
    exact deletes_entire_iff shapedP mem nodupN liveN array filled entire room
  · intro dir hdir deep
    have step : (rootNode root).getAt [.scope dir.scopeKey] = some dir := by
      have found : (rootNode root).follow (.scope dir.scopeKey) = some dir :=
        (mem_toList_iff Node.scopeKey shaped.ordered).mp hdir
      rw [Node.getAt, found]
      rfl
    obtain ⟨_, nodupD, subsetD⟩ := shaped_getAt shaped nodup step
    obtain ⟨isDir, noItems⟩ := level dir hdir
    exact deletes_dir_iff deep shaped hdir isDir noItems nodupD fun i hi => live i (subsetD hi)
  · intro deep fuel store store' cur c cur' tree shapedC nodupC child call
    exact fewer_after_turn shapedC nodupC child call

end LoadedTree

section Samples

theorem nullRoot_memory : memoryOf (loadedRoot nullImages) = some (loadedRoot nullImages) :=
  memoryOf_of_short (by decide)

theorem nullRoot_separate : (rootNode (loadedRoot nullImages)).idents.Nodup ∧
    Live nullStore (rootNode (loadedRoot nullImages)).idents := by
  have idents : (rootNode (loadedRoot nullImages)).idents = [0, 7, 1, 2, 3] := rfl
  rw [idents]
  exact ⟨by decide, fun _ _ free => absurd free List.not_mem_nil⟩

/-- `d.a.arr[*]` -/
def entireSegment : Segment := ⟨ofChars ['a', 'r', 'r'], jaSymEntire, .array⟩

theorem nullArray_spoiled : ∃ parent n, (rootNode (loadedRoot nullImages)).getAt
      [.scope (ofChars ['d']), .scope (ofChars ['a'])] = some parent ∧
    parent.follow (.scope (ofChars ['a', 'r', 'r'])) = some n ∧
    (n.array.length : Int) = 1 ∧ n.info.jsl = .array ∧ Spoiled n := by
  refine ⟨_, _, rfl, rfl, rfl, rfl, .odd (List.mem_singleton.mpr rfl) ?_⟩
  rintro (h | h) <;> cases h

/-- The array `[null]` is not deleted by `[*]`. -/
theorem delete_not_always : ¬ ∀ (images : List (DirImage Nat)) (root : Avl Node)
    (store : Store Nat) (place : Path) (parent : Node) (key : Bytes) (n : Node) (segm : Segment),
    (∀ dir ∈ images, ∀ image ∈ dir.archives,
      Producible image.document ∧ image.document.string = none) →
    memoryOf (loadedRoot images) = some root → (rootNode root).idents.Nodup →
    Live store (rootNode root).idents → (rootNode root).getAt place = some parent →
    parent.follow (.scope key) = some n → n.info.jsl = .array → n.array ≠ [] →
    (n.array.length : Int) ≤ jaSymEntire → segm.index = jaSymEntire →
    ∃ fuel ≤ n.idents.length, Deletes store n parent
      ((rtDelete fuel store n parent segm).map fun d => (d.store, d.parentnode)) := by
  intro claim
  obtain ⟨parent, n, hparent, hn, length, array, spoiled⟩ := nullArray_spoiled
  obtain ⟨separate, live⟩ := nullRoot_separate
  have filled : n.array ≠ [] := by
    intro empty
    rw [empty] at length
    cases length
  have room : (n.array.length : Int) ≤ jaSymEntire := by
    rw [length]
    decide
  have deletes := claim nullImages _ nullStore _ parent _ n entireSegment nullImages_loaded
    nullRoot_memory separate live hparent hn array filled room rfl
  have shaped := (shaped_memoryOf nullImages_loaded nullRoot_memory separate).1
  obtain ⟨shapedP, nodupP, subset⟩ := shaped_getAt shaped separate hparent
  have mem := mem_of_avlsearch Node.scopeKey hn
  have below : parent.getAt [.scope (ofChars ['a', 'r', 'r'])] = some n := by
    rw [Node.getAt, hn]
    rfl
  obtain ⟨-, nodupN, subsetN⟩ := shaped_getAt shapedP nodupP below
  exact (deletes_entire_iff shapedP mem nodupN (fun i hi => live i (subset (subsetN hi))) array
    filled rfl room).mp deletes spoiled

theorem itemRoot_memory : memoryOf (loadedRoot itemImages) = some (loadedRoot itemImages) :=
  memoryOf_of_short (by decide)

theorem itemRoot_separate : (rootNode (loadedRoot itemImages)).idents.Nodup ∧
    Live nullStore (rootNode (loadedRoot itemImages)).idents := by
  have idents : (rootNode (loadedRoot itemImages)).idents = [0, 7, 1, 2, 3] := rfl
  rw [idents]
  exact ⟨by decide, fun _ _ free => absurd free List.not_mem_nil⟩

theorem itemArray_plain : ∃ parent n, (rootNode (loadedRoot itemImages)).getAt
      [.scope (ofChars ['d']), .scope (ofChars ['a'])] = some parent ∧
    parent.follow (.scope (ofChars ['a', 'r', 'r'])) = some n ∧
    (n.array.length : Int) = 1 ∧ n.info.jsl = .array ∧ ¬ Spoiled n := by
  refine ⟨_, _, rfl, rfl, rfl, rfl, fun spoiled => ?_⟩
  cases spoiled with
  | lost _ other => exact other rfl
  | mistaken mem => cases mem
  | scope mem => cases mem
  | odd mem odd =>
    obtain rfl := List.mem_singleton.mp mem
    exact odd (Or.inr rfl)
  | item mem below =>
    obtain rfl := List.mem_singleton.mp mem
    cases below with
    | lost filled => exact filled rfl
    | mistaken mem => cases mem
    | scope mem => cases mem
    | odd mem => cases mem
    | item mem => cases mem

/-- The array `["x"]` is. -/
theorem delete_iff_itemArray : ∃ parent n, (rootNode (loadedRoot itemImages)).getAt
      [.scope (ofChars ['d']), .scope (ofChars ['a'])] = some parent ∧
    parent.follow (.scope (ofChars ['a', 'r', 'r'])) = some n ∧
    ∃ fuel ≤ n.idents.length, Deletes nullStore n parent
      ((rtDelete fuel nullStore n parent entireSegment).map fun d => (d.store, d.parentnode)) := by
  obtain ⟨parent, n, hparent, hn, length, array, plain⟩ := itemArray_plain
  have filled : n.array ≠ [] := by
    intro empty
    rw [empty] at length
    cases length
  have room : (n.array.length : Int) ≤ jaSymEntire := by
    rw [length]
    decide
  have all :=
    (delete_iff itemImages_loaded itemRoot_memory itemRoot_separate.1 itemRoot_separate.2).1
  exact ⟨parent, n, hparent, hn,
    ((all _ parent _ n hparent hn).2 array filled room entireSegment rfl).mpr plain⟩

end Samples

end CopiedNames
