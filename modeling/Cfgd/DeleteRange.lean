import Cfgd.SearchSound

/-!
# Deleting a range of the tree

`rt_deep_delete_range` and its sibling that leaves the document alone. Each call
unlinks the node that it was called for, after everything below it. An item of an
array that is neither an object item nor a value item is freed but stays in the
list of its array, so that the loop over the array meets the freed block again.
-/

namespace DeleteRange

open AvlTree CText CJson Request ConfigNode Loader FsImage Runtime DocTree DocSearch SearchSound

variable {ν : Type}

/-- The levels at which `rt_deep_delete_range` takes a node out of an array. -/
def IsItem (n : Node) : Prop := n.info.jsl = .arrayItem ∨ n.info.jsl = .arrayItemAsField

instance (n : Node) : Decidable (IsItem n) := inferInstanceAs (Decidable (_ ∨ _))

/-- The node is in the list of items of the other. -/
def InList (n parent : Node) : Prop :=
  n.info.ident ∈ parent.array.map fun item => item.info.ident

instance (n parent : Node) : Decidable (InList n parent) :=
  inferInstanceAs (Decidable (_ ∈ _))

/-- An array at or below the node holds an item of another level. -/
inductive OddBelow : Node → Prop where
  | here {n c : Node} (mem : c ∈ n.array) (odd : ¬ IsItem c) : OddBelow n
  | scope {n c : Node} (mem : c ∈ n.nextScope.toList) (below : OddBelow c) : OddBelow n
  | item {n c : Node} (mem : c ∈ n.array) (below : OddBelow c) : OddBelow n

/-- The shape of every tree that the loader builds. -/
inductive Built : Node → Prop where
  | mk {n : Node} (ordered : Ordered Node.scopeKey n.nextScope)
      (size : n.info.arraysize = n.array.length)
      (noItems : n.info.jsl ≠ .array → n.array = [])
      (noScopes : n.info.jsl = .array → n.nextScope = .nil)
      (level : ∀ c ∈ n.nextScope.toList, ¬ IsItem c)
      (scopes : ∀ c ∈ n.nextScope.toList, Built c) (items : ∀ c ∈ n.array, Built c) : Built n

/-- The shape of a tree, whatever the levels of its nodes are. -/
inductive Shaped : Node → Prop where
  | mk {n : Node} (ordered : Ordered Node.scopeKey n.nextScope)
      (size : n.info.arraysize = n.array.length)
      (noScopes : n.info.jsl = .array → n.nextScope = .nil)
      (apart : ∀ c ∈ n.nextScope.toList, ¬ InList c n)
      (scopes : ∀ c ∈ n.nextScope.toList, Shaped c) (items : ∀ c ∈ n.array, Shaped c) : Shaped n

/-- What a call on the node cannot get over: an item of an array that has another level, or
a node under a name that has the level of an item. -/
inductive Stuck : Node → Prop where
  | odd {n c : Node} (array : n.info.jsl = .array) (mem : c ∈ n.array) (odd : ¬ IsItem c) :
      Stuck n
  | mistaken {n c : Node} (mem : c ∈ n.nextScope.toList) (item : IsItem c) : Stuck n
  | scope {n c : Node} (mem : c ∈ n.nextScope.toList) (below : Stuck c) : Stuck n
  | item {n c : Node} (array : n.info.jsl = .array) (mem : c ∈ n.array) (below : Stuck c) : Stuck n

section Shape
variable [DoubleText ν]

theorem Built.ordered {n : Node} : Built n → Ordered Node.scopeKey n.nextScope
  | .mk ordered _ _ _ _ _ _ => ordered

theorem Built.size {n : Node} : Built n → n.info.arraysize = n.array.length
  | .mk _ size _ _ _ _ _ => size

theorem Built.noItems {n : Node} : Built n → n.info.jsl ≠ .array → n.array = []
  | .mk _ _ noItems _ _ _ _ => noItems

theorem Built.noScopes {n : Node} : Built n → n.info.jsl = .array → n.nextScope = .nil
  | .mk _ _ _ noScopes _ _ _ => noScopes

theorem Built.level {n : Node} : Built n → ∀ c ∈ n.nextScope.toList, ¬ IsItem c
  | .mk _ _ _ _ level _ _ => level

theorem Built.scopes {n : Node} : Built n → ∀ c ∈ n.nextScope.toList, Built c
  | .mk _ _ _ _ _ scopes _ => scopes

theorem Built.items {n : Node} : Built n → ∀ c ∈ n.array, Built c
  | .mk _ _ _ _ _ _ items => items

theorem Shaped.ordered {n : Node} : Shaped n → Ordered Node.scopeKey n.nextScope
  | .mk ordered _ _ _ _ _ => ordered

theorem Shaped.size {n : Node} : Shaped n → n.info.arraysize = n.array.length
  | .mk _ size _ _ _ _ => size

theorem Shaped.noScopes {n : Node} : Shaped n → n.info.jsl = .array → n.nextScope = .nil
  | .mk _ _ noScopes _ _ _ => noScopes

theorem Shaped.apart {n : Node} : Shaped n → ∀ c ∈ n.nextScope.toList, ¬ InList c n
  | .mk _ _ _ apart _ _ => apart

theorem Shaped.scopes {n : Node} : Shaped n → ∀ c ∈ n.nextScope.toList, Shaped c
  | .mk _ _ _ _ scopes _ => scopes

theorem Shaped.items {n : Node} : Shaped n → ∀ c ∈ n.array, Shaped c
  | .mk _ _ _ _ _ items => items

/-- An array with items is recognised as one. -/
theorem Built.array_branch {n : Node} (h : Built n) (filled : n.array ≠ []) :
    n.info.jsl = .array ∧ 0 < n.info.arraysize := by
  have positive := List.length_pos_iff.mpr filled
  refine ⟨not_not.mp fun other => filled (h.noItems other), ?_⟩
  rw [h.size]
  omega

@[simp] theorem decreaseIndex_nextScope (n : Node) :
    (decreaseIndex n).nextScope = n.nextScope := by simp [decreaseIndex]
@[simp] theorem decreaseIndex_array (n : Node) : (decreaseIndex n).array = n.array := by
  simp [decreaseIndex]
@[simp] theorem decreaseIndex_ident (n : Node) :
    (decreaseIndex n).info.ident = n.info.ident := by simp [decreaseIndex]
@[simp] theorem decreaseIndex_jsl (n : Node) : (decreaseIndex n).info.jsl = n.info.jsl := by
  simp [decreaseIndex]
@[simp] theorem decreaseIndex_arraysize (n : Node) :
    (decreaseIndex n).info.arraysize = n.info.arraysize := by simp [decreaseIndex]

@[simp] theorem idents_decreaseIndex (n : Node) : (decreaseIndex n).idents = n.idents := by
  simp [idents_eq]

theorem isItem_decreaseIndex (n : Node) : IsItem (decreaseIndex n) ↔ IsItem n := by
  simp [IsItem]

theorem built_decreaseIndex {n : Node} (h : Built n) : Built (decreaseIndex n) := by
  obtain ⟨ordered, size, noItems, noScopes, level, scopes, items⟩ := h
  exact .mk (by simpa using ordered) (by simpa using size) (by simpa using noItems)
    (by simpa using noScopes) (by simpa using level) (by simpa using scopes)
    (by simpa using items)

theorem shaped_decreaseIndex {n : Node} (h : Shaped n) : Shaped (decreaseIndex n) := by
  obtain ⟨ordered, size, noScopes, apart, scopes, items⟩ := h
  exact .mk (by simpa using ordered) (by simpa using size) (by simpa using noScopes)
    (by simpa [InList] using apart) (by simpa using scopes) (by simpa using items)

theorem stuck_decreaseIndex {n : Node} (h : Stuck n) : Stuck (decreaseIndex n) := by
  cases h with
  | odd array mem odd => exact .odd (by simpa using array) (by simpa using mem) odd
  | mistaken mem item => exact .mistaken (by simpa using mem) item
  | scope mem below => exact .scope (by simpa using mem) below
  | item array mem below => exact .item (by simpa using array) (by simpa using mem) below

theorem oddBelow_decreaseIndex {n : Node} : OddBelow (decreaseIndex n) ↔ OddBelow n := by
  constructor
  · intro h
    cases h with
    | here mem odd => exact .here (by simpa using mem) odd
    | scope mem below => exact .scope (by simpa using mem) below
    | item mem below => exact .item (by simpa using mem) below
  · intro h
    cases h with
    | here mem odd => exact .here (by simpa using mem) odd
    | scope mem below => exact .scope (by simpa using mem) below
    | item mem below => exact .item (by simpa using mem) below

theorem eq_nil_of_toList {α : Type} {t : Avl α} (h : t.toList = []) : t = .nil := by
  cases t with
  | nil => rfl
  | node l x r height => simp [Avl.toList] at h

/-- A node that mirrors its item is built as the loader builds it. -/
theorem built_of_mirrors {n : Node} {j : Item ν} (h : Mirrors n j)
    (shown : n.info.jsl = itemJsl j) : Built n := by
  induction h with
  | @mk n j linked both shows below ih =>
    have self : Mirrors n j := .mk linked both shows below
    have scope : ∀ c ∈ n.nextScope.toList, ∃ d, n.follow (.scope c.scopeKey) = some c ∧
        j.kind = .cjsonObject ∧ follow j (.scope c.scopeKey) = some d ∧
        memberOf j.child c.scopeKey = some d ∧ Shows c d := by
      intro c hc
      have step : n.follow (.scope c.scopeKey) = some c :=
        (mem_toList_iff Node.scopeKey linked.ordered).mp hc
      obtain ⟨d, hd, shown', _⟩ := self.down step
      have there := hd
      rw [follow] at hd
      split at hd
      · exact ⟨d, step, ‹_›, there, hd, shown'⟩
      · cases hd
    refine .mk linked.ordered linked.size ?_ ?_ ?_ ?_ ?_
    · intro other
      by_contra filled
      obtain ⟨c, rest, split⟩ := List.exists_cons_of_ne_nil filled
      have first : n.follow (.item 0) = some c := by rw [Node.follow, split]; rfl
      obtain ⟨d, hd, _⟩ := self.down first
      rw [follow] at hd
      split at hd
      · rename_i array named
        exact other (shown.trans ((itemJsl_array_iff named).mpr array))
      · cases hd
    · intro array
      refine eq_nil_of_toList (List.eq_nil_iff_forall_not_mem.mpr fun c hc => ?_)
      obtain ⟨_, _, object, _⟩ := scope c hc
      rw [shown] at array
      rw [(array_of_itemJsl array).1] at object
      cases object
    · intro c hc item
      obtain ⟨d, _, _, _, member, shown'⟩ := scope c hc
      rw [IsItem, shown'.jsl] at item
      rcases itemJsl_of_memberOf member with level | level | level <;> simp [level] at item
    · intro c hc
      obtain ⟨d, step, _, there, _, shown'⟩ := scope c hc
      exact ih _ c d step there shown'.jsl
    · intro c hc
      obtain ⟨i, hi⟩ := List.getElem?_of_mem hc
      have step : n.follow (.item i) = some c := hi
      obtain ⟨d, hd, shown', _⟩ := self.down step
      exact ih (.item i) c d step hd shown'.jsl

/-- A node over the members of a document is built as the loader builds it. -/
theorem built_of_holds {n : Node} {members : List (Item ν)}
    (ord : Ordered Node.scopeKey n.nextScope) (holds : Holds n.nextScope members)
    (level : n.info.jsl ≠ .array) (empty : n.array = []) (size : n.info.arraysize = 0) :
    Built n := by
  have scope : ∀ c ∈ n.nextScope.toList, ∃ d, memberOf members c.scopeKey = some d ∧
      Shows c d ∧ Mirrors c d := by
    intro c hc
    exact holds_of_search holds ((mem_toList_iff Node.scopeKey ord).mp hc)
  refine .mk ord ?_ (fun _ => empty) (fun array => absurd array level) ?_ ?_ ?_
  · rw [size, empty]
    rfl
  · intro c hc item
    obtain ⟨d, member, shown, _⟩ := scope c hc
    rw [IsItem, shown.jsl] at item
    rcases itemJsl_of_memberOf member with level | level | level <;> simp [level] at item
  · intro c hc
    obtain ⟨d, _, shown, mirrors⟩ := scope c hc
    exact built_of_mirrors mirrors shown.jsl
  · rw [empty]
    simp

end Shape

section Unlinking

/-- The parent once the node is unlinked from it. -/
def parentAfter (n parent : Node) : Node :=
  if IsItem n then dropItem parent n else removeScope parent n.info.scopeName

/-- The tree that a call for the node returns. -/
def treeAfter (n parent : Node) : Avl Node :=
  if IsItem n then .nil else (parentAfter n parent).nextScope

/-- What no call changes in the node above. -/
structure Same (n n' : Node) : Prop where
  ident : n'.info.ident = n.info.ident
  scopeName : n'.info.scopeName = n.info.scopeName
  jsl : n'.info.jsl = n.info.jsl

theorem same_refl (n : Node) : Same n n := ⟨rfl, rfl, rfl⟩

theorem Same.trans {n n' n'' : Node} (h : Same n n') (h' : Same n' n'') : Same n n'' :=
  ⟨h'.ident.trans h.ident, h'.scopeName.trans h.scopeName, h'.jsl.trans h.jsl⟩

theorem same_setNextScope (n : Node) (change : Avl Node → Avl Node) :
    Same n (n.setNextScope change) := ⟨by simp, by simp, by simp⟩

theorem same_parentAfter (n parent : Node) : Same parent (parentAfter n parent) := by
  rw [parentAfter]
  split
  · exact ⟨by simp [dropItem], by simp [dropItem], by simp [dropItem]⟩
  · exact ⟨by simp, by simp, by simp⟩

theorem parentAfter_congr {n n' : Node} (same : Same n n') (parent : Node) :
    parentAfter n' parent = parentAfter n parent ∧ treeAfter n' parent = treeAfter n parent := by
  have level : IsItem n' ↔ IsItem n := by rw [IsItem, IsItem, same.jsl]
  have parents : parentAfter n' parent = parentAfter n parent := by
    simp only [parentAfter, level, dropItem, same.ident, same.scopeName]
  refine ⟨parents, ?_⟩
  simp only [treeAfter, level, parents]

/-- What a call does whenever it comes to an end. -/
structure Unlinks (store : Store ν) (n parent : Node) (store' : Store ν) (parent' : Node)
    (tree : Avl Node) : Prop where
  above : parent' = parentAfter n parent
  returned : tree = treeAfter n parent
  live : n.info.ident ∉ store.freed
  freed : n.info.ident ∈ store'.freed
  grows : store.freed ⊆ store'.freed

def AlwaysUnlinks (delete : DeleteCall ν) : Prop :=
  ∀ store n parent store' parent' tree, delete store n parent = some (store', parent', tree) →
    Unlinks store n parent store' parent' tree

theorem drainScopes_same {delete : DeleteCall ν} (unlinks : AlwaysUnlinks delete) {k : Nat}
    {store store' : Store ν} {cur cur' : Node}
    (h : drainScopes delete k store cur = some (store', cur')) :
    Same cur cur' ∧ store.freed ⊆ store'.freed := by
  induction k generalizing store cur with
  | zero => cases h
  | succ k ih =>
    rw [drainScopes] at h
    split at h
    · obtain ⟨rfl, rfl⟩ := Prod.mk.inj (Option.some.inj h)
      exact ⟨same_refl _, List.Subset.refl _⟩
    · split at h
      · cases h
      · rename_i store₁ cur₁ tree hcall
        have done := unlinks _ _ _ _ _ _ hcall
        obtain ⟨same, grows⟩ := ih h
        have step : Same cur cur₁ := by
          rw [done.above]
          exact same_parentAfter _ cur
        exact ⟨(step.trans (same_setNextScope _ _)).trans same,
          List.Subset.trans done.grows grows⟩

theorem drainItems_same {delete : DeleteCall ν} (unlinks : AlwaysUnlinks delete) {k : Nat}
    {store store' : Store ν} {cur cur' : Node}
    (h : drainItems delete k store cur = some (store', cur')) :
    Same cur cur' ∧ store.freed ⊆ store'.freed := by
  induction k generalizing store cur with
  | zero => cases h
  | succ k ih =>
    rw [drainItems] at h
    split at h
    · obtain ⟨rfl, rfl⟩ := Prod.mk.inj (Option.some.inj h)
      exact ⟨same_refl _, List.Subset.refl _⟩
    · split at h
      · cases h
      · rename_i store₁ cur₁ tree hcall
        have done := unlinks _ _ _ _ _ _ hcall
        obtain ⟨same, grows⟩ := ih h
        have step : Same cur cur₁ := by
          rw [done.above]
          exact same_parentAfter _ cur
        exact ⟨step.trans same, List.Subset.trans done.grows grows⟩

/-- A call ends by freeing the node, or what the loops have left of it, and unlinking it. -/
def Ends (store : Store ν) (n parent : Node) (r : Store ν × Node × Avl Node) : Prop :=
  r.1.freed = n.info.ident :: store.freed ∧ r.2.1 = parentAfter n parent ∧
    r.2.2 = treeAfter n parent

theorem ends_unlinkArray (deep : Bool) (store : Store ν) {n : Node} (level : ¬ IsItem n)
    (parent : Node) : Ends store n parent ((unlinkArray deep store n parent).1,
      (unlinkArray deep store n parent).2, (unlinkArray deep store n parent).2.nextScope) := by
  refine ⟨rfl, ?_, ?_⟩
  · rw [parentAfter, if_neg level]
    rfl
  · rw [treeAfter, if_neg level, parentAfter, if_neg level]
    rfl

theorem ends_unlinkScope (deep : Bool) (store : Store ν) {n : Node} (level : ¬ IsItem n)
    (parent : Node) : Ends store n parent ((unlinkScope deep store n parent).1,
      (unlinkScope deep store n parent).2, (unlinkScope deep store n parent).2.nextScope) := by
  refine ⟨rfl, ?_, ?_⟩
  · rw [parentAfter, if_neg level]
    rfl
  · rw [treeAfter, if_neg level, parentAfter, if_neg level]
    rfl

theorem ends_rtDeleteArrayItem (deep : Bool) (store : Store ν) {n : Node} (level : IsItem n)
    (parent : Node) : Ends store n parent ((rtDeleteArrayItem deep store n parent).1,
      (rtDeleteArrayItem deep store n parent).2, .nil) := by
  refine ⟨rfl, ?_, ?_⟩
  · rw [parentAfter, if_pos level]
    rfl
  · rw [treeAfter, if_pos level]

theorem notItem_of_array {n : Node} (array : n.info.jsl = .array) : ¬ IsItem n := by
  rw [IsItem, array]
  rintro (h | h) <;> cases h

/-- What remains of a call when the loop over the scopes is done. -/
def afterScopes (deep : Bool) (fuel : Nat) (store : Store ν) (cur parent : Node) :
    Option (Store ν × Node × Avl Node) :=
  if cur.info.jsl = .array ∧ cur.array ≠ [] ∧ 0 < cur.info.arraysize then
    (drainItems (rtDeleteRange deep fuel) (fuel + 1) store cur).map fun (store, cur) =>
      ((unlinkArray deep store cur parent).1, (unlinkArray deep store cur parent).2,
        (unlinkArray deep store cur parent).2.nextScope)
  else if IsItem cur then
    if InList cur parent then
      some ((rtDeleteArrayItem deep store cur parent).1,
        (rtDeleteArrayItem deep store cur parent).2, .nil)
    else none
  else
    some ((unlinkScope deep store cur parent).1, (unlinkScope deep store cur parent).2,
      (unlinkScope deep store cur parent).2.nextScope)

theorem rtDeleteRange_succ (deep : Bool) (fuel : Nat) (store : Store ν) (n parent : Node) :
    rtDeleteRange deep (fuel + 1) store n parent =
      if n.info.ident ∈ store.freed then none
      else (drainScopes (rtDeleteRange deep fuel) (fuel + 1) store n).bind fun (store, cur) =>
        afterScopes deep fuel store cur parent := by
  rw [rtDeleteRange]
  split
  · rfl
  · cases drainScopes (rtDeleteRange deep fuel) (fuel + 1) store n with
    | none => rfl
    | some r =>
      obtain ⟨store₁, cur⟩ := r
      simp only [Option.bind_some, afterScopes, IsItem]
      split
      · cases drainItems (rtDeleteRange deep fuel) (fuel + 1) store₁ cur <;> rfl
      · rfl

theorem afterScopes_ends {deep : Bool} {fuel : Nat} {store : Store ν} {cur parent : Node}
    (unlinks : AlwaysUnlinks (rtDeleteRange (ν := ν) deep fuel))
    {r : Store ν × Node × Avl Node} (h : afterScopes deep fuel store cur parent = some r) :
    ∃ store₁ cur₁, Same cur cur₁ ∧ store.freed ⊆ store₁.freed ∧ Ends store₁ cur₁ parent r := by
  rw [afterScopes] at h
  split at h
  · rename_i array
    obtain ⟨⟨store₁, cur₁⟩, drained, rfl⟩ := Option.map_eq_some_iff.mp h
    obtain ⟨same, grows⟩ := drainItems_same unlinks drained
    have level : ¬ IsItem cur₁ := notItem_of_array (same.jsl.trans array.1)
    exact ⟨store₁, cur₁, same, grows, ends_unlinkArray deep store₁ level parent⟩
  · split at h
    · rename_i level
      split at h
      · obtain rfl := Option.some.inj h
        exact ⟨store, cur, same_refl _, List.Subset.refl _,
          ends_rtDeleteArrayItem deep store level parent⟩
      · cases h
    · rename_i level
      obtain rfl := Option.some.inj h
      exact ⟨store, cur, same_refl _, List.Subset.refl _, ends_unlinkScope deep store level parent⟩

/-- Every call that comes to an end has unlinked and freed its node. -/
theorem rtDeleteRange_unlinks (deep : Bool) (fuel : Nat) :
    AlwaysUnlinks (rtDeleteRange (ν := ν) deep fuel) := by
  induction fuel with
  | zero =>
    intro store n parent store' parent' tree h
    cases h
  | succ fuel ih =>
    intro store n parent store' parent' tree h
    rw [rtDeleteRange_succ] at h
    split at h
    · cases h
    · rename_i live
      obtain ⟨⟨store₁, cur⟩, drained, rest⟩ := Option.bind_eq_some_iff.mp h
      obtain ⟨same, grows⟩ := drainScopes_same ih drained
      obtain ⟨store₂, cur₂, same', grows', freed, above, returned⟩ := afterScopes_ends ih rest
      obtain ⟨parents, trees⟩ := parentAfter_congr (same.trans same') parent
      have mine : store'.freed = n.info.ident :: store₂.freed := by
        rw [freed, (same.trans same').ident]
      refine ⟨above.trans parents, returned.trans trees, live, ?_, ?_⟩
      · rw [mine]
        exact List.mem_cons_self ..
      · intro i hi
        rw [mine]
        exact List.mem_cons_of_mem _ (grows' (grows hi))

end Unlinking

section Exactly

/-- Every block below the node is given to `free` once, and no other block is. -/
def FreesExactly (store store' : Store ν) (idents : List Nat) : Prop :=
  ∃ l, store'.freed = l ++ store.freed ∧ l.Perm idents

/-- None of these blocks is free yet. -/
def Live (store : Store ν) (idents : List Nat) : Prop := ∀ i ∈ idents, i ∉ store.freed

theorem FreesExactly.trans {store store₁ store₂ : Store ν} {l₁ l₂ : List Nat}
    (h₁ : FreesExactly store store₁ l₁) (h₂ : FreesExactly store₁ store₂ l₂) :
    FreesExactly store store₂ (l₁ ++ l₂) := by
  obtain ⟨k₁, freed₁, perm₁⟩ := h₁
  obtain ⟨k₂, freed₂, perm₂⟩ := h₂
  refine ⟨k₂ ++ k₁, by rw [freed₂, freed₁, List.append_assoc], ?_⟩
  exact (perm₂.append perm₁).trans List.perm_append_comm

theorem FreesExactly.perm {store store' : Store ν} {l l' : List Nat}
    (h : FreesExactly store store' l) (same : l.Perm l') : FreesExactly store store' l' := by
  obtain ⟨k, freed, perm⟩ := h
  exact ⟨k, freed, perm.trans same⟩

/-- What was not freed by a call is as live as before. -/
theorem live_of_freesExactly {store store' : Store ν} {l rest : List Nat}
    (h : FreesExactly store store' l) (live : Live store rest) (apart : l.Disjoint rest) :
    Live store' rest := by
  obtain ⟨k, freed, perm⟩ := h
  intro i hi hfreed
  rw [freed, List.mem_append] at hfreed
  rcases hfreed with mine | before
  · exact apart (perm.mem_iff.mp mine) hi
  · exact live i hi before

/-- The call comes to an end for every node with the property, and frees it exactly. -/
def DeletesAll (delete : DeleteCall ν) (P : Node → Prop) : Prop :=
  ∀ store n parent, P n → (IsItem n → InList n parent) → n.idents.Nodup → Live store n.idents →
    ∃ store', delete store n parent = some (store', parentAfter n parent, treeAfter n parent) ∧
      FreesExactly store store' n.idents

theorem live_append {store : Store ν} {l l' : List Nat} (h : Live store (l ++ l')) :
    Live store l ∧ Live store l' :=
  ⟨fun i hi => h i (List.mem_append_left _ hi), fun i hi => h i (List.mem_append_right _ hi)⟩

/-- The loop over the scopes takes one turn for each of them. -/
theorem drainScopes_total {delete : DeleteCall ν} {P : Node → Prop}
    (deletes : DeletesAll delete P) (k : Nat) (store : Store ν) (cur : Node)
    (enough : cur.nextScope.toList.length < k) (ord : Ordered Node.scopeKey cur.nextScope)
    (scopes : ∀ c ∈ cur.nextScope.toList, ¬ IsItem c ∧ P c)
    (nodup : (cur.nextScope.toList.flatMap Node.idents).Nodup)
    (live : Live store (cur.nextScope.toList.flatMap Node.idents)) :
    ∃ store', drainScopes delete k store cur = some (store', cur.setNextScope fun _ => .nil) ∧
      FreesExactly store store' (cur.nextScope.toList.flatMap Node.idents) := by
  induction k generalizing store cur with
  | zero => omega
  | succ k ih =>
    obtain ⟨info, tree, array⟩ := cur
    simp only [Node.nextScope_mk] at enough ord scopes nodup live ⊢
    cases tree with
    | nil => exact ⟨store, rfl, [], rfl, List.Perm.refl _⟩
    | node l child r h =>
      have root : child ∈ (Avl.node l child r h).toList := by simp [Avl.toList]
      obtain ⟨level, ready⟩ := scopes child root
      have perm := perm_avlremove Node.scopeKey ord root
      have perm' := perm.flatMap_right Node.idents
      rw [List.flatMap_cons] at perm'
      have nodup' := (perm'.nodup_iff.mp nodup)
      obtain ⟨nodupChild, nodupRest, apart⟩ := List.nodup_append'.mp nodup'
      have live' : Live store (child.idents ++ (avlremove Node.scopeKey (.node l child r h)
          child.scopeKey).toList.flatMap Node.idents) :=
        fun i hi => live i (perm'.mem_iff.mpr hi)
      obtain ⟨liveChild, liveRest⟩ := live_append live'
      obtain ⟨store₁, call, frees⟩ :=
        deletes store child (.mk info (.node l child r h) array) ready
          (fun item => absurd item level) nodupChild liveChild
      have length := perm.length_eq
      rw [List.length_cons] at length
      have after : treeAfter child (.mk info (.node l child r h) array) =
          avlremove Node.scopeKey (.node l child r h) child.scopeKey := by
        rw [treeAfter, if_neg level, parentAfter, if_neg level, removeScope,
          Node.nextScope_setNextScope]
        rfl
      have kept : (parentAfter child (.mk info (.node l child r h) array)).setNextScope
          (fun _ => treeAfter child (.mk info (.node l child r h) array)) =
          .mk info (avlremove Node.scopeKey (.node l child r h) child.scopeKey) array := by
        rw [after, parentAfter, if_neg level]
        rfl
      have smaller : (avlremove Node.scopeKey (.node l child r h) child.scopeKey).toList.length <
          k := by omega
      obtain ⟨store', rest, frees'⟩ := ih store₁ (.mk info
          (avlremove Node.scopeKey (.node l child r h) child.scopeKey) array)
        smaller (ordered_avlremove Node.scopeKey ord _)
        (fun c hc => scopes c (perm.mem_iff.mpr (List.mem_cons_of_mem _ hc))) nodupRest
        (live_of_freesExactly frees liveRest apart)
      refine ⟨store', ?_, (frees.trans frees').perm perm'.symm⟩
      rw [drainScopes]
      simp only [Node.nextScope_mk, call]
      rw [kept, rest]
      rfl

/-- The first item of an array is dropped where it stands. -/
theorem dropItem_first {cur item : Node} {rest : List Node} (array : cur.array = item :: rest) :
    (dropItem cur item).array = rest.map decreaseIndex := by
  have first : cur.array.findIdx (fun n => n.info.ident = item.info.ident) = 0 := by
    rw [array, List.findIdx_cons]
    simp
  simp only [dropItem, Node.array_setInfo, Node.array_setArray, first]
  rw [array]
  rfl

/-- The loop over the items takes one turn for each of them. -/
theorem drainItems_total {delete : DeleteCall ν} {P : Node → Prop}
    (deletes : DeletesAll delete P) (stable : ∀ c, P c → P (decreaseIndex c)) (k : Nat)
    (store : Store ν) (cur : Node) (enough : cur.array.length < k)
    (items : ∀ c ∈ cur.array, IsItem c ∧ P c)
    (nodup : (cur.array.flatMap Node.idents).Nodup)
    (live : Live store (cur.array.flatMap Node.idents)) :
    ∃ store' cur', drainItems delete k store cur = some (store', cur') ∧ Same cur cur' ∧
      FreesExactly store store' (cur.array.flatMap Node.idents) := by
  induction k generalizing store cur with
  | zero => omega
  | succ k ih =>
    rw [drainItems]
    cases harray : cur.array with
    | nil => exact ⟨store, cur, rfl, same_refl _, [], rfl, List.Perm.refl _⟩
    | cons item rest =>
      rw [harray] at enough items nodup live
      obtain ⟨level, ready⟩ := items item (List.mem_cons_self ..)
      rw [List.flatMap_cons] at nodup live ⊢
      obtain ⟨nodupItem, nodupRest, apart⟩ := List.nodup_append'.mp nodup
      obtain ⟨liveItem, liveRest⟩ := live_append live
      have listed : InList item cur := by
        rw [InList, harray]
        exact List.mem_cons_self ..
      obtain ⟨store₁, call, frees⟩ :=
        deletes store item cur ready (fun _ => listed) nodupItem liveItem
      have after : parentAfter item cur = dropItem cur item := by
        rw [parentAfter, if_pos level]
      have shorter := dropItem_first harray
      have same : ∀ l : List Node, (l.map decreaseIndex).flatMap Node.idents =
          l.flatMap Node.idents := by
        intro l
        simp [List.flatMap_map]
      rw [List.length_cons] at enough
      obtain ⟨store', cur', drained, kept, frees'⟩ := ih store₁
        (dropItem cur item) (by rw [shorter, List.length_map]; omega)
        (by
          rw [shorter]
          intro c hc
          obtain ⟨d, hd, rfl⟩ := List.mem_map.mp hc
          obtain ⟨level', ready'⟩ := items d (List.mem_cons_of_mem _ hd)
          exact ⟨(isItem_decreaseIndex d).mpr level', stable d ready'⟩)
        (by rw [shorter, same]; exact nodupRest)
        (by rw [shorter, same]; exact live_of_freesExactly frees liveRest apart)
      rw [shorter, same] at frees'
      refine ⟨store', cur', ?_, ?_, frees.trans frees'⟩
      · simp only [call, after]
        exact drained
      · have step := same_parentAfter item cur
        rw [after] at step
        exact step.trans kept

end Exactly

section Outcome

theorem oddBelow_scope {n c : Node} (plain : ¬ OddBelow n) (mem : c ∈ n.nextScope.toList) :
    ¬ OddBelow c := fun below => plain (.scope mem below)

theorem oddBelow_item {n c : Node} (plain : ¬ OddBelow n) (mem : c ∈ n.array) :
    IsItem c ∧ ¬ OddBelow c :=
  ⟨not_not.mp fun odd => plain (.here mem odd), fun below => plain (.item mem below)⟩

theorem length_idents_scopes (n : Node) :
    n.idents.length = 1 + (n.nextScope.toList.flatMap Node.idents).length +
      (n.array.flatMap Node.idents).length := by
  rw [idents_eq, List.length_cons, List.length_append]
  omega

theorem length_le_flatMap_idents (l : List Node) : l.length ≤ (l.flatMap Node.idents).length := by
  induction l with
  | nil => exact Nat.le_refl _
  | cons c rest ih =>
    have one := length_idents_scopes c
    rw [List.length_cons, List.flatMap_cons, List.length_append]
    omega

theorem length_idents_le {c : Node} {l : List Node} (hc : c ∈ l) :
    c.idents.length ≤ (l.flatMap Node.idents).length := by
  obtain ⟨before, after, rfl⟩ := List.append_of_mem hc
  rw [List.flatMap_append, List.flatMap_cons, List.length_append, List.length_append]
  omega

/-- A call that ends after its loops freed everything below the node frees the node too. -/
theorem ends_exactly {store store₂ : Store ν} {n cur₂ parent : Node}
    {r : Store ν × Node × Avl Node} (same : Same n cur₂)
    (frees : FreesExactly store store₂ (n.nextScope.toList.flatMap Node.idents ++
      n.array.flatMap Node.idents)) (ends : Ends store₂ cur₂ parent r) :
    r = (r.1, parentAfter n parent, treeAfter n parent) ∧ FreesExactly store r.1 n.idents := by
  obtain ⟨freed, above, returned⟩ := ends
  obtain ⟨parents, trees⟩ := parentAfter_congr same parent
  obtain ⟨l, before, perm⟩ := frees
  constructor
  · rw [← parents, ← trees, ← above, ← returned]
  · refine ⟨n.info.ident :: l, ?_, ?_⟩
    · rw [freed, before, same.ident]
      rfl
    · rw [idents_eq]
      exact perm.cons _

theorem afterScopes_total {deep : Bool} {fuel : Nat} {store store₁ : Store ν} {n : Node}
    (deletes : DeletesAll (rtDeleteRange (ν := ν) deep fuel)
      fun n => Built n ∧ ¬ OddBelow n ∧ n.idents.length ≤ fuel)
    (built : Built n) (plain : ¬ OddBelow n) (enough : n.idents.length ≤ fuel + 1)
    (nodup : (n.array.flatMap Node.idents).Nodup)
    (live : Live store₁ (n.array.flatMap Node.idents))
    (frees : FreesExactly store store₁ (n.nextScope.toList.flatMap Node.idents)) (parent : Node)
    (listed : IsItem n → InList n parent) :
    ∃ r store₂ cur₂,
      afterScopes deep fuel store₁ (n.setNextScope fun _ => .nil) parent = some r ∧
      Same n cur₂ ∧ Ends store₂ cur₂ parent r ∧
      FreesExactly store store₂ (n.nextScope.toList.flatMap Node.idents ++
        n.array.flatMap Node.idents) := by
  have sizes := length_idents_scopes n
  have emptied := same_setNextScope n fun _ => .nil
  rw [afterScopes]
  simp only [Node.array_setNextScope, Node.info_setNextScope]
  by_cases filled : n.array = []
  · have skip : ¬ (n.info.jsl = .array ∧ n.array ≠ [] ∧ 0 < n.info.arraysize) :=
      fun h => h.2.1 filled
    rw [if_neg skip, filled, List.flatMap_nil, List.append_nil]
    split
    · rename_i level
      have item : IsItem n := by rwa [IsItem, Node.info_setNextScope] at level
      have inList : InList (n.setNextScope fun _ => .nil) parent := by
        rw [InList, Node.info_setNextScope]
        exact listed item
      rw [if_pos inList]
      exact ⟨_, store₁, _, rfl, emptied, ends_rtDeleteArrayItem deep store₁ level parent, frees⟩
    · rename_i level
      exact ⟨_, store₁, _, rfl, emptied, ends_unlinkScope deep store₁ level parent, frees⟩
  · obtain ⟨array, positive⟩ := built.array_branch filled
    have itemsFit := length_le_flatMap_idents n.array
    have ready : ∀ c ∈ n.array, IsItem c ∧ Built c ∧ ¬ OddBelow c ∧ c.idents.length ≤ fuel := by
      intro c hc
      obtain ⟨level, plain'⟩ := oddBelow_item plain hc
      have one := length_idents_le hc
      exact ⟨level, built.items c hc, plain', by omega⟩
    obtain ⟨store₂, cur₂, drained, same, frees'⟩ := drainItems_total deletes
      (fun c hc => ⟨built_decreaseIndex hc.1, mt oddBelow_decreaseIndex.mp hc.2.1, by
        simpa using hc.2.2⟩) (fuel + 1) store₁ (n.setNextScope fun _ => .nil)
      (by rw [Node.array_setNextScope]; omega) (by simpa using ready) (by simpa using nodup)
      (by simpa using live)
    rw [Node.array_setNextScope] at frees'
    rw [if_pos ⟨array, filled, positive⟩, drained]
    have level : ¬ IsItem cur₂ := notItem_of_array ((emptied.trans same).jsl.trans array)
    exact ⟨_, store₂, cur₂, rfl, emptied.trans same, ends_unlinkArray deep store₂ level parent,
      frees.trans frees'⟩

/-- A call on a node without odd items below it takes no more turns than there are
nodes, and frees every one of them once. -/
theorem rtDeleteRange_total (deep : Bool) (fuel : Nat) :
    DeletesAll (rtDeleteRange (ν := ν) deep fuel)
      fun n => Built n ∧ ¬ OddBelow n ∧ n.idents.length ≤ fuel := by
  induction fuel with
  | zero =>
    rintro store n parent ⟨_, _, enough⟩
    have one := length_idents_scopes n
    omega
  | succ fuel ih =>
    rintro store n parent ⟨built, plain, enough⟩ listed nodup live
    have sizes := length_idents_scopes n
    rw [idents_eq, List.nodup_cons] at nodup
    obtain ⟨nodupScopes, nodupItems, apart⟩ := List.nodup_append'.mp nodup.2
    have alive : n.info.ident ∉ store.freed := live _ (by rw [idents_eq]; simp)
    rw [idents_eq] at live
    obtain ⟨liveScopes, liveItems⟩ := live_append
      fun i hi => live i (List.mem_cons_of_mem _ hi)
    have scopesFit := length_le_flatMap_idents n.nextScope.toList
    have ready : ∀ c ∈ n.nextScope.toList,
        ¬ IsItem c ∧ Built c ∧ ¬ OddBelow c ∧ c.idents.length ≤ fuel := by
      intro c hc
      have one := length_idents_le hc
      exact ⟨built.level c hc, built.scopes c hc, oddBelow_scope plain hc, by omega⟩
    obtain ⟨store₁, drained, frees⟩ := drainScopes_total ih (fuel + 1) store n (by omega)
      built.ordered ready nodupScopes liveScopes
    obtain ⟨r, store₂, cur₂, rest, same, ends, frees'⟩ := afterScopes_total ih built plain enough
      nodupItems (live_of_freesExactly frees liveItems apart) frees parent listed
    obtain ⟨result, exactly⟩ := ends_exactly same frees' ends
    refine ⟨r.1, ?_, exactly⟩
    rw [rtDeleteRange_succ, if_neg alive, drained, Option.bind_some]
    exact rest.trans (congrArg some result)

/-- The loop over the scopes does not end where the call for one of them does not. -/
theorem drainScopes_none {delete : DeleteCall ν} (unlinks : AlwaysUnlinks delete)
    {items : List Node} (k : Nat) (store : Store ν) (cur : Node)
    (ord : Ordered Node.scopeKey cur.nextScope) (array : cur.array = items)
    (stuck : ∃ c ∈ cur.nextScope.toList, ∀ store parent, parent.array = items →
      delete store c parent = none)
    (others : ∀ c ∈ cur.nextScope.toList, IsItem c → ∀ store parent, parent.array = items →
      delete store c parent = none) :
    drainScopes delete k store cur = none := by
  induction k generalizing store cur with
  | zero => rfl
  | succ k ih =>
    obtain ⟨info, tree, list⟩ := cur
    rw [drainScopes]
    simp only [Node.nextScope_mk, Node.array_mk] at ord array stuck others ⊢
    subst array
    cases tree with
    | nil =>
      obtain ⟨c, hc, -⟩ := stuck
      cases hc
    | node l child r height =>
      have root : child ∈ (Avl.node l child r height).toList := by simp [Avl.toList]
      dsimp only
      cases hcall : delete store child (.mk info (.node l child r height) list) with
      | none => rfl
      | some result =>
        obtain ⟨store₁, cur₁, tree⟩ := result
        have done := unlinks _ _ _ _ _ _ hcall
        have level : ¬ IsItem child := by
          intro item
          rw [others child root item _ _ rfl] at hcall
          cases hcall
        have after : cur₁.setNextScope (fun _ => tree) =
            .mk info (avlremove Node.scopeKey (.node l child r height) child.scopeKey) list := by
          rw [done.returned, done.above, treeAfter, if_neg level, parentAfter, if_neg level]
          rfl
        have perm := perm_avlremove Node.scopeKey ord root
        dsimp only
        rw [after]
        refine ih store₁ (.mk info _ list) (ordered_avlremove Node.scopeKey ord _) rfl ?_ ?_
        · obtain ⟨c, hc, none_⟩ := stuck
          rcases List.mem_cons.mp (perm.mem_iff.mp hc) with rfl | later
          · rw [none_ _ _ rfl] at hcall
            cases hcall
          · exact ⟨c, later, none_⟩
        · exact fun c hc => others c (perm.mem_iff.mpr (List.mem_cons_of_mem _ hc))

/-- The loop over the items does not end at an item that stays in the list, nor at one
whose own call does not end. -/
theorem drainItems_none {delete : DeleteCall ν} (unlinks : AlwaysUnlinks delete)
    (P : Node → Prop) (stable : ∀ c, P c → P (decreaseIndex c))
    (stuck : ∀ c, P c → IsItem c → ∀ store parent, delete store c parent = none) (k : Nat)
    (store : Store ν) (cur : Node) (odd : ∃ c ∈ cur.array, ¬ IsItem c ∨ P c) :
    drainItems delete k store cur = none := by
  induction k generalizing store cur with
  | zero => rfl
  | succ k ih =>
    obtain ⟨c, hc, bad⟩ := odd
    rw [drainItems]
    cases harray : cur.array with
    | nil =>
      rw [harray] at hc
      cases hc
    | cons item rest =>
      dsimp only
      cases hcall : delete store item cur with
      | none => rfl
      | some r =>
        obtain ⟨store₁, cur₁, tree⟩ := r
        have done := unlinks _ _ _ _ _ _ hcall
        dsimp only
        by_cases level : IsItem item
        · have after : cur₁.array = rest.map decreaseIndex := by
            rw [done.above, parentAfter, if_pos level]
            exact dropItem_first harray
          refine ih store₁ cur₁ ?_
          rw [harray] at hc
          rcases List.mem_cons.mp hc with rfl | hc
          · rcases bad with odd | bad
            · exact absurd level odd
            · rw [stuck c bad level] at hcall
              cases hcall
          · refine ⟨decreaseIndex c, by rw [after]; exact List.mem_map_of_mem hc, ?_⟩
            exact bad.imp (mt (isItem_decreaseIndex c).mp) (stable c)
        · -- the freed item is still the first of the list
          have after : cur₁.array = item :: rest := by
            rw [done.above, parentAfter, if_neg level, removeScope_array, harray]
          cases k with
          | zero => rfl
          | succ k =>
            rw [drainItems, after]
            dsimp only
            cases hcall' : delete store₁ item cur₁ with
            | none => rfl
            | some r' =>
              obtain ⟨store₂, cur₂, tree'⟩ := r'
              exact absurd done.freed (unlinks _ _ _ _ _ _ hcall').live

/-- The call for a node with the level of an item does not end outside of a list. -/
theorem rtDeleteRange_unlisted (deep : Bool) (fuel : Nat) {n parent : Node} (item : IsItem n)
    (outside : ¬ InList n parent) (store : Store ν) :
    rtDeleteRange deep fuel store n parent = none := by
  cases fuel with
  | zero => rfl
  | succ fuel =>
    rw [rtDeleteRange_succ]
    split
    · rfl
    · rw [Option.bind_eq_none_iff]
      rintro ⟨store₁, cur⟩ drained
      obtain ⟨same, -⟩ := drainScopes_same (rtDeleteRange_unlinks deep fuel) drained
      have level : IsItem cur := by rwa [IsItem, same.jsl]
      have noArray : ¬ (cur.info.jsl = .array ∧ cur.array ≠ [] ∧ 0 < cur.info.arraysize) :=
        fun array => notItem_of_array array.1 level
      dsimp only
      rw [afterScopes, if_neg noArray, if_pos level, if_neg]
      rwa [InList, same.ident]

/-- A call on a node where it is stuck never comes to a good end. -/
theorem rtDeleteRange_none (deep : Bool) (fuel : Nat) {n : Node} (shaped : Shaped n)
    (stuck : Stuck n) (store : Store ν) (parent : Node) :
    rtDeleteRange deep fuel store n parent = none := by
  induction fuel generalizing n store parent with
  | zero => rfl
  | succ fuel ih =>
    have unlinks := rtDeleteRange_unlinks (ν := ν) deep fuel
    have unlisted : ∀ c ∈ n.nextScope.toList, IsItem c → ∀ (store : Store ν) parent,
        parent.array = n.array → rtDeleteRange deep fuel store c parent = none := by
      intro c hc item store parent array
      refine rtDeleteRange_unlisted deep fuel item ?_ store
      rw [InList, array]
      exact shaped.apart c hc
    have inScopes : (∃ c ∈ n.nextScope.toList, ∀ (store : Store ν) parent,
        parent.array = n.array → rtDeleteRange deep fuel store c parent = none) →
        drainScopes (rtDeleteRange deep fuel) (fuel + 1) store n = none :=
      fun bad => drainScopes_none unlinks _ _ _ shaped.ordered rfl bad unlisted
    have inArray : n.info.jsl = .array → (∃ c ∈ n.array, ¬ IsItem c ∨ (Shaped c ∧ Stuck c)) →
        (drainScopes (rtDeleteRange deep fuel) (fuel + 1) store n).bind (fun (store, cur) =>
          afterScopes deep fuel store cur parent) = none := by
      intro array bad
      have filled : n.array ≠ [] := by
        obtain ⟨c, hc, _⟩ := bad
        exact List.ne_nil_of_mem hc
      have positive : 0 < n.info.arraysize := by
        have count := List.length_pos_iff.mpr filled
        rw [shaped.size]
        omega
      have drained : drainScopes (rtDeleteRange deep fuel) (fuel + 1) store n =
          some (store, n) := by
        rw [drainScopes, shaped.noScopes array]
      rw [drained, Option.bind_some]
      dsimp only
      rw [afterScopes, if_pos ⟨array, filled, positive⟩, Option.map_eq_none_iff]
      exact drainItems_none unlinks (fun c => Shaped c ∧ Stuck c)
        (fun c hc => ⟨shaped_decreaseIndex hc.1, stuck_decreaseIndex hc.2⟩)
        (fun c hc _ store parent => ih hc.1 hc.2 store parent) _ _ _ bad
    rw [rtDeleteRange_succ]
    split
    · rfl
    · cases stuck with
      | odd array mem odd => exact inArray array ⟨_, mem, Or.inl odd⟩
      | item array mem below => exact inArray array ⟨_, mem, Or.inr ⟨shaped.items _ mem, below⟩⟩
      | mistaken mem item => rw [inScopes ⟨_, mem, unlisted _ mem item⟩, Option.bind_none]
      | scope mem below =>
        rw [inScopes ⟨_, mem, fun store parent _ => ih (shaped.scopes _ mem) below store parent⟩,
          Option.bind_none]

/-! What a call frees -/

/-- The blocks that a call on the node gets to: below an array all of them, below another
level nothing in the list of items. -/
inductive Reaches : Node → Nat → Prop where
  | here (n : Node) : Reaches n n.info.ident
  | scope {n c : Node} {i : Nat} (mem : c ∈ n.nextScope.toList) (below : Reaches c i) :
      Reaches n i
  | item {n c : Node} {i : Nat} (array : n.info.jsl = .array) (mem : c ∈ n.array)
      (below : Reaches c i) : Reaches n i

theorem reaches_decreaseIndex {n : Node} {i : Nat} (h : Reaches (decreaseIndex n) i) :
    Reaches n i := by
  cases h with
  | here =>
    rw [decreaseIndex_ident]
    exact .here n
  | scope mem below => exact .scope (by simpa using mem) below
  | item array mem below => exact .item (by simpa using array) (by simpa using mem) below

/-- The call frees no other block than one of these. -/
def FreesWithin (store store' : Store ν) (P : Nat → Prop) : Prop :=
  ∀ i ∈ store'.freed, i ∈ store.freed ∨ P i

theorem FreesWithin.trans {store store₁ store₂ : Store ν} {P : Nat → Prop}
    (h₁ : FreesWithin store store₁ P) (h₂ : FreesWithin store₁ store₂ P) :
    FreesWithin store store₂ P := fun i hi =>
  (h₂ i hi).elim (h₁ i) Or.inr

theorem drainScopes_within {delete : DeleteCall ν} (unlinks : AlwaysUnlinks delete)
    {P : Nat → Prop} {k : Nat} {store store' : Store ν} {cur cur' : Node}
    (ord : Ordered Node.scopeKey cur.nextScope)
    (each : ∀ c ∈ cur.nextScope.toList, ∀ store parent r, delete store c parent = some r →
      FreesWithin store r.1 P)
    (h : drainScopes delete k store cur = some (store', cur')) : FreesWithin store store' P := by
  induction k generalizing store cur with
  | zero => cases h
  | succ k ih =>
    obtain ⟨info, tree, array⟩ := cur
    rw [drainScopes] at h
    simp only [Node.nextScope_mk] at h ord each
    cases tree with
    | nil =>
      obtain ⟨rfl, -⟩ := Prod.mk.inj (Option.some.inj h)
      exact fun i hi => Or.inl hi
    | node l child r height =>
      have root : child ∈ (Avl.node l child r height).toList := by simp [Avl.toList]
      dsimp only at h
      split at h
      · cases h
      · rename_i store₁ cur₁ tree hcall
        have done := unlinks _ _ _ _ _ _ hcall
        have first := each child root _ _ _ hcall
        have perm := perm_avlremove Node.scopeKey ord root
        refine first.trans ?_
        by_cases level : IsItem child
        · rw [done.returned, treeAfter, if_pos level] at h
          exact ih (by simp [ordered_nil]) (by simp [Avl.toList]) h
        · have after : (cur₁.setNextScope fun _ => tree).nextScope =
              avlremove Node.scopeKey (.node l child r height) child.scopeKey := by
            rw [done.returned, treeAfter, if_neg level, parentAfter, if_neg level]
            simp [removeScope, Node.scopeKey]
          refine ih ?_ ?_ h
          · rw [after]
            exact ordered_avlremove Node.scopeKey ord _
          · rw [after]
            exact fun c hc => each c (perm.mem_iff.mpr (List.mem_cons_of_mem _ hc))

theorem drainItems_within {delete : DeleteCall ν} (unlinks : AlwaysUnlinks delete)
    {P : Nat → Prop} {Q : Node → Prop} (stable : ∀ c, Q c → Q (decreaseIndex c))
    (each : ∀ c, Q c → ∀ store parent r, delete store c parent = some r →
      FreesWithin store r.1 P) {k : Nat} {store store' : Store ν} {cur cur' : Node}
    (items : ∀ c ∈ cur.array, Q c)
    (h : drainItems delete k store cur = some (store', cur')) : FreesWithin store store' P := by
  induction k generalizing store cur with
  | zero => cases h
  | succ k ih =>
    rw [drainItems] at h
    split at h
    · obtain ⟨rfl, -⟩ := Prod.mk.inj (Option.some.inj h)
      exact fun i hi => Or.inl hi
    · rename_i item rest harray
      split at h
      · cases h
      · rename_i store₁ cur₁ tree hcall
        have done := unlinks _ _ _ _ _ _ hcall
        have mem : item ∈ cur.array := by rw [harray]; exact List.mem_cons_self ..
        refine (each item (items item mem) _ _ _ hcall).trans (ih ?_ h)
        rw [done.above, parentAfter]
        split
        · rw [dropItem_first harray]
          intro c hc
          obtain ⟨d, hd, rfl⟩ := List.mem_map.mp hc
          exact stable d (items d (by rw [harray]; exact List.mem_cons_of_mem _ hd))
        · rw [removeScope_array]
          exact items

/-- A call that comes to an end frees only what it gets to. -/
theorem rtDeleteRange_within (deep : Bool) (fuel : Nat) {n : Node} (shaped : Shaped n)
    {store : Store ν} {parent : Node} {r : Store ν × Node × Avl Node}
    (h : rtDeleteRange deep fuel store n parent = some r) :
    FreesWithin store r.1 (Reaches n) := by
  induction fuel generalizing n store parent r with
  | zero => cases h
  | succ fuel ih =>
    have unlinks := rtDeleteRange_unlinks (ν := ν) deep fuel
    rw [rtDeleteRange_succ] at h
    split at h
    · cases h
    · obtain ⟨⟨store₁, cur⟩, drained, rest⟩ := Option.bind_eq_some_iff.mp h
      obtain ⟨same, -⟩ := drainScopes_same unlinks drained
      have scopes : FreesWithin store store₁ (Reaches n) :=
        drainScopes_within unlinks shaped.ordered
          (fun c hc store parent r call i hi =>
            (ih (shaped.scopes c hc) call i hi).imp_right (.scope hc)) drained
      have last : ∀ store₂ : Store ν, FreesWithin store store₂ (Reaches n) →
          r.1.freed = cur.info.ident :: store₂.freed → FreesWithin store r.1 (Reaches n) := by
        intro store₂ within freed i hi
        rw [freed, same.ident] at hi
        rcases List.mem_cons.mp hi with rfl | before
        · exact Or.inr (.here n)
        · exact within i before
      dsimp only at rest
      rw [afterScopes] at rest
      split at rest
      · rename_i array
        have level : n.info.jsl = .array := same.jsl ▸ array.1
        obtain ⟨⟨store₂, cur₂⟩, items, rfl⟩ := Option.map_eq_some_iff.mp rest
        have whole : cur = n := by
          rw [drainScopes, shaped.noScopes level] at drained
          exact (Prod.mk.inj (Option.some.inj drained)).2.symm
        subst whole
        obtain ⟨same', -⟩ := drainItems_same unlinks items
        refine last store₂ (scopes.trans ?_) ?_
        · exact drainItems_within unlinks
            (Q := fun c => Shaped c ∧ ∀ i, Reaches c i → Reaches cur i)
            (fun c hc => ⟨shaped_decreaseIndex hc.1,
              fun i below => hc.2 i (reaches_decreaseIndex below)⟩)
            (fun c hc store parent r call i hi =>
              (ih hc.1 call i hi).imp_right (hc.2 i))
            (fun c hc => ⟨shaped.items c hc, fun i below => .item level hc below⟩) items
        · change cur₂.info.ident :: store₂.freed = _
          rw [same'.ident]
      · split at rest
        · split at rest
          · obtain rfl := Option.some.inj rest
            exact last store₁ scopes rfl
          · cases rest
        · obtain rfl := Option.some.inj rest
          exact last store₁ scopes rfl

end Outcome

section Parent

/-- The parent keeps everything but the node and what is below it. -/
structure Loses (parent n parent' : Node) : Prop where
  info : parent'.info = parent.info
  idents : parent.idents.Perm (n.idents ++ parent'.idents)
  others : ∀ s, parent'.follow s = if s = .scope n.scopeKey then none else parent.follow s

theorem loses_scope {parent n : Node} (ord : Ordered Node.scopeKey parent.nextScope)
    (mem : n ∈ parent.nextScope.toList) (level : ¬ IsItem n) :
    Loses parent n (parentAfter n parent) := by
  rw [parentAfter, if_neg level]
  refine ⟨removeScope_info parent _, ?_, follow_removeScope ord _⟩
  have perm := (perm_avlremove Node.scopeKey ord mem).flatMap_right Node.idents
  rw [List.flatMap_cons] at perm
  rw [idents_eq parent, idents_eq (removeScope parent n.info.scopeName), removeScope_info,
    removeScope_array, removeScope, Node.nextScope_setNextScope]
  refine ((perm.append_right (parent.array.flatMap Node.idents)).cons _).trans ?_
  rw [List.append_assoc]
  exact List.perm_middle.symm

/-- An item is dropped where it stands, and those behind it are renamed. -/
theorem dropItem_split {cur item : Node} {before after : List Node}
    (array : cur.array = before ++ item :: after)
    (apart : ∀ b ∈ before, b.info.ident ≠ item.info.ident) :
    (dropItem cur item).array = before ++ after.map decreaseIndex := by
  have place : cur.array.findIdx (fun n => n.info.ident = item.info.ident) = before.length := by
    rw [array, List.findIdx_append]
    have none : before.findIdx (fun n => n.info.ident = item.info.ident) = before.length := by
      rw [List.findIdx_eq_length]
      intro b hb
      simpa using apart b hb
    simp [none, List.findIdx_cons]
  simp only [dropItem, Node.array_setInfo, Node.array_setArray, place]
  rw [array]
  simp

theorem ident_mem_idents (n : Node) : n.info.ident ∈ n.idents := by
  rw [idents_eq]
  exact List.mem_cons_self ..

/-- The items of an array have different blocks. -/
theorem apart_of_nodup {before after : List Node} {item : Node}
    (nodup : ((before ++ item :: after).flatMap Node.idents).Nodup) :
    ∀ b ∈ before, b.info.ident ≠ item.info.ident := by
  intro b hb same
  rw [List.flatMap_append, List.flatMap_cons, List.nodup_append'] at nodup
  refine nodup.2.2 (List.mem_flatMap.mpr ⟨b, hb, ident_mem_idents b⟩) ?_
  rw [same]
  exact List.mem_append_left _ (ident_mem_idents item)

theorem perm_dropItem {cur item : Node} (mem : item ∈ cur.array)
    (nodup : (cur.array.flatMap Node.idents).Nodup) :
    cur.idents.Perm (item.idents ++ (dropItem cur item).idents) := by
  obtain ⟨before, after, split⟩ := List.append_of_mem mem
  have dropped := dropItem_split split (apart_of_nodup (split ▸ nodup))
  have renamed : (after.map decreaseIndex).flatMap Node.idents = after.flatMap Node.idents := by
    simp [List.flatMap_map]
  have ident : (dropItem cur item).info.ident = cur.info.ident := by simp [dropItem]
  have scopes : (dropItem cur item).nextScope = cur.nextScope := by simp [dropItem]
  rw [idents_eq cur, idents_eq (dropItem cur item), dropped, ident, scopes, split,
    List.flatMap_append, List.flatMap_append, List.flatMap_cons, renamed]
  have swap := List.perm_append_comm_assoc (cur.nextScope.toList.flatMap Node.idents ++
    before.flatMap Node.idents) item.idents (after.flatMap Node.idents)
  refine List.Perm.trans (List.Perm.cons _ ?_) List.perm_middle.symm
  simpa only [List.append_assoc] using swap

end Parent

end DeleteRange
