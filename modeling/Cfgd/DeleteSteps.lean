import Cfgd.RegularTree

/-!
# What a deletion does to the store

A deletion is many calls that each unlink one node. What holds of the stores before and
after each of them, and can be put together, holds of the stores before and after the whole.
-/

namespace DeleteSteps

open AvlTree CText CJson Request ConfigNode FsImage Runtime DeleteRange UpdateCases

variable {ν : Type}

/-- A relation of the store before to the store after that unlinking a node keeps. -/
structure Stepwise (rel : Store ν → Store ν → Prop) : Prop where
  refl : ∀ store, rel store store
  trans : ∀ {store store' store''}, rel store store' → rel store' store'' → rel store store''
  scope : ∀ deep store (n parent : Node), rel store (unlinkScope deep store n parent).1
  array : ∀ deep store (n parent : Node), rel store (unlinkArray deep store n parent).1
  item : ∀ deep store (n parent : Node), rel store (rtDeleteArrayItem deep store n parent).1

variable {rel : Store ν → Store ν → Prop}

/-- Every call of a deletion keeps the relation. -/
def CallsKeep (rel : Store ν → Store ν → Prop) (delete : DeleteCall ν) : Prop :=
  ∀ store n parent store' parent' tree, delete store n parent = some (store', parent', tree) →
    rel store store'

theorem drainScopes_keeps (stepwise : Stepwise rel) {delete : DeleteCall ν}
    (keeps : CallsKeep rel delete) {k : Nat} {store store' : Store ν} {cur cur' : Node}
    (h : drainScopes delete k store cur = some (store', cur')) : rel store store' := by
  induction k generalizing store cur with
  | zero => cases h
  | succ k ih =>
    rw [drainScopes] at h
    split at h
    · obtain ⟨rfl, rfl⟩ := Prod.mk.inj (Option.some.inj h)
      exact stepwise.refl _
    · split at h
      · cases h
      · exact stepwise.trans (keeps _ _ _ _ _ _ ‹_›) (ih h)

theorem drainItems_keeps (stepwise : Stepwise rel) {delete : DeleteCall ν}
    (keeps : CallsKeep rel delete) {k : Nat} {store store' : Store ν} {cur cur' : Node}
    (h : drainItems delete k store cur = some (store', cur')) : rel store store' := by
  induction k generalizing store cur with
  | zero => cases h
  | succ k ih =>
    rw [drainItems] at h
    split at h
    · obtain ⟨rfl, rfl⟩ := Prod.mk.inj (Option.some.inj h)
      exact stepwise.refl _
    · split at h
      · cases h
      · exact stepwise.trans (keeps _ _ _ _ _ _ ‹_›) (ih h)

theorem rtDeleteRange_keeps (stepwise : Stepwise rel) (deep : Bool) (fuel : Nat) :
    CallsKeep rel (rtDeleteRange deep fuel) := by
  induction fuel with
  | zero =>
    intro store n parent store' parent' tree h
    cases h
  | succ fuel ih =>
    intro store n parent store' parent' tree h
    rw [rtDeleteRange_succ] at h
    split at h
    · cases h
    · obtain ⟨⟨store₁, cur⟩, drained, rest⟩ := Option.bind_eq_some_iff.mp h
      have rest : afterScopes deep fuel store₁ cur parent = some (store', parent', tree) := rest
      apply stepwise.trans (drainScopes_keeps stepwise ih drained)
      rw [afterScopes] at rest
      split at rest
      · obtain ⟨⟨store₂, cur₂⟩, drained', same⟩ := Option.map_eq_some_iff.mp rest
        obtain ⟨rfl, _⟩ := Prod.mk.inj same
        exact stepwise.trans (drainItems_keeps stepwise ih drained') (stepwise.array ..)
      · split at rest
        · split at rest
          · obtain ⟨rfl, _⟩ := Prod.mk.inj (Option.some.inj rest)
            exact stepwise.item ..
          · cases rest
        · obtain ⟨rfl, _⟩ := Prod.mk.inj (Option.some.inj rest)
          exact stepwise.scope ..

theorem deleteAllItems_keeps (stepwise : Stepwise rel) {fuel k : Nat} {store store' : Store ν}
    {node node' : Node} (h : deleteAllItems fuel k store node = some (store', node')) :
    rel store store' := by
  induction k generalizing store node with
  | zero => cases h
  | succ k ih =>
    rw [deleteAllItems] at h
    split at h
    · split at h
      · cases h
      · split at h
        · cases h
        · rename_i call
          exact stepwise.trans (rtDeleteRange_keeps stepwise true fuel _ _ _ _ _ _ call) (ih h)
    · obtain ⟨rfl, rfl⟩ := Prod.mk.inj (Option.some.inj h)
      exact stepwise.refl _

/-- The store with which `rt_delete` begins: the slot of an archive is given back first. -/
def beforeDelete (store : Store ν) (n : Node) : Store ν :=
  if n.info.jsl = .archive then { store with fs := fsDeleteFile store.fs n.info.fsSection }
  else store

theorem rtDelete_keeps (stepwise : Stepwise rel) {fuel : Nat} {store : Store ν} {n parent : Node}
    {segm : Segment} {deleted : Deleted ν}
    (h : rtDelete fuel store n parent segm = some deleted) :
    rel (beforeDelete store n) deleted.store := by
  have range := rtDeleteRange_keeps stepwise true fuel
  rw [beforeDelete]
  cases rtDelete_cases h with
  | refused level =>
    rw [if_neg level.2.2]
    exact stepwise.refl _
  | whole level text call =>
    have other : n.info.jsl ≠ .archive := by
      rcases level with level | level | ⟨level, _⟩ <;> simp [level]
    rw [if_neg other]
    exact range _ _ _ _ _ _ call
  | archive level call =>
    rw [if_pos level]
    exact range _ _ _ _ _ _ call
  | item level index found call =>
    rw [if_neg (by simp [level])]
    exact range _ _ _ _ _ _ call
  | entire level index drained call =>
    rw [if_neg (by simp [level])]
    exact stepwise.trans (deleteAllItems_keeps stepwise drained) (range _ _ _ _ _ _ call)

end DeleteSteps
