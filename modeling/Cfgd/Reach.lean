import Cfgd.DeleteRange

/-!
# How far a key leads

`rt_reach_last_match_scope` follows the segments of a key down the tree. `Walks` is
the way it takes, segment by segment; it ends at a node from which the next segment
leads nowhere, or stands for a new item of an array, or for all its items.
-/

namespace Reach

open AvlTree CText CJson Request ConfigNode Loader Runtime DeleteRange

/-- The item that an index leads to in an array of this size. -/
def placeOf (arraysize index : Int) : Option Nat :=
  if 0 ≤ index ∧ index < arraysize then some index.toNat
  else if 0 < arraysize ∧ index = jaSymLast then some (arraysize - 1).toNat
  else none

/-- From a node the segments `passed`, with the levels of the nodes found, lead along the
path to the node `m`, and the segments `left` remain. -/
inductive Walks : Node → List Segment → Path → List Segment → Node → List Segment → Prop where
  | stop (n : Node) (segms : List Segment) : Walks n segms [] [] n segms
  | scope {n c m : Node} {segm : Segment} {rest passed left : List Segment} {path : Path}
      (found : n.follow (.scope (fold segm.name)) = some c) (level : c.info.jsl ≠ .array)
      (level' : segm.jsl ≠ .array) (further : Walks c rest path passed m left) :
      Walks n (segm :: rest) (.scope (fold segm.name) :: path)
        ({ segm with jsl := c.info.jsl } :: passed) m left
  | item {n c e m : Node} {segm : Segment} {rest passed left : List Segment} {path : Path}
      {k : Nat} (found : n.follow (.scope (fold segm.name)) = some c)
      (level : c.info.jsl = .array) (level' : segm.jsl = .array)
      (place : placeOf c.info.arraysize segm.index = some k)
      (entered : c.follow (.item k) = some e) (further : Walks e rest path passed m left) :
      Walks n (segm :: rest) (.scope (fold segm.name) :: .item k :: path) (segm :: passed) m left

theorem getAt_of_walks {n m : Node} {segms passed left : List Segment} {path : Path}
    (walk : Walks n segms path passed m left) : n.getAt path = some m := by
  induction walk with
  | stop n segms => rfl
  | scope found _ _ _ ih => simpa [Node.getAt, found] using ih
  | item found _ _ _ entered _ ih => simpa [Node.getAt, found, entered] using ih

/-- The node under the next name. -/
theorem getAt_member {n m c : Node} {segms passed left : List Segment} {path : Path}
    {segm : Segment} (walk : Walks n segms path passed m left)
    (found : m.follow (.scope (fold segm.name)) = some c) :
    n.getAt (path ++ [.scope (fold segm.name)]) = some c :=
  getAt_snoc (getAt_of_walks walk) found

/-- What remains of a key is its end. -/
theorem suffix_of_walks {n m : Node} {segms passed left : List Segment} {path : Path}
    (walk : Walks n segms path passed m left) : left <:+ segms := by
  induction walk with
  | stop n segms => exact List.suffix_refl segms
  | scope _ _ _ _ ih => exact ih.trans (List.suffix_cons _ _)
  | item _ _ _ _ _ _ ih => exact ih.trans (List.suffix_cons _ _)

/-- The last step of a way that takes all segments: from `c`, which the last one names,
the way may go on to an item. -/
theorem walks_last {n m : Node} {segms passed : List Segment} {path : Path}
    (walk : Walks n segms path passed m []) (started : path ≠ []) :
    ∃ before passed' n' segm c, Walks n segms before passed' n' [segm] ∧
      n'.follow (.scope (fold segm.name)) = some c ∧
      passed.getLast? = some { segm with jsl := c.info.jsl } ∧
      ((path = before ++ [.scope (fold segm.name)] ∧ c.info.jsl ≠ .array ∧ segm.jsl ≠ .array) ∨
        (c.info.jsl = .array ∧ segm.jsl = .array ∧
          ∃ k, placeOf c.info.arraysize segm.index = some k ∧
            path = before ++ [.scope (fold segm.name), .item k])) := by
  generalize empty : ([] : List Segment) = left at walk
  induction walk with
  | stop n segms => exact absurd rfl started
  | @scope n c m segm rest passed left path found level level' further ih =>
    subst empty
    by_cases last : path = []
    · subst last
      cases further
      refine ⟨[], [], n, segm, c, .stop _ _, found, rfl, Or.inl ⟨rfl, level, level'⟩⟩
    · obtain ⟨before, passed', n', segm', c', walk, found', final, where'⟩ := ih last rfl
      refine ⟨_, _, n', segm', c', .scope found level level' walk, found', ?_, ?_⟩
      · rw [List.getLast?_cons, final]
        rfl
      · rcases where' with ⟨rfl, notArray⟩ | ⟨array, array', k, place, rfl⟩
        · exact Or.inl ⟨rfl, notArray⟩
        · exact Or.inr ⟨array, array', k, place, rfl⟩
  | @item n c e m segm rest passed left path k found level level' place entered further ih =>
    subst empty
    by_cases last : path = []
    · subst last
      cases further
      refine ⟨[], [], n, segm, c, .stop _ _, found, ?_, Or.inr ⟨level, level', k, place, rfl⟩⟩
      rw [level, ← level']
      rfl
    · obtain ⟨before, passed', n', segm', c', walk, found', final, where'⟩ := ih last rfl
      refine ⟨_, _, n', segm', c', .item found level level' place entered walk, found', ?_, ?_⟩
      · rw [List.getLast?_cons, final]
        rfl
      · rcases where' with ⟨rfl, notArray⟩ | ⟨array, array', k, place, rfl⟩
        · exact Or.inl ⟨rfl, notArray⟩
        · exact Or.inr ⟨array, array', k, place, rfl⟩

/-- The path without an item at its end. -/
def lastScope (path : Path) : Path :=
  match path.getLast? with
  | some (.item _) => path.dropLast
  | _ => path

/-- What the loop holds as the node and as the previous node after it has come so far. -/
def nodeOf (path : Path) : Option Path := if path = [] then none else some (lastScope path)

def previousOf (path : Path) : Option Path := if path = [] then none else some path

/-- What is handed back, by the way in which the walk ends. -/
inductive ReachedBy (n : Node) (above : Path) (before segms : List Segment) : Reached → Prop where
  | whole {path : Path} {passed : List Segment} {m : Node} (archive : Option Path)
      (walk : Walks n segms path passed m []) :
      ReachedBy n above before segms ⟨(before ++ passed).length, nodeOf (above ++ path),
        previousOf (above ++ path), archive, before ++ passed⟩
  | missing {path : Path} {passed rest : List Segment} {segm : Segment} {m : Node}
      (archive : Option Path) (walk : Walks n segms path passed m (segm :: rest))
      (missing : m.follow (.scope (fold segm.name)) = none) :
      ReachedBy n above before segms ⟨(before ++ passed).length, none, previousOf (above ++ path),
        archive, before ++ passed ++ segm :: rest⟩
  | extend {path : Path} {passed rest : List Segment} {segm : Segment} {m c : Node}
      (archive : Option Path) (walk : Walks n segms path passed m (segm :: rest))
      (found : m.follow (.scope (fold segm.name)) = some c) (level : c.info.jsl = .array)
      (level' : segm.jsl = .array)
      (next : segm.index = c.info.arraysize ∨ segm.index = jaSymAdd) :
      ReachedBy n above before segms ⟨(before ++ passed).length, none,
        some (above ++ path ++ [.scope (fold segm.name)]), archive,
        before ++ passed ++ segm :: rest⟩
  | entire {path : Path} {passed rest : List Segment} {segm : Segment} {m c : Node}
      (archive : Option Path) (walk : Walks n segms path passed m (segm :: rest))
      (found : m.follow (.scope (fold segm.name)) = some c) (level : c.info.jsl = .array)
      (level' : segm.jsl = .array) (filled : c.array ≠ [])
      (entire : segm.index = jaSymEntire) :
      ReachedBy n above before segms ⟨(before ++ passed).length,
        some (above ++ path ++ [.scope (fold segm.name)]),
        some (above ++ path ++ [.scope (fold segm.name)]), archive,
        before ++ passed ++ segm :: rest⟩

theorem nodeOf_scope (above : Path) (key : Bytes) :
    nodeOf (above ++ [.scope key]) = some (above ++ [.scope key]) := by
  simp [nodeOf, lastScope]

theorem nodeOf_item (above : Path) (key : Bytes) (k : Nat) :
    nodeOf (above ++ [.scope key] ++ [.item k]) = some (above ++ [.scope key]) := by
  simp [nodeOf, lastScope]

theorem previousOf_append (above : Path) (s : Step) :
    previousOf (above ++ [s]) = some (above ++ [s]) := by
  simp [previousOf]

/-- A step by name puts one segment in front of the way from the node found. -/
theorem reachedBy_scope {n c : Node} {above : Path} {before rest : List Segment} {segm : Segment}
    {r : Reached} (found : n.follow (.scope (fold segm.name)) = some c)
    (level : c.info.jsl ≠ .array) (level' : segm.jsl ≠ .array)
    (h : ReachedBy c (above ++ [.scope (fold segm.name)])
      (before ++ [{ segm with jsl := c.info.jsl }]) rest r) :
    ReachedBy n above before (segm :: rest) r := by
  cases h with
  | whole archive walk =>
    have longer : ReachedBy n above before (segm :: rest) _ :=
      .whole archive (.scope found level level' walk)
    simpa using longer
  | missing archive walk none =>
    have longer : ReachedBy n above before (segm :: rest) _ :=
      .missing archive (.scope found level level' walk) none
    simpa using longer
  | extend archive walk found' array array' next =>
    have longer : ReachedBy n above before (segm :: rest) _ :=
      .extend archive (.scope found level level' walk) found' array array' next
    simpa using longer
  | entire archive walk found' array array' filled entire =>
    have longer : ReachedBy n above before (segm :: rest) _ :=
      .entire archive (.scope found level level' walk) found' array array' filled entire
    simpa using longer

/-- So does a step to an item of an array. -/
theorem reachedBy_item {n c e : Node} {above : Path} {before rest : List Segment}
    {segm : Segment} {k : Nat} {r : Reached}
    (found : n.follow (.scope (fold segm.name)) = some c) (level : c.info.jsl = .array)
    (level' : segm.jsl = .array) (place : placeOf c.info.arraysize segm.index = some k)
    (entered : c.follow (.item k) = some e)
    (h : ReachedBy e (above ++ [.scope (fold segm.name)] ++ [.item k]) (before ++ [segm]) rest r) :
    ReachedBy n above before (segm :: rest) r := by
  cases h with
  | whole archive walk =>
    have longer : ReachedBy n above before (segm :: rest) _ :=
      .whole archive (.item found level level' place entered walk)
    simpa using longer
  | missing archive walk none =>
    have longer : ReachedBy n above before (segm :: rest) _ :=
      .missing archive (.item found level level' place entered walk) none
    simpa using longer
  | extend archive walk found' array array' next =>
    have longer : ReachedBy n above before (segm :: rest) _ :=
      .extend archive (.item found level level' place entered walk) found' array array' next
    simpa using longer
  | entire archive walk found' array array' filled entire =>
    have longer : ReachedBy n above before (segm :: rest) _ :=
      .entire archive (.item found level level' place entered walk) found' array array' filled
        entire
    simpa using longer

/-- An array of the size that it says has an item at every place that an index leads to. -/
theorem placeOf_entered {c : Node} (size : c.info.arraysize = c.array.length) {index : Int}
    {k : Nat} (place : placeOf c.info.arraysize index = some k) :
    ∃ e, c.follow (.item k) = some e := by
  have inside : k < c.array.length := by
    rw [placeOf] at place
    split at place
    · obtain rfl := Option.some.inj place
      omega
    · split at place
      · obtain rfl := Option.some.inj place
        omega
      · cases place
  exact ⟨_, List.getElem?_eq_getElem inside⟩

/-- One turn of the loop of `rt_reach_last_match_scope`: where it stops, or goes on. -/
inductive ReachTurn (n : Node) (above : Path) (previous archive : Option Path)
    (before : List Segment) (segm : Segment) (rest : List Segment) : Reached → Prop where
  | missing (missing : n.follow (.scope (fold segm.name)) = none) :
      ReachTurn n above previous archive before segm rest
        ⟨before.length, none, previous, archive, before ++ segm :: rest⟩
  | extend {c : Node} (found : n.follow (.scope (fold segm.name)) = some c)
      (level : c.info.jsl = .array) (level' : segm.jsl = .array)
      (next : segm.index = c.info.arraysize ∨ segm.index = jaSymAdd) :
      ReachTurn n above previous archive before segm rest
        ⟨before.length, none, some (above ++ [.scope (fold segm.name)]), archive,
          before ++ segm :: rest⟩
  | entire {c : Node} (found : n.follow (.scope (fold segm.name)) = some c)
      (level : c.info.jsl = .array) (level' : segm.jsl = .array) (filled : c.array ≠ [])
      (entire : segm.index = jaSymEntire) :
      ReachTurn n above previous archive before segm rest
        ⟨before.length, some (above ++ [.scope (fold segm.name)]),
          some (above ++ [.scope (fold segm.name)]), archive, before ++ segm :: rest⟩
  | item {c e : Node} {k : Nat} {r : Reached}
      (found : n.follow (.scope (fold segm.name)) = some c) (level : c.info.jsl = .array)
      (level' : segm.jsl = .array) (place : placeOf c.info.arraysize segm.index = some k)
      (entered : c.follow (.item k) = some e)
      (further : rtReachLoop e.nextScope (above ++ [.scope (fold segm.name)] ++ [.item k])
        (some (above ++ [.scope (fold segm.name)]))
        (some (above ++ [.scope (fold segm.name)] ++ [.item k])) archive (before ++ [segm]) rest =
          some r) : ReachTurn n above previous archive before segm rest r
  | nowhere {c : Node} {k : Nat} {r : Reached}
      (found : n.follow (.scope (fold segm.name)) = some c) (level : c.info.jsl = .array)
      (level' : segm.jsl = .array) (place : placeOf c.info.arraysize segm.index = some k)
      (missing : c.follow (.item k) = none)
      (further : rtReachLoop n.nextScope above (some (above ++ [.scope (fold segm.name)])) none
        archive (before ++ [segm]) rest = some r) :
      ReachTurn n above previous archive before segm rest r
  | scope {c : Node} {r : Reached} (found : n.follow (.scope (fold segm.name)) = some c)
      (level : c.info.jsl ≠ .array) (level' : segm.jsl ≠ .array)
      (further : rtReachLoop c.nextScope (above ++ [.scope (fold segm.name)])
        (some (above ++ [.scope (fold segm.name)])) (some (above ++ [.scope (fold segm.name)]))
        (if c.info.jsl = .archive then some (above ++ [.scope (fold segm.name)]) else archive)
        (before ++ [{ segm with jsl := c.info.jsl }]) rest = some r) :
      ReachTurn n above previous archive before segm rest r

theorem rtReachLoop_turn {n : Node} {above : Path} {node previous archive : Option Path}
    {before rest : List Segment} {segm : Segment} {r : Reached}
    (h : rtReachLoop n.nextScope above node previous archive before (segm :: rest) = some r) :
    ReachTurn n above previous archive before segm rest r := by
  rw [rtReachLoop, searchScope_eq_follow] at h
  cases hc : n.follow (.scope (fold segm.name)) with
  | none =>
    rw [hc] at h
    obtain rfl := Option.some.inj h
    exact .missing hc
  | some c =>
    rw [hc] at h
    dsimp only at h
    by_cases agree : (c.info.jsl = .array ∨ segm.jsl = .array) ∧ c.info.jsl ≠ segm.jsl
    · rw [if_pos agree] at h
      cases h
    · rw [if_neg agree] at h
      by_cases level : c.info.jsl = .array
      · have level' : segm.jsl = .array := by
          by_contra other
          exact agree ⟨Or.inl level, fun same => other (same ▸ level)⟩
        have whole : ({ segm with jsl := c.info.jsl } : Segment) = segm := by
          rw [level, ← level']
        have noFile : c.info.jsl ≠ .archive := by simp [level]
        rw [if_pos level] at h
        simp only [whole, if_neg noFile] at h
        split at h
        · rename_i next
          obtain rfl := Option.some.inj h
          exact .extend hc level level' (Or.inl next.2)
        · split at h
          · split at h
            · rename_i add
              obtain rfl := Option.some.inj h
              exact .extend hc level level' (Or.inr add)
            · cases h
          · rename_i filled
            obtain ⟨positive, nonempty⟩ := not_or.mp filled
            split at h
            · rename_i inside
              have place : placeOf c.info.arraysize segm.index = some segm.index.toNat := by
                rw [placeOf, if_pos inside]
              have seek := rtSeekArrayNode_eq_follow c segm.index.toNat
              rw [Int.toNat_of_nonneg inside.1] at seek
              cases entered : c.follow (.item segm.index.toNat) with
              | none =>
                simp only [seek, entered] at h
                exact .nowhere hc level level' place entered h
              | some e =>
                simp only [seek, entered] at h
                exact .item hc level level' place entered h
            · rename_i outside
              split at h
              · rename_i last
                have place : placeOf c.info.arraysize segm.index =
                    some (c.info.arraysize - 1).toNat := by
                  rw [placeOf, if_neg outside, if_pos ⟨by omega, last⟩]
                have seek := rtSeekArrayNode_eq_follow c (c.info.arraysize - 1).toNat
                rw [Int.toNat_of_nonneg (by omega)] at seek
                cases entered : c.follow (.item (c.info.arraysize - 1).toNat) with
                | none =>
                  simp only [seek, entered] at h
                  exact .nowhere hc level level' place entered h
                | some e =>
                  simp only [seek, entered] at h
                  exact .item hc level level' place entered h
              · split at h
                · cases h
                · split at h
                  · rename_i add
                    obtain rfl := Option.some.inj h
                    exact .extend hc level level' (Or.inr add)
                  · split at h
                    · rename_i entire
                      obtain rfl := Option.some.inj h
                      exact .entire hc level level' nonempty entire
                    · cases h
      · have level' : segm.jsl ≠ .array := by
          intro array
          exact agree ⟨Or.inr array, fun same => level (same.trans array)⟩
        rw [if_neg level] at h
        exact .scope hc level level' h

/-- `rt_reach_last_match_scope` from a node on does what `ReachedBy` says. -/
theorem rtReachLoop_spec {n : Node} (built : Built n) {above : Path} {archive : Option Path}
    {before segms : List Segment} {r : Reached}
    (h : rtReachLoop n.nextScope above (nodeOf above) (previousOf above) archive before segms =
      some r) : ReachedBy n above before segms r := by
  induction segms generalizing n above archive before with
  | nil =>
    rw [rtReachLoop] at h
    obtain rfl := Option.some.inj h
    have whole : ReachedBy n above before [] _ := .whole archive (.stop n [])
    simpa using whole
  | cons segm rest ih =>
    have child : ∀ {c : Node}, n.follow (.scope (fold segm.name)) = some c → Built c :=
      fun found => built.scopes _ (mem_of_avlsearch Node.scopeKey found)
    cases rtReachLoop_turn h with
    | missing none =>
      have missing : ReachedBy n above before (segm :: rest) _ :=
        .missing archive (.stop n (segm :: rest)) none
      simpa using missing
    | extend found level level' next =>
      have extend : ReachedBy n above before (segm :: rest) _ :=
        .extend archive (.stop n (segm :: rest)) found level level' next
      simpa using extend
    | entire found level level' filled entire =>
      have entire : ReachedBy n above before (segm :: rest) _ :=
        .entire archive (.stop n (segm :: rest)) found level level' filled entire
      simpa using entire
    | @item c e k r found level level' place entered further =>
      have below : rtReachLoop e.nextScope (above ++ [.scope (fold segm.name)] ++ [.item k])
          (nodeOf (above ++ [.scope (fold segm.name)] ++ [.item k]))
          (previousOf (above ++ [.scope (fold segm.name)] ++ [.item k])) archive
          (before ++ [segm]) rest = some r := by
        rw [nodeOf_item, previousOf_append]
        exact further
      exact reachedBy_item found level level' place entered
        (ih ((child found).items e (List.mem_of_getElem? entered)) below)
    | nowhere found level level' place none =>
      obtain ⟨e, entered⟩ := placeOf_entered (child found).size place
      rw [none] at entered
      cases entered
    | @scope c r found level level' further =>
      have below : rtReachLoop c.nextScope (above ++ [.scope (fold segm.name)])
          (nodeOf (above ++ [.scope (fold segm.name)]))
          (previousOf (above ++ [.scope (fold segm.name)]))
          (if c.info.jsl = .archive then some (above ++ [.scope (fold segm.name)]) else archive)
          (before ++ [{ segm with jsl := c.info.jsl }]) rest = some r := by
        rw [nodeOf_scope, previousOf_append]
        exact further
      exact reachedBy_scope found level level' (ih (child found) below)

theorem reachedBy_root {root : Avl Node} (built : Built (rootNode root)) {segms : List Segment}
    {r : Reached} (h : rtReachLastMatchScope root segms = some r) :
    ReachedBy (rootNode root) [] [] segms r := rtReachLoop_spec built h

end Reach
