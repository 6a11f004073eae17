import Cfgd.ReadBack

/-!
# The walk to the last scope

`rt_reach_last_scope` is the second walk over the tree, beside `rt_search`. It takes
every segment, and hands back the node of the last one. An index counts for it only
where the node found is an array; `rt_search` turns an index away at anything else.
-/

namespace LastScope

open AvlTree CText CJson Request ConfigNode Runtime DocTree SearchSound PlainDoc DeleteRange
open KeyShape Levels ReadBack

section Model

/-- A node where it hangs, with what hangs to its left and right in the same tree. -/
structure Hung where
  lchild : Avl Node
  node : Node
  rchild : Avl Node

/-- The member `index` of the node. -/
def Hung.index (hung : Hung) : Avl Node := .node hung.lchild hung.node hung.rchild 0

/-- The pointer that `avlsearch` hands back. -/
def hungAt : Avl Node → Bytes → Option Hung
  | .nil, _ => none
  | .node l node r _, key => match compare key node.scopeKey with
    | .lt => hungAt l key
    | .gt => hungAt r key
    | .eq => some ⟨l, node, r⟩

theorem hungAt_node (tree : Avl Node) (key : Bytes) :
    (hungAt tree key).map Hung.node = avlsearch Node.scopeKey tree key := by
  induction tree with
  | nil => rfl
  | node l node r height ihl ihr =>
    rw [hungAt, avlsearch]
    cases compare key node.scopeKey with
    | lt => exact ihl
    | gt => exact ihr
    | eq => rfl

/-- The loop of `rt_reach_last_scope`. An array that was reached without an index is the
end; the items of an array hang in no tree. -/
def rtReachScopeLoop (tree : Avl Node) (node : Option Hung) (reachArrayNode : Bool) :
    List Segment → Int × Option Hung
  | [] => (0, node)
  | segm :: rest =>
    if reachArrayNode then (-1, none)
    else match hungAt tree (fold segm.name) with
      | none => (-1, none)
      | some found =>
        if found.node.info.jsl ≠ .array then
          rtReachScopeLoop found.node.nextScope (some found) false rest
        else if segm.index < 0 then rtReachScopeLoop tree (some found) true rest
        else if found.node.info.arraysize ≤ segm.index then (-1, none)
        else match rtSeekArrayNode found.node segm.index with
          | none => (-1, none)
          | some item => rtReachScopeLoop item.nextScope (some ⟨.nil, item, .nil⟩) false rest

def rtReachLastScope (root : Avl Node) (jrp : Jrp) : Int × Option Hung :=
  rtReachScopeLoop root none false jrp.segm

/-- The node, or the item of an array, at which `rt_search` leaves its loop. -/
def searchEnd (tree : Avl Node) : List Segment → Option Node
  | [] => none
  | segm :: rest =>
    match searchScope tree segm.name with
    | none => none
    | some node => match node.info.jsl with
      | .logicScope => if rest = [] then some node else searchEnd node.nextScope rest
      | .dir => if rest = [] then some node else searchEnd node.nextScope rest
      | .archive => if rest = [] then some node else searchEnd node.nextScope rest
      | .array => match searchItem node segm.index with
        | none => some node
        | some item =>
          if item.info.jsl = .arrayItem ∧ rest ≠ [] then searchEnd item.nextScope rest
          else some item
      | _ => some node

/-- A field, or a value that is an item of an array. -/
def IsLeaf (n : Node) : Prop := n.info.jsl = .field ∨ n.info.jsl = .arrayItemAsField

instance (n : Node) : Decidable (IsLeaf n) := inferInstanceAs (Decidable (_ ∨ _))

def ReachesValue (root : Avl Node) (jrp : Jrp) (v : Bytes) : Prop :=
  ∃ last, rtReachLastScope root jrp = (0, some last) ∧ IsLeaf last.node ∧
    last.node.info.scopeValue = v

def SearchesValue (root : Avl Node) (jrp : Jrp) (v : Bytes) : Prop :=
  rtSearch root jrp = (0, v) ∧ ∃ last, searchEnd root jrp.segm = some last ∧ IsLeaf last

def BothReject (root : Avl Node) (jrp : Jrp) : Prop :=
  (rtReachLastScope root jrp).1 < 0 ∧ (rtSearch root jrp).1 < 0

end Model

section Ways

/-- Where a segment leads: by its name to what is no array, whatever its index is, or by
name and index to an item of an array. -/
inductive Leads (n : Node) (segm : Segment) : Node → Prop where
  | scope {c : Node} (found : n.follow (.scope (fold segm.name)) = some c)
      (level : c.info.jsl ≠ .array) : Leads n segm c
  | item {c e : Node} (found : n.follow (.scope (fold segm.name)) = some c)
      (level : c.info.jsl = .array) (number : 0 ≤ segm.index)
      (entered : c.follow (.item segm.index.toNat) = some e) : Leads n segm e

/-- All segments lead on; the last one may name an array itself. -/
inductive Arrives : Node → List Segment → Node → Prop where
  | here (n : Node) : Arrives n [] n
  | array {n c : Node} {segm : Segment} (found : n.follow (.scope (fold segm.name)) = some c)
      (level : c.info.jsl = .array) (plain : segm.index < 0) : Arrives n [segm] c
  | step {n c m : Node} {segm : Segment} {rest : List Segment} (leads : Leads n segm c)
      (further : Arrives c rest m) : Arrives n (segm :: rest) m

/-- The key comes to an index at something that is no array. -/
inductive Misindexed : Node → List Segment → Prop where
  | here {n c : Node} {segm : Segment} {rest : List Segment}
      (found : n.follow (.scope (fold segm.name)) = some c) (level : c.info.jsl ≠ .array)
      (number : 0 ≤ segm.index) : Misindexed n (segm :: rest)
  | step {n c : Node} {segm : Segment} {rest : List Segment} (leads : Leads n segm c)
      (further : Misindexed c rest) : Misindexed n (segm :: rest)

/-- The key goes on behind a leaf. -/
inductive PastLeaf : Node → List Segment → Prop where
  | here {n : Node} {segms : List Segment} (leaf : IsLeaf n) (more : segms ≠ []) :
      PastLeaf n segms
  | step {n c : Node} {segm : Segment} {rest : List Segment} (leads : Leads n segm c)
      (further : PastLeaf c rest) : PastLeaf n (segm :: rest)

theorem leads_found {n c : Node} {segm : Segment} (leads : Leads n segm c) :
    ∃ f, n.follow (.scope (fold segm.name)) = some f := by
  cases leads with
  | scope found _ => exact ⟨_, found⟩
  | item found _ _ _ => exact ⟨_, found⟩

/-- A segment leads to one place. -/
theorem Leads.unique {n c c' : Node} {segm : Segment} (h : Leads n segm c)
    (h' : Leads n segm c') : c = c' := by
  cases h with
  | scope found level =>
    cases h' with
    | scope found' _ => exact Option.some.inj (found.symm.trans found')
    | item found' level' _ _ =>
      obtain rfl := Option.some.inj (found.symm.trans found')
      exact absurd level' level
  | item found level _ entered =>
    cases h' with
    | scope found' level' =>
      obtain rfl := Option.some.inj (found.symm.trans found')
      exact absurd level level'
    | item found' _ _ entered' =>
      obtain rfl := Option.some.inj (found.symm.trans found')
      exact Option.some.inj (entered.symm.trans entered')

end Ways

section Steps
variable {n c e m : Node} {segm : Segment} {rest : List Segment}

theorem arrives_scope (found : n.follow (.scope (fold segm.name)) = some c)
    (level : c.info.jsl ≠ .array) : Arrives n (segm :: rest) m ↔ Arrives c rest m := by
  constructor
  · intro arrives
    cases arrives with
    | array found' level' _ =>
      obtain rfl := Option.some.inj (found.symm.trans found')
      exact absurd level' level
    | step leads further =>
      obtain rfl := leads.unique (.scope found level)
      exact further
  · exact fun further => .step (.scope found level) further

theorem arrives_item (found : n.follow (.scope (fold segm.name)) = some c)
    (level : c.info.jsl = .array) (number : 0 ≤ segm.index) :
    Arrives n (segm :: rest) m ↔
      ∃ e, c.follow (.item segm.index.toNat) = some e ∧ Arrives e rest m := by
  constructor
  · intro arrives
    cases arrives with
    | array _ _ plain => omega
    | step leads further =>
      cases leads with
      | scope found' level' =>
        obtain rfl := Option.some.inj (found.symm.trans found')
        exact absurd level level'
      | item found' _ _ entered =>
        obtain rfl := Option.some.inj (found.symm.trans found')
        exact ⟨_, entered, further⟩
  · rintro ⟨e, entered, further⟩
    exact .step (.item found level number entered) further

/-- Without an index an array is the end. -/
theorem arrives_array (found : n.follow (.scope (fold segm.name)) = some c)
    (level : c.info.jsl = .array) (plain : segm.index < 0) :
    Arrives n (segm :: rest) m ↔ rest = [] ∧ c = m := by
  constructor
  · intro arrives
    cases arrives with
    | array found' _ _ => exact ⟨rfl, Option.some.inj (found.symm.trans found')⟩
    | step leads further =>
      cases leads with
      | scope found' level' =>
        obtain rfl := Option.some.inj (found.symm.trans found')
        exact absurd level level'
      | item _ _ number _ => omega
  · rintro ⟨rfl, rfl⟩
    exact .array found level plain

theorem arrives_nowhere (missing : n.follow (.scope (fold segm.name)) = none) :
    ¬ Arrives n (segm :: rest) m := by
  intro arrives
  have some : ∃ f, n.follow (.scope (fold segm.name)) = some f := by
    cases arrives with
    | array found _ _ => exact ⟨_, found⟩
    | step leads _ => exact leads_found leads
  rw [missing] at some
  obtain ⟨f, hf⟩ := some
  cases hf

end Steps

section Reach

theorem found_of_hungAt {n : Node} {name : Bytes} {hung : Hung}
    (found : hungAt n.nextScope (fold name) = some hung) :
    n.follow (.scope (fold name)) = some hung.node := by
  have same := hungAt_node n.nextScope (fold name)
  rw [found, Option.map_some] at same
  exact same.symm

/-- The number of an item leads to an item exactly when it is below the size. -/
theorem seek_inside {c e : Node} (built : Built c) {index : Int} (number : 0 ≤ index) :
    (¬ c.info.arraysize ≤ index ∧ rtSeekArrayNode c index = some e) ↔
      c.follow (.item index.toNat) = some e := by
  have size := built.size
  have cast : index = (index.toNat : Int) := by omega
  have seek : rtSeekArrayNode c index = c.follow (.item index.toNat) := by
    conv_lhs => rw [cast]
    exact rtSeekArrayNode_eq_follow c index.toNat
  rw [seek]
  constructor
  · exact fun h => h.2
  · intro entered
    have inside : index.toNat < c.array.length := (List.getElem?_eq_some_iff.mp entered).1
    exact ⟨by omega, entered⟩

/-- From a node on, `rt_reach_last_scope` hands back exactly what the segments arrive at. -/
theorem reach_iff {n : Node} (built : Built n) {node : Option Hung} {segms : List Segment}
    (start : segms ≠ [] ∨ node.map Hung.node = some n) {m : Node} :
    (∃ last, rtReachScopeLoop n.nextScope node false segms = (0, some last) ∧ last.node = m) ↔
      Arrives n segms m := by
  induction segms generalizing n node with
  | nil =>
    obtain ⟨hung, rfl, rfl⟩ := Option.map_eq_some_iff.mp (start.resolve_left (absurd rfl))
    constructor
    · rintro ⟨last, same, rfl⟩
      rw [rtReachScopeLoop] at same
      obtain rfl := Option.some.inj (Prod.mk.inj same).2
      exact .here _
    · intro arrives
      cases arrives
      exact ⟨hung, rfl, rfl⟩
  | cons segm rest ih =>
    rw [rtReachScopeLoop, if_neg Bool.false_ne_true]
    cases hf : hungAt n.nextScope (fold segm.name) with
    | none =>
      have missing : n.follow (.scope (fold segm.name)) = none := by
        have same := hungAt_node n.nextScope (fold segm.name)
        rw [hf] at same
        exact same.symm
      exact iff_of_false (fun ⟨_, same, _⟩ => nomatch same) (arrives_nowhere missing)
    | some hung =>
      have found := found_of_hungAt hf
      have builtC : Built hung.node := built.scopes _ (mem_of_avlsearch Node.scopeKey found)
      dsimp only
      by_cases level : hung.node.info.jsl = .array
      · rw [if_neg (not_not.mpr level)]
        by_cases plain : segm.index < 0
        · rw [if_pos plain, arrives_array found level plain]
          cases rest with
          | nil =>
            rw [rtReachScopeLoop]
            constructor
            · rintro ⟨last, ends, rfl⟩
              obtain rfl := Option.some.inj (Prod.mk.inj ends).2
              exact ⟨rfl, rfl⟩
            · exact fun ends => ⟨hung, rfl, ends.2⟩
          | cons segm' rest =>
            rw [rtReachScopeLoop, if_pos rfl]
            exact iff_of_false (fun ⟨_, same, _⟩ => nomatch same) (fun h => nomatch h.1)
        · have number : 0 ≤ segm.index := by omega
          rw [if_neg plain, arrives_item found level number]
          have inside := fun e => @seek_inside hung.node e builtC segm.index number
          by_cases outside : hung.node.info.arraysize ≤ segm.index
          · rw [if_pos outside]
            refine iff_of_false (fun ⟨_, same, _⟩ => nomatch same) ?_
            rintro ⟨e, entered, _⟩
            exact ((inside e).mpr entered).1 outside
          · rw [if_neg outside]
            cases hs : rtSeekArrayNode hung.node segm.index with
            | none =>
              refine iff_of_false (fun ⟨_, same, _⟩ => nomatch same) ?_
              rintro ⟨e, entered, _⟩
              rw [((inside e).mpr entered).2] at hs
              cases hs
            | some item =>
              have entered := (inside item).mp ⟨outside, hs⟩
              have builtE := builtC.items item (List.mem_of_getElem? entered)
              dsimp only
              rw [ih builtE (Or.inr rfl)]
              constructor
              · exact fun further => ⟨item, entered, further⟩
              · rintro ⟨e, entered', further⟩
                obtain rfl := Option.some.inj (entered.symm.trans entered')
                exact further
      · rw [if_pos level, ih builtC (Or.inr rfl), arrives_scope found level]

end Reach

section Search
variable {n c e : Node} {segm : Segment} {rest : List Segment} {answer : Int × Bytes}
  {ended : Option Node}

/-- What an answer of `rt_search` says about the segments that are left from a node on:
the value of the leaf they arrive at, when no index is misplaced; and never success when
one is, or when the key goes on behind a leaf. -/
structure Searched (n : Node) (segms : List Segment) (answer : Int × Bytes)
    (ended : Option Node) : Prop where
  value : ∀ v m, (answer = (0, v) ∧ ended = some m ∧ IsLeaf m) ↔
    (Arrives n segms m ∧ ¬ Misindexed n segms ∧ IsLeaf m ∧ m.info.scopeValue = v)
  clean : 0 ≤ answer.1 → ¬ Misindexed n segms ∧ ¬ PastLeaf n segms

/-- The search is at a level that has no value, or turns the key away. -/
theorem Searched.of_none {segms : List Segment}
    (none : ∀ m, ended = some m → IsLeaf m → answer.1 < 0)
    (misses : ∀ m, Arrives n segms m → IsLeaf m → Misindexed n segms)
    (clean : 0 ≤ answer.1 → ¬ Misindexed n segms ∧ ¬ PastLeaf n segms) :
    Searched n segms answer ended where
  value := by
    intro v m
    refine iff_of_false ?_ ?_
    · rintro ⟨rfl, ends, leaf⟩
      exact absurd (none m ends leaf) (lt_irrefl 0)
    · rintro ⟨arrives, placed, leaf, _⟩
      exact placed (misses m arrives leaf)
  clean := clean

theorem Searched.rejected {segms : List Segment} (rejects : answer.1 < 0)
    (misses : ∀ m, Arrives n segms m → IsLeaf m → Misindexed n segms) :
    Searched n segms answer ended :=
  .of_none (fun _ _ _ => rejects) misses fun success => absurd rejects (by omega)

theorem not_isLeaf_of_takes {level : Jsl} (takes : TakesMembers level) :
    level ≠ .field ∧ level ≠ .arrayItemAsField ∧ level ≠ .array := by
  rcases takes with rfl | rfl | rfl <;> simp

/-- One segment in front, whose node has no value. -/
theorem Searched.step (inner : Node) (h : Searched inner rest answer ended)
    (notLeaf : ¬ IsLeaf n)
    (arrives : ∀ m, Arrives n (segm :: rest) m ↔ Arrives inner rest m)
    (only : ∀ c, Leads n segm c → c = inner)
    (placed : ∀ c, n.follow (.scope (fold segm.name)) = some c → c.info.jsl ≠ .array →
      segm.index < 0) (leads : Leads n segm inner) :
    Searched n (segm :: rest) answer ended := by
  have misindexed : Misindexed n (segm :: rest) ↔ Misindexed inner rest := by
    constructor
    · intro mis
      cases mis with
      | here found level number =>
        have := placed _ found level
        omega
      | step leads further => exact only _ leads ▸ further
    · exact fun further => .step leads further
  have pastLeaf : PastLeaf n (segm :: rest) ↔ PastLeaf inner rest := by
    constructor
    · intro past
      cases past with
      | here leaf _ => exact absurd leaf notLeaf
      | step leads further => exact only _ leads ▸ further
    · exact fun further => .step leads further
  refine ⟨fun v m => ?_, fun success => ?_⟩
  · rw [h.value, arrives, misindexed]
  · rw [misindexed, pastLeaf]
    exact h.clean success

theorem Searched.scope (h : Searched c rest answer ended) (notLeaf : ¬ IsLeaf n)
    (found : n.follow (.scope (fold segm.name)) = some c) (level : c.info.jsl ≠ .array)
    (plain : segm.index < 0) : Searched n (segm :: rest) answer ended :=
  h.step c notLeaf (fun _ => arrives_scope found level)
    (fun _ leads => leads.unique (.scope found level)) (fun _ _ _ => plain) (.scope found level)

theorem Searched.item (h : Searched e rest answer ended) (notLeaf : ¬ IsLeaf n)
    (found : n.follow (.scope (fold segm.name)) = some c) (level : c.info.jsl = .array)
    (number : 0 ≤ segm.index) (entered : c.follow (.item segm.index.toNat) = some e) :
    Searched n (segm :: rest) answer ended := by
  have leads : Leads n segm e := .item found level number entered
  refine h.step e notLeaf (fun m => ?_) (fun _ other => other.unique leads) ?_ leads
  · rw [arrives_item found level number]
    constructor
    · rintro ⟨e', entered', further⟩
      obtain rfl := Option.some.inj (entered.symm.trans entered')
      exact further
    · exact fun further => ⟨e, entered, further⟩
  · intro c' found' level'
    obtain rfl := Option.some.inj (found.symm.trans found')
    exact absurd level level'

/-- Nothing has a name below a level that takes no members. -/
theorem closed_follow (leveled : Leveled n) (closed : ¬ TakesMembers n.info.jsl) (key : Bytes) :
    n.follow (.scope key) = none := by
  cases found : n.follow (.scope key) with
  | none => rfl
  | some c => exact absurd (leveled.found found).1 closed

theorem closed_ways (leveled : Leveled n) (closed : ¬ TakesMembers n.info.jsl) :
    (∀ m, Arrives n rest m → rest = [] ∧ n = m) ∧ ¬ Misindexed n rest ∧
      (PastLeaf n rest → IsLeaf n ∧ rest ≠ []) := by
  have missing := closed_follow leveled closed
  have blocked : ∀ {segm c}, ¬ Leads n segm c := by
    intro segm c leads
    obtain ⟨f, found⟩ := leads_found leads
    rw [missing] at found
    cases found
  refine ⟨fun m arrives => ?_, fun mis => ?_, fun past => ?_⟩
  · cases arrives with
    | here => exact ⟨rfl, rfl⟩
    | array found _ _ =>
      rw [missing] at found
      cases found
    | step leads _ => exact absurd leads blocked
  · cases mis with
    | here found _ _ =>
      rw [missing] at found
      cases found
    | step leads _ => exact blocked leads
  · cases past with
    | here leaf more => exact ⟨leaf, more⟩
    | step leads _ => exact absurd leads blocked

/-- The search at the end of the key, at a level without names below. -/
theorem Searched.closed_end (leveled : Leveled n) (closed : ¬ TakesMembers n.info.jsl)
    (leaf : IsLeaf n) : Searched n [] (0, n.info.scopeValue) (some n) where
  value := by
    intro v m
    constructor
    · rintro ⟨same, ends, _⟩
      obtain rfl := Option.some.inj ends
      exact ⟨.here n, (closed_ways leveled closed).2.1, leaf, (Prod.mk.inj same).2⟩
    · rintro ⟨arrives, _, _, rfl⟩
      obtain ⟨_, rfl⟩ := (closed_ways leveled closed).1 m arrives
      exact ⟨rfl, rfl, leaf⟩
  clean := by
    intro _
    refine ⟨(closed_ways leveled closed).2.1, fun past => ?_⟩
    exact ((closed_ways leveled closed).2.2 past).2 rfl

end Search

section Below
variable {n c e : Node} {segm : Segment} {rest : List Segment}

/-- No segment carries one of the symbols. -/
def Numeric (segms : List Segment) : Prop := ∀ segm ∈ segms, segm.index < maxArySize

theorem number_of_fits {index : Int} (fits : IndexFits index) (small : index < maxArySize) :
    0 ≤ index ∧ index < jaSymLast := by
  have symbols : maxArySize < jaSymLast ∧ maxArySize < jaSymQuerySize ∧ maxArySize < jaSymAdd ∧
      maxArySize < jaSymEntire := by decide
  rcases fits with inside | rfl | rfl | rfl | rfl <;> omega

theorem searched_missing (missing : n.follow (.scope (fold segm.name)) = none) (retval : Int)
    (dupvalue : Bytes) : Searched n (segm :: rest)
      (rtSearchLoop retval n.nextScope dupvalue (segm :: rest))
      (searchEnd n.nextScope (segm :: rest)) := by
  refine .rejected ?_ fun m arrives => absurd arrives (arrives_nowhere missing)
  have minus : (-1 : Int) < 0 := by decide
  rw [rtSearchLoop, searchScope_eq_follow, missing]
  exact minus

/-- An index at a scope or a field. -/
theorem searched_misplaced (found : n.follow (.scope (fold segm.name)) = some c)
    (level : c.info.jsl = .logicScope ∨ c.info.jsl = .field) (array : segm.jsl = .array)
    (number : 0 ≤ segm.index) (retval : Int) (dupvalue : Bytes) : Searched n (segm :: rest)
      (rtSearchLoop retval n.nextScope dupvalue (segm :: rest))
      (searchEnd n.nextScope (segm :: rest)) := by
  have level' : c.info.jsl ≠ .array := by
    rcases level with level | level <;> rw [level] <;> exact nofun
  refine .rejected ?_ fun _ _ _ => .here found level' number
  rw [rtSearchLoop, searchScope_eq_follow, found]
  rcases level with level | level
  · simp [level, array]
  · simp [level, array]

/-- An array without an index in the key. -/
theorem searched_bareArray (found : n.follow (.scope (fold segm.name)) = some c)
    (level : c.info.jsl = .array) (other : segm.jsl ≠ .array) (plain : segm.index < 0)
    (retval : Int) (dupvalue : Bytes) : Searched n (segm :: rest)
      (rtSearchLoop retval n.nextScope dupvalue (segm :: rest))
      (searchEnd n.nextScope (segm :: rest)) := by
  refine .rejected ?_ fun m arrives leaf => ?_
  · rw [rtSearchLoop, searchScope_eq_follow, found]
    simp [level, other]
  · obtain ⟨_, rfl⟩ := (arrives_array found level plain).mp arrives
    rcases leaf with h | h <;> rw [level] at h <;> cases h

/-- The answer at an array with an index in the key. -/
theorem search_outside (found : n.follow (.scope (fold segm.name)) = some c)
    (level : c.info.jsl = .array) (number : 0 ≤ segm.index) (small : segm.index < jaSymLast)
    (outside : c.follow (.item segm.index.toNat) = none) (retval : Int) (dupvalue : Bytes) :
    (rtSearchLoop retval n.nextScope dupvalue (segm :: rest)).1 < 0 := by
  have symbols : jaSymLast < jaSymQuerySize ∧ jaSymLast < jaSymAdd ∧
      jaSymLast < jaSymEntire := by decide
  have notSize : segm.index ≠ jaSymQuerySize := by omega
  have notAdd : ¬ (segm.index = jaSymAdd ∨ segm.index = jaSymEntire) := by omega
  have notLast : segm.index ≠ jaSymLast := by omega
  have none : searchItem c segm.index = none := by
    rw [searchItem, if_neg notLast]
    split
    · rw [rtSeekArrayNode, if_neg (by omega)]
      exact outside
    · rfl
  have minus : (-1 : Int) < 0 := by decide
  rw [rtSearchLoop, searchScope_eq_follow, found]
  simp only [level, if_neg notSize, if_neg notAdd, none]
  split
  · exact minus
  · exact minus

theorem search_inside (built : Built c) (found : n.follow (.scope (fold segm.name)) = some c)
    (level : c.info.jsl = .array) (array : segm.jsl = .array) (number : 0 ≤ segm.index)
    (room : c.info.arraysize < jaSymLast)
    (entered : c.follow (.item segm.index.toNat) = some e) (retval : Int) (dupvalue : Bytes) :
    (rtSearchLoop retval n.nextScope dupvalue (segm :: rest) = match e.info.jsl with
      | .arrayItem => rtSearchLoop (-1) e.nextScope dupvalue rest
      | .arrayItemAsField => (if rest = [] then 0 else -1, e.info.scopeValue)
      | _ => (0, dupvalue)) ∧
    searchEnd n.nextScope (segm :: rest) =
      if e.info.jsl = .arrayItem ∧ rest ≠ [] then searchEnd e.nextScope rest else some e := by
  have size := built.size
  have inside : segm.index.toNat < c.array.length := (List.getElem?_eq_some_iff.mp entered).1
  have place : Reach.placeOf c.info.arraysize segm.index = some segm.index.toNat := by
    rw [Reach.placeOf, if_pos (by omega)]
  refine ⟨rtSearchLoop_enter found level array place room entered retval dupvalue, ?_⟩
  rw [searchEnd, searchScope_eq_follow, found]
  simp only [level]
  rw [searchItem_of_place place room, entered]

/-- At an array, with an index in the key; `inner` is what happens at an object item. -/
theorem searched_array (built : Built n) (leveled : Leveled n) (opens : TakesMembers n.info.jsl)
    (found : n.follow (.scope (fold segm.name)) = some c) (level : c.info.jsl = .array)
    (array : segm.jsl = .array) (number : 0 ≤ segm.index) (small : segm.index < jaSymLast)
    (inner : ∀ e ∈ c.array, e.info.jsl = .arrayItem → rest ≠ [] → ∀ retval dupvalue,
      Searched e rest (rtSearchLoop retval e.nextScope dupvalue rest)
        (searchEnd e.nextScope rest)) (retval : Int) (dupvalue : Bytes) :
    Searched n (segm :: rest) (rtSearchLoop retval n.nextScope dupvalue (segm :: rest))
      (searchEnd n.nextScope (segm :: rest)) := by
  obtain ⟨notField, notValue, _⟩ := not_isLeaf_of_takes opens
  have notLeaf : ¬ IsLeaf n := not_or.mpr ⟨notField, notValue⟩
  have builtC := built.scopes c (mem_of_avlsearch Node.scopeKey found)
  have leveledC := (leveled.found found).2.2
  cases entered : c.follow (.item segm.index.toNat) with
  | none =>
    refine .rejected (search_outside found level number small entered retval dupvalue) ?_
    intro m arrives
    obtain ⟨e, entered', _⟩ := (arrives_item found level number).mp arrives
    rw [entered] at entered'
    cases entered'
  | some e =>
    obtain ⟨answer, ends⟩ := @search_inside n c e segm rest builtC found level array number
      leveledC.room entered retval dupvalue
    have mem : e ∈ c.array := List.mem_of_getElem? entered
    have leveledE := leveledC.items e mem
    rw [answer, ends]
    rcases leveledC.elements e mem with (object | value) | odd
    · simp only [object]
      by_cases last : rest = []
      · subst last
        refine .rejected (by simp [rtSearchLoop]) fun m arrives leaf => ?_
        obtain ⟨e', entered', arrives⟩ := (arrives_item found level number).mp arrives
        obtain rfl := Option.some.inj (entered.symm.trans entered')
        cases arrives
        rcases leaf with h | h <;> rw [object] at h <;> cases h
      · rw [if_pos ⟨trivial, last⟩]
        exact (inner e mem object last _ _).item notLeaf found level number entered
    · have closed : ¬ TakesMembers e.info.jsl := value ▸ closed_levels.2.2
      simp only [value]
      by_cases last : rest = []
      · subst last
        have ended := Searched.closed_end leveledE closed (Or.inr value)
        simpa using ended.item notLeaf found level number entered
      · refine .rejected (by simp [last]) fun m arrives => ?_
        obtain ⟨e', entered', arrives⟩ := (arrives_item found level number).mp arrives
        obtain rfl := Option.some.inj (entered.symm.trans entered')
        exact absurd ((closed_ways leveledE closed).1 m arrives).1 last
    · have closed : ¬ TakesMembers e.info.jsl := odd ▸ closed_levels.1
      have dull : ¬ IsLeaf e := by
        rintro (h | h) <;> rw [odd] at h <;> cases h
      simp only [odd]
      have ended : Searched e rest (0, dupvalue) (some e) := by
        refine .of_none (fun m ends leaf => ?_) (fun m arrives leaf => ?_) fun _ => ?_
        · obtain rfl := Option.some.inj ends
          exact absurd leaf dull
        · obtain ⟨_, rfl⟩ := (closed_ways leveledE closed).1 m arrives
          exact absurd leaf dull
        · obtain ⟨_, placed, past⟩ := @closed_ways e rest leveledE closed
          exact ⟨placed, fun h => dull (past h).1⟩
      simpa using ended.item notLeaf found level number entered

/-- `rt_search` below an archive. -/
theorem searched_below {segms : List Segment} (below : Below segms) (numeric : Numeric segms)
    (built : Built n) (leveled : Leveled n) (opens : TakesMembers n.info.jsl) (retval : Int)
    (dupvalue : Bytes) : Searched n segms (rtSearchLoop retval n.nextScope dupvalue segms)
      (searchEnd n.nextScope segms) := by
  induction below generalizing n retval dupvalue with
  | @field name fits =>
    obtain ⟨notField, notValue, _⟩ := not_isLeaf_of_takes opens
    have plain : (-1 : Int) < 0 := by decide
    cases found : n.follow (.scope (fold name)) with
    | none => exact searched_missing found retval dupvalue
    | some c =>
      obtain ⟨_, member, leveledC⟩ := leveled.found found
      rcases member with scope | field | array
      · refine .rejected ?_ fun m arrives leaf => ?_
        · rw [rtSearchLoop, searchScope_eq_follow, found]
          simp [scope]
        · rw [arrives_scope found (by simp [scope])] at arrives
          cases arrives
          rcases leaf with h | h <;> rw [scope] at h <;> cases h
      · have closed : ¬ TakesMembers c.info.jsl := field ▸ closed_levels.2.1
        have ended := Searched.closed_end leveledC closed (Or.inl field)
        have level : c.info.jsl ≠ .array := by simp [field]
        have here : Searched n [⟨name, -1, .field⟩] _ _ :=
          ended.scope (not_or.mpr ⟨notField, notValue⟩) found level plain
        rw [rtSearchLoop, searchEnd, searchScope_eq_follow, found]
        simpa [field] using here
      · exact searched_bareArray found array (fun h => Jsl.noConfusion h) plain retval dupvalue
  | @scope name rest fits below ih =>
    obtain ⟨notField, notValue, _⟩ := not_isLeaf_of_takes opens
    have plain : (-1 : Int) < 0 := by decide
    cases found : n.follow (.scope (fold name)) with
    | none => exact searched_missing found retval dupvalue
    | some c =>
      obtain ⟨_, member, leveledC⟩ := leveled.found found
      rcases member with scope | field | array
      · have builtC := built.scopes c (mem_of_avlsearch Node.scopeKey found)
        have further := ih (fun segm mem => numeric segm (List.mem_cons_of_mem _ mem)) builtC
          leveledC (Or.inr (Or.inl scope)) 0 dupvalue
        have level : c.info.jsl ≠ .array := by simp [scope]
        have here : Searched n (⟨name, -1, .logicScope⟩ :: rest) _ _ :=
          further.scope (not_or.mpr ⟨notField, notValue⟩) found level plain
        rw [rtSearchLoop, searchEnd, searchScope_eq_follow, found]
        simpa [scope, below.ne_nil] using here
      · refine .rejected ?_ fun m arrives leaf => ?_
        · rw [rtSearchLoop, searchScope_eq_follow, found]
          simp [field]
        · rw [arrives_scope found (by simp [field])] at arrives
          have closed : ¬ TakesMembers c.info.jsl := field ▸ closed_levels.2.1
          exact absurd ((closed_ways leveledC closed).1 m arrives).1 below.ne_nil
      · exact searched_bareArray found array (fun h => Jsl.noConfusion h) plain retval dupvalue
  | @array name index fits range =>
    obtain ⟨number, small⟩ := number_of_fits range (numeric _ (List.mem_cons_self ..))
    cases found : n.follow (.scope (fold name)) with
    | none => exact searched_missing found retval dupvalue
    | some c =>
      obtain ⟨_, member, _⟩ := leveled.found found
      rcases member with scope | field | array
      · exact searched_misplaced found (Or.inl scope) rfl number retval dupvalue
      · exact searched_misplaced found (Or.inr field) rfl number retval dupvalue
      · exact searched_array built leveled opens found array rfl number small
          (fun _ _ _ more => absurd rfl more) retval dupvalue
  | @item name index rest fits range single below ih =>
    obtain ⟨number, small⟩ := number_of_fits range (numeric _ (List.mem_cons_self ..))
    cases found : n.follow (.scope (fold name)) with
    | none => exact searched_missing found retval dupvalue
    | some c =>
      obtain ⟨_, member, leveledC⟩ := leveled.found found
      rcases member with scope | field | array
      · exact searched_misplaced found (Or.inl scope) rfl number retval dupvalue
      · exact searched_misplaced found (Or.inr field) rfl number retval dupvalue
      · have builtC := built.scopes c (mem_of_avlsearch Node.scopeKey found)
        refine searched_array built leveled opens found array rfl number small ?_ retval dupvalue
        intro e mem object _
        exact ih (fun segm mem => numeric segm (List.mem_cons_of_mem _ mem)) (builtC.items e mem)
          (leveledC.items e mem) (Or.inr (Or.inr object))

end Below

section Roots
variable {root : Avl Node} {segms : List Segment} {m : Node}

theorem leveled_getAt {n : Node} (leveled : Leveled n) {path : Path}
    (there : n.getAt path = some m) : Leveled m := by
  induction path generalizing n with
  | nil =>
    obtain rfl := Option.some.inj there
    exact leveled
  | cons s path ih =>
    rw [Node.getAt] at there
    obtain ⟨c, hc, below⟩ := Option.bind_eq_some_iff.mp there
    cases s with
    | scope key => exact ih (leveled.found hc).2.2 below
    | item i => exact ih (leveled.items c (List.mem_of_getElem? hc)) below

/-- A directory, or the root; or something at or below an archive. -/
theorem tree_getAt (wf : WellFormedTree root) {path : Path}
    (there : (rootNode root).getAt path = some m) : m.info.jsl = .dir ∨ Leveled m := by
  cases path with
  | nil =>
    obtain rfl := Option.some.inj there
    exact Or.inl rfl
  | cons s path =>
    rw [Node.getAt] at there
    obtain ⟨dir, hdir, below⟩ := Option.bind_eq_some_iff.mp there
    cases s with
    | item i => cases hdir
    | scope key =>
      have mem := mem_of_avlsearch Node.scopeKey hdir
      have builtDir := wf.built.scopes dir mem
      obtain ⟨level, archives⟩ := wf.dirs dir mem
      cases path with
      | nil =>
        obtain rfl := Option.some.inj below
        exact Or.inl level
      | cons s path =>
        rw [Node.getAt] at below
        obtain ⟨archive, harchive, inside⟩ := Option.bind_eq_some_iff.mp below
        cases s with
        | item i =>
          have none := builtDir.noItems (by simp [level])
          rw [Node.follow, none] at harchive
          cases harchive
        | scope key' =>
          have leveled := (archives archive (mem_of_avlsearch Node.scopeKey harchive)).2
          exact Or.inr (leveled_getAt leveled inside)

theorem leaf_closed {level : Jsl} (leaf : level = .field ∨ level = .arrayItemAsField) :
    ¬ TakesMembers level := by
  rcases leaf with rfl | rfl
  · exact closed_levels.2.1
  · exact closed_levels.2.2

theorem getAt_of_leads {n c : Node} {segm : Segment} (leads : Leads n segm c) :
    ∃ path, n.getAt path = some c := by
  cases leads with
  | scope found _ => exact ⟨[.scope (fold segm.name)], by rw [Node.getAt, found]; rfl⟩
  | @item a _ found _ _ entered =>
    refine ⟨[.scope (fold segm.name), .item segm.index.toNat], ?_⟩
    rw [Node.getAt, found, Option.bind_some, Node.getAt, entered]
    rfl

/-- A key that goes on behind a leaf arrives nowhere. -/
theorem not_arrives_of_pastLeaf {n : Node} (past : PastLeaf n segms)
    (levels : ∀ path m, n.getAt path = some m → m.info.jsl = .dir ∨ Leveled m) :
    ¬ Arrives n segms m := by
  induction past with
  | @here n segms leaf more =>
    intro arrives
    have leveled : Leveled n := by
      rcases levels [] n rfl with dir | leveled
      · rcases leaf with h | h <;> rw [dir] at h <;> cases h
      · exact leveled
    exact more ((closed_ways leveled (leaf_closed leaf)).1 m arrives).1
  | @step n c segm rest leads further ih =>
    intro arrives
    have below : ∀ path m, c.getAt path = some m → m.info.jsl = .dir ∨ Leveled m := by
      intro path m there
      obtain ⟨before, hc⟩ := getAt_of_leads leads
      refine levels (before ++ path) m ?_
      rw [getAt_append, hc]
      exact there
    cases arrives with
    | array found level plain =>
      cases leads with
      | scope found' level' =>
        obtain rfl := Option.some.inj (found.symm.trans found')
        exact level' level
      | item _ _ number _ => omega
    | step leads' further' =>
      obtain rfl := leads'.unique leads
      exact ih below further'

/-- The end of a key at a directory or an archive. -/
theorem Searched.end_plain {n : Node} {answer : Int × Bytes} (notLeaf : ¬ IsLeaf n) :
    Searched n [] answer (some n) := by
  refine .of_none (fun m ends leaf => ?_) (fun m arrives leaf => ?_) fun _ => ⟨nofun, ?_⟩
  · obtain rfl := Option.some.inj ends
    exact absurd leaf notLeaf
  · cases arrives
    exact absurd leaf notLeaf
  · intro past
    cases past with
    | here leaf _ => exact notLeaf leaf

/-- `rt_search` on an accepted key without symbols. -/
theorem searched_root (wf : WellFormedTree root) (accepted : AcceptedKey segms)
    (numeric : Numeric segms) (retval : Int) (dupvalue : Bytes) :
    Searched (rootNode root) segms (rtSearchLoop retval (rootNode root).nextScope dupvalue segms)
      (searchEnd (rootNode root).nextScope segms) := by
  have dull : ∀ {n : Node}, n.info.jsl = .dir ∨ n.info.jsl = .archive → ¬ IsLeaf n := by
    rintro n (level | level) (leaf | leaf) <;> rw [level] at leaf <;> cases leaf
  have rootDull : ¬ IsLeaf (rootNode root) := dull (Or.inl rfl)
  have plain : (-1 : Int) < 0 := by decide
  obtain ⟨dir, rest, rfl, tail⟩ : ∃ dir rest, segms = ⟨dir, -1, .dir⟩ :: rest ∧ (rest = [] ∨
      ∃ archive rest', rest = ⟨archive, -1, .archive⟩ :: rest' ∧ (rest' = [] ∨ Below rest')) := by
    cases accepted with
    | dir _ => exact ⟨_, _, rfl, Or.inl rfl⟩
    | archive _ _ => exact ⟨_, _, rfl, Or.inr ⟨_, _, rfl, Or.inl rfl⟩⟩
    | below _ _ below => exact ⟨_, _, rfl, Or.inr ⟨_, _, rfl, Or.inr below⟩⟩
  cases found : (rootNode root).follow (.scope (fold dir)) with
  | none => exact searched_missing found retval dupvalue
  | some d =>
    have mem : d ∈ root.toList := mem_of_avlsearch Node.scopeKey found
    obtain ⟨level, archives⟩ := wf.dirs d mem
    have level' : d.info.jsl ≠ .array := by simp [level]
    rcases tail with rfl | ⟨archive, rest', rfl, tail⟩
    · have ended : Searched d [] (0, d.info.scopeValue) (some d) := .end_plain (dull (Or.inl level))
      have here : Searched (rootNode root) [⟨dir, -1, .dir⟩] _ _ :=
        ended.scope rootDull found level' plain
      rw [rtSearchLoop, searchEnd, searchScope_eq_follow, found]
      simpa [level] using here
    · have inner : Searched d (⟨archive, -1, .archive⟩ :: rest')
          (rtSearchLoop 0 d.nextScope dupvalue (⟨archive, -1, .archive⟩ :: rest'))
          (searchEnd d.nextScope (⟨archive, -1, .archive⟩ :: rest')) := by
        cases found' : d.follow (.scope (fold archive)) with
        | none => exact searched_missing found' 0 dupvalue
        | some a =>
          have mem' := mem_of_avlsearch Node.scopeKey found'
          obtain ⟨levelA, leveled⟩ := archives a mem'
          have notArray : a.info.jsl ≠ .array := by simp [levelA]
          rcases tail with rfl | below
          · have ended : Searched a [] (0, a.info.scopeValue) (some a) :=
              .end_plain (dull (Or.inr levelA))
            have here : Searched d [⟨archive, -1, .archive⟩] _ _ :=
              ended.scope (dull (Or.inl level)) found' notArray plain
            rw [rtSearchLoop, searchEnd, searchScope_eq_follow, found']
            simpa [levelA] using here
          · have builtA := (wf.built.scopes d mem).scopes a mem'
            have numeric' : Numeric rest' := fun segm h =>
              numeric segm (List.mem_cons_of_mem _ (List.mem_cons_of_mem _ h))
            have inner := searched_below below numeric' builtA leveled (Or.inl levelA) 0 dupvalue
            have here : Searched d (⟨archive, -1, .archive⟩ :: rest') _ _ :=
              inner.scope (dull (Or.inl level)) found' notArray plain
            rw [rtSearchLoop, searchEnd, searchScope_eq_follow, found']
            simpa [levelA, below.ne_nil] using here
      have here : Searched (rootNode root) (⟨dir, -1, .dir⟩ :: _) _ _ :=
        inner.scope rootDull found level' plain
      rw [rtSearchLoop, searchEnd, searchScope_eq_follow, found]
      simpa [level] using here

end Roots

section Agreement
variable {root : Avl Node} {jrp : Jrp}

/-- The two walks over a key: the same values, and no value for a key with a misplaced
index or one that goes on behind a leaf. -/
def WalksAgree (root : Avl Node) (jrp : Jrp) : Prop :=
  (∀ v, ReachesValue root jrp v ↔ SearchesValue root jrp v) ∧
    (Misindexed (rootNode root) jrp.segm → BothReject root jrp) ∧
    (PastLeaf (rootNode root) jrp.segm → BothReject root jrp)

/-- The walk fails, or it hands back a node. -/
theorem reach_cases {tree : Avl Node} {node : Option Hung} {flag : Bool} {segms : List Segment}
    (start : segms ≠ [] ∨ node ≠ none) : (rtReachScopeLoop tree node flag segms).1 < 0 ∨
      ∃ last, rtReachScopeLoop tree node flag segms = (0, some last) := by
  induction segms generalizing tree node flag with
  | nil =>
    obtain ⟨last, rfl⟩ := Option.ne_none_iff_exists'.mp (start.resolve_left (absurd rfl))
    exact Or.inr ⟨last, rfl⟩
  | cons segm rest ih =>
    have minus : (-1 : Int) < 0 := by decide
    rw [rtReachScopeLoop]
    split
    · exact Or.inl minus
    · split
      · exact Or.inl minus
      · split
        · exact ih (Or.inr nofun)
        · split
          · exact ih (Or.inr nofun)
          · split
            · exact Or.inl minus
            · split
              · exact Or.inl minus
              · exact ih (Or.inr nofun)

theorem reach_rejects (wf : WellFormedTree root) (some_segm : jrp.segm ≠ [])
    (misses : ∀ m, ¬ Arrives (rootNode root) jrp.segm m) : (rtReachLastScope root jrp).1 < 0 := by
  rcases reach_cases (Or.inl some_segm) with fails | ⟨last, ends⟩
  · exact fails
  · exact absurd ((reach_iff wf.built (Or.inl some_segm)).mp ⟨last, ends, rfl⟩) (misses _)

/-- The walks agree on a key exactly when it does not arrive anywhere by leaving out an
index at something that is no array. -/
theorem walksAgree_iff (wf : WellFormedTree root) {payload : Bytes}
    (accepted : rtCreateJrp payload = some jrp) (numeric : Numeric jrp.segm) :
    WalksAgree root jrp ↔
      ¬ (Misindexed (rootNode root) jrp.segm ∧ ∃ m, Arrives (rootNode root) jrp.segm m) := by
  have key := (acceptedKey_of_rtCreateJrp accepted).1
  have reach := fun m => @reach_iff (rootNode root) wf.built none jrp.segm (Or.inl key.ne_nil) m
  have searched := searched_root wf key numeric 0 jrp.dupvalue
  have searchRejects : Misindexed (rootNode root) jrp.segm ∨ PastLeaf (rootNode root) jrp.segm →
      (rtSearch root jrp).1 < 0 := by
    intro bad
    by_contra success
    obtain ⟨placed, before⟩ := searched.clean (not_lt.mp success)
    exact bad.elim placed before
  constructor
  · rintro ⟨_, rejects, _⟩ ⟨misplaced, m, arrives⟩
    obtain ⟨last, ends, _⟩ := (reach m).mpr arrives
    have answer : rtReachLastScope root jrp = (0, some last) := ends
    have negative := (rejects misplaced).1
    rw [answer] at negative
    exact absurd negative (lt_irrefl 0)
  · intro placed
    refine ⟨fun v => ?_, fun misplaced => ?_, fun past => ?_⟩
    · constructor
      · rintro ⟨last, ends, leaf, rfl⟩
        have arrives := (reach last.node).mp ⟨last, ends, rfl⟩
        have straight : ¬ Misindexed (rootNode root) jrp.segm := fun h => placed ⟨h, _, arrives⟩
        obtain ⟨answer, stands, _⟩ :=
          (searched.value _ _).mpr ⟨arrives, straight, leaf, rfl⟩
        exact ⟨answer, last.node, stands, leaf⟩
      · rintro ⟨answer, m, stands, leaf⟩
        obtain ⟨arrives, _, _, rfl⟩ := (searched.value v m).mp ⟨answer, stands, leaf⟩
        obtain ⟨last, ends, rfl⟩ := (reach m).mpr arrives
        exact ⟨last, ends, leaf, rfl⟩
    · have misses := fun m arrives => placed ⟨misplaced, m, arrives⟩
      exact ⟨reach_rejects wf key.ne_nil misses, searchRejects (Or.inl misplaced)⟩
    · have misses := fun m => @not_arrives_of_pastLeaf jrp.segm m (rootNode root) past
        fun _ _ there => tree_getAt wf there
      exact ⟨reach_rejects wf key.ne_nil misses, searchRejects (Or.inr past)⟩

end Agreement

section FieldItem

/-- `{"f":"v"}` -/
def fieldDocument : Item Nat :=
  .mk 1 none .cjsonObject
    [.mk 2 (some (ofChars ['f'])) (.cjsonString (ofChars ['v'])) []]

/-- The archive d.a with this document. -/
def fieldRoot : Avl Node := loadedRoot (oneArchive fieldDocument)

theorem fieldRoot_wellFormed : WellFormedTree fieldRoot := by
  have shape : Producible fieldDocument := by
    refine .object (by simp) fun c hc => ?_
    obtain rfl := List.mem_singleton.mp hc
    exact .leaf (by decide) (by decide)
  have each : ∀ P : Item Nat → Prop, P fieldDocument →
      ∀ dir ∈ oneArchive fieldDocument, ∀ image ∈ dir.archives, P image.document := by
    intro P h dir hdir image himage
    obtain rfl := List.mem_singleton.mp hdir
    obtain rfl := List.mem_singleton.mp himage
    exact h
  refine wellFormedTree_loaded (oneArchive_loaded shape rfl)
    (each (fun document => document.kind = .cjsonObject) rfl) (each Countable ?_)
  have items : fieldDocument.items = [fieldDocument,
      .mk 2 (some (ofChars ['f'])) (.cjsonString (ofChars ['v'])) []] := rfl
  intro j hj
  rw [items] at hj
  rcases List.mem_cons.mp hj with rfl | hj
  · exact ⟨by decide, nofun⟩
  · obtain rfl := List.mem_singleton.mp hj
    exact ⟨by decide, nofun⟩

/-- `d.a.f[3]` -/
def fieldItemKey : Bytes := ofChars ['d', '.', 'a', '.', 'f', '[', '3', ']']

def fieldItemRequest : Jrp where
  segm := [⟨ofChars ['d'], -1, .dir⟩, ⟨ofChars ['a'], -1, .archive⟩, ⟨ofChars ['f'], 3, .array⟩]
  valuestring := none
  dupkey := fieldItemKey
  dupvalue := []

theorem fieldItemRequest_accepted : rtCreateJrp fieldItemKey = some fieldItemRequest := by
  decide +kernel

theorem fieldItemRequest_numeric : Numeric fieldItemRequest.segm := by
  rw [Numeric]
  decide

theorem walks_not_always_agree : ¬ ∀ (root : Avl Node) (payload : Bytes) (jrp : Jrp),
    WellFormedTree root → rtCreateJrp payload = some jrp → Numeric jrp.segm →
    WalksAgree root jrp := by
  intro claim
  obtain ⟨same, _, _⟩ := claim fieldRoot _ _ fieldRoot_wellFormed fieldItemRequest_accepted
    fieldItemRequest_numeric
  have reaches : ReachesValue fieldRoot fieldItemRequest (ofChars ['v']) :=
    ⟨_, rfl, Or.inl rfl, rfl⟩
  have rejects : (rtSearch fieldRoot fieldItemRequest).1 = -1 := rfl
  obtain ⟨answer, _⟩ := (same _).mp reaches
  rw [answer] at rejects
  cases rejects

/-- `d.a.f` -/
def fieldRequest : Jrp where
  segm := [⟨ofChars ['d'], -1, .dir⟩, ⟨ofChars ['a'], -1, .archive⟩, ⟨ofChars ['f'], -1, .field⟩]
  valuestring := none
  dupkey := ofChars ['d', '.', 'a', '.', 'f']
  dupvalue := []

theorem walksAgree_iff_field : WalksAgree fieldRoot fieldRequest ↔
    ¬ (Misindexed (rootNode fieldRoot) fieldRequest.segm ∧
      ∃ m, Arrives (rootNode fieldRoot) fieldRequest.segm m) := by
  have accepted : rtCreateJrp fieldRequest.dupkey = some fieldRequest := by decide +kernel
  have numeric : Numeric fieldRequest.segm := by
    rw [Numeric]
    decide
  exact walksAgree_iff fieldRoot_wellFormed accepted numeric

end FieldItem

end LastScope
