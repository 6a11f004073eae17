import Cfgd.KeyGrammar
import Cfgd.LastScope
import Cfgd.Response

/-!
# The walk of the scope view

`pro_variable_scope` lists the values below a key, one `name=value` line each.
`var_makeup_pair` walks a tree with the text of the key so far and appends a name for
every level. Here are its lines, and the leaves that they stand for.
-/

namespace ScopeWalk

open AvlTree CText CJson Request ConfigNode Runtime DeleteRange KeyGrammar Levels LastScope
open Response

/-- The size of `scope_name_buff`. -/
def scopeNameBuffSize : Nat := maxPreSegSize * 3 + 4

section Model
variable (buff : Bytes)

/-- `next_scope_name`: as long as a name of the usual size needs it. -/
def nextScopeName (scopeName : Option Bytes) (name : Bytes) : Bytes :=
  match scopeName with
  | some scopeName =>
    (scopeName ++ dot :: name).take (scopeName.length + maxPreSegSize + 2 - 1)
  | none => name

/-- `scope_name_buff` for an item of an array; without a scope name nothing is written
into it. -/
def scopeNameBuff (scopeName : Option Bytes) (name item : Bytes) : Bytes :=
  match scopeName with
  | some scopeName =>
    (scopeName ++ dot :: (name ++ leftBracket :: item ++ [rightBracket])).take
      (scopeNameBuffSize - 1)
  | none => buff

def pairText (name value : Bytes) : Bytes := name ++ equalSign :: value ++ crlf

mutual
/-- The texts that `var_makeup_pair` appends. `buff` is what its buffer holds before it
is written. -/
def varMakeupPair (scopeName : Option Bytes) : Avl Node → List Bytes
  | .nil => []
  | .node l node r _ =>
    makeupNode scopeName node ++ (varMakeupPair scopeName l ++ varMakeupPair scopeName r)
def makeupNode (scopeName : Option Bytes) : Node → List Bytes
  | .mk info nextScope array =>
    match info.jsl with
    | .field => [pairText (nextScopeName scopeName info.scopeName) info.scopeValue]
    | .logicScope => varMakeupPair (some (nextScopeName scopeName info.scopeName)) nextScope
    | .archive => varMakeupPair (some (nextScopeName scopeName info.scopeName)) nextScope
    | .dir => varMakeupPair (some (nextScopeName scopeName info.scopeName)) nextScope
    | .array => makeupItems scopeName info.scopeName array
    | _ => []
def makeupItems (scopeName : Option Bytes) (name : Bytes) : List Node → List Bytes
  | [] => []
  | .mk item nextScope _ :: rest =>
    (match item.jsl with
      | .arrayItem =>
        varMakeupPair (some (scopeNameBuff buff scopeName name item.scopeName)) nextScope
      | .arrayItemAsField =>
        [pairText (nextScopeName scopeName name ++ leftBracket :: item.scopeName ++ [rightBracket])
          item.scopeValue]
      | _ => []) ++ makeupItems scopeName name rest
end

/-- The scope name and the tree that `pro_variable_scope` hands to `var_makeup_pair`. -/
def viewArguments (last : Hung) : Bytes × Avl Node :=
  if last.node.info.jsl = .array then (last.node.info.scopeName, last.index)
  else if last.node.info.jsl = .arrayItem then (last.node.info.scopeValue, last.node.nextScope)
  else (last.node.info.scopeName, last.node.nextScope)

/-- The keys `/` and `*` stand for the whole configuration. -/
def IsWhole (key : Bytes) : Prop := key = [47] ∨ key = [jaCodeEntire]

instance (key : Bytes) : Decidable (IsWhole key) := inferInstanceAs (Decidable (_ ∨ _))

def appendLines (reply : Reply) (lines : List Bytes) : Reply :=
  lines.foldl (fun reply line => proAppendResponse reply (.text line)) reply

theorem appendLines_fits {reply : Reply} {lines : List Bytes}
    (fits : Fits (appendLines reply lines)) :
    Fits reply ∧ appendLines reply lines = reply ++ lines.map .text := by
  induction lines generalizing reply with
  | nil => exact ⟨fits, (List.append_nil reply).symm⟩
  | cons line rest ih =>
    have step : appendLines reply (line :: rest) =
        appendLines (proAppendResponse reply (.text line)) rest := rfl
    rw [step] at fits
    obtain ⟨fits', whole⟩ := ih fits
    obtain ⟨before, one⟩ := proAppendResponse_fits fits'
    refine ⟨before, ?_⟩
    rw [step, whole, one, List.append_assoc]
    rfl

def proVariableScope (root : Avl Node) (jrp : Jrp) (reply : Reply) : Reply :=
  if jrp.valuestring ≠ none then proAppendResponse reply (.status .fatal)
  else if IsWhole jrp.dupkey then
    appendLines (proAppendResponse reply (.status .ok)) (varMakeupPair buff none root)
  else match rtReachLastScope root jrp with
    -- a parsed key has a segment, so that success comes with a node
    | (_, none) => proAppendResponse reply (.status .fatal)
    | (_, some last) =>
      if IsLeaf last.node then
        proAppendResponse reply (.okText (pairText jrp.dupkey last.node.info.scopeValue))
      else
        let (scopeName, tree) := viewArguments last
        appendLines (proAppendResponse reply (.status .ok))
          (varMakeupPair buff (some scopeName) tree)

end Model

section Leaves

/-- A leaf below a tree: where it is, the parts of a key that lead to it, its value. -/
structure Entry where
  path : Path
  parts : List Part
  value : Bytes

def Entry.under (steps : Path) (part : Part) (entry : Entry) : Entry :=
  ⟨steps ++ entry.path, part :: entry.parts, entry.value⟩

mutual
/-- The leaves in the order in which the walk comes to them. -/
def treeLeaves : Avl Node → List Entry
  | .nil => []
  | .node l node r _ => nodeLeaves node ++ (treeLeaves l ++ treeLeaves r)
def nodeLeaves : Node → List Entry
  | .mk info nextScope array =>
    let here := [Step.scope (fold info.scopeName)]
    match info.jsl with
    | .field => [⟨here, [.plain info.scopeName], info.scopeValue⟩]
    | .logicScope => (treeLeaves nextScope).map (Entry.under here (.plain info.scopeName))
    | .archive => (treeLeaves nextScope).map (Entry.under here (.plain info.scopeName))
    | .dir => (treeLeaves nextScope).map (Entry.under here (.plain info.scopeName))
    | .array => itemLeaves (.scope (fold info.scopeName)) info.scopeName 0 array
    | _ => []
def itemLeaves (step : Step) (name : Bytes) (i : Nat) : List Node → List Entry
  | [] => []
  | .mk item nextScope _ :: rest =>
    (match item.jsl with
      | .arrayItem =>
        (treeLeaves nextScope).map (Entry.under [step, .item i] (.item name item.scopeName))
      | .arrayItemAsField =>
        [⟨[step, .item i], [.item name item.scopeName], item.scopeValue⟩]
      | _ => []) ++ itemLeaves step name (i + 1) rest
end

theorem treeLeaves_eq (t : Avl Node) (entry : Entry) :
    entry ∈ treeLeaves t ↔ ∃ c ∈ t.toList, entry ∈ nodeLeaves c := by
  induction t with
  | nil => simp [treeLeaves, Avl.toList]
  | node l x r h ihl ihr =>
    rw [treeLeaves, List.mem_append, List.mem_append, ihl, ihr]
    simp only [Avl.toList, List.mem_append, List.mem_cons]
    constructor
    · rintro (here | ⟨c, mem, below⟩ | ⟨c, mem, below⟩)
      · exact ⟨x, Or.inr (Or.inl rfl), here⟩
      · exact ⟨c, Or.inl mem, below⟩
      · exact ⟨c, Or.inr (Or.inr mem), below⟩
    · rintro ⟨c, mem | rfl | mem, below⟩
      · exact Or.inr (Or.inl ⟨c, mem, below⟩)
      · exact Or.inl below
      · exact Or.inr (Or.inr ⟨c, mem, below⟩)

theorem mem_itemLeaves {step : Step} {name : Bytes} {i : Nat} {items : List Node} {entry : Entry} :
    entry ∈ itemLeaves step name i items ↔ ∃ k e, items[k]? = some e ∧
      ((e.info.jsl = .arrayItem ∧ entry ∈ (treeLeaves e.nextScope).map
          (Entry.under [step, .item (i + k)] (.item name e.info.scopeName))) ∨
        (e.info.jsl = .arrayItemAsField ∧ entry =
          ⟨[step, .item (i + k)], [.item name e.info.scopeName], e.info.scopeValue⟩)) := by
  induction items generalizing i with
  | nil => simp [itemLeaves]
  | cons item rest ih =>
    obtain ⟨info, nextScope, array⟩ := item
    rw [itemLeaves, List.mem_append, ih]
    constructor
    · rintro (here | ⟨k, e, found, below⟩)
      · refine ⟨0, _, rfl, ?_⟩
        cases level : info.jsl <;> simp only [level] at here
        case arrayItem => exact Or.inl ⟨level, here⟩
        case arrayItemAsField => exact Or.inr ⟨level, List.mem_singleton.mp here⟩
        all_goals cases here
      · have shift : i + 1 + k = i + (k + 1) := by omega
        exact ⟨k + 1, e, found, shift ▸ below⟩
    · rintro ⟨k, e, found, below⟩
      cases k with
      | zero =>
        obtain rfl := Option.some.inj found
        left
        rcases below with ⟨level, here⟩ | ⟨level, rfl⟩
        · rw [Node.info_mk] at level
          simp only [level]
          exact here
        · rw [Node.info_mk] at level
          simp only [level]
          exact List.mem_singleton.mpr rfl
      | succ k =>
        have shift : i + 1 + k = i + (k + 1) := by omega
        exact Or.inr ⟨k, e, found, shift ▸ below⟩

/-- The way to a leaf starts with a name, and so does its key. -/
theorem nodeLeaves_head {n : Node} {entry : Entry} (mem : entry ∈ nodeLeaves n) :
    entry.parts ≠ [] ∧ ∃ rest, entry.path = .scope n.scopeKey :: rest := by
  obtain ⟨info, nextScope, array⟩ := n
  have under : entry ∈ (treeLeaves nextScope).map
        (Entry.under [.scope (fold info.scopeName)] (.plain info.scopeName)) →
      entry.parts ≠ [] ∧ ∃ rest, entry.path = .scope (fold info.scopeName) :: rest := by
    intro mem
    obtain ⟨inner, _, rfl⟩ := List.mem_map.mp mem
    exact ⟨List.cons_ne_nil _ _, inner.path, rfl⟩
  rw [nodeLeaves] at mem
  cases level : info.jsl <;> simp only [level] at mem
  case dir => exact under mem
  case archive => exact under mem
  case logicScope => exact under mem
  case field =>
    obtain rfl := List.mem_singleton.mp mem
    exact ⟨List.cons_ne_nil _ _, [], rfl⟩
  case array =>
    obtain ⟨k, e, _, ⟨_, mem⟩ | ⟨_, rfl⟩⟩ := mem_itemLeaves.mp mem
    · obtain ⟨inner, _, rfl⟩ := List.mem_map.mp mem
      exact ⟨List.cons_ne_nil _ _, _, rfl⟩
    · exact ⟨List.cons_ne_nil _ _, _, rfl⟩
  all_goals cases mem

theorem parts_ne_nil {t : Avl Node} {entry : Entry} (mem : entry ∈ treeLeaves t) :
    entry.parts ≠ [] := by
  obtain ⟨c, _, below⟩ := (treeLeaves_eq t entry).mp mem
  exact (nodeLeaves_head below).1

end Leaves

section Ways

/-- A way down by names and items, with the parts of a key that spell it. -/
inductive Down : Node → List Part → Path → Node → Prop where
  | here (n : Node) : Down n [] [] n
  | scope {n c m : Node} {key : Bytes} {parts : List Part} {path : Path}
      (found : n.follow (.scope key) = some c) (level : c.info.jsl ≠ .array)
      (further : Down c parts path m) :
      Down n (.plain c.info.scopeName :: parts) (.scope key :: path) m
  | item {n c e m : Node} {key : Bytes} {i : Nat} {parts : List Part} {path : Path}
      (found : n.follow (.scope key) = some c) (level : c.info.jsl = .array)
      (entered : c.follow (.item i) = some e) (further : Down e parts path m) :
      Down n (.item c.info.scopeName e.info.scopeName :: parts) (.scope key :: .item i :: path) m

theorem getAt_of_down {n m : Node} {parts : List Part} {path : Path}
    (down : Down n parts path m) : n.getAt path = some m := by
  induction down with
  | here n => rfl
  | scope found _ _ ih =>
    rw [Node.getAt, found]
    exact ih
  | item found _ entered _ ih =>
    rw [Node.getAt, found, Option.bind_some, Node.getAt, entered]
    exact ih

/-- Only directories lie above the archives. -/
def Tiered (n : Node) : Prop :=
  ∀ path m, n.getAt path = some m → m.info.jsl = .dir ∨ Leveled m

theorem Tiered.down {n c : Node} {s : Step} (h : Tiered n) (found : n.follow s = some c) :
    Tiered c := by
  intro path m there
  refine h (s :: path) m ?_
  rw [Node.getAt, found]
  exact there

theorem Tiered.leveled {n : Node} (h : Tiered n) (level : n.info.jsl ≠ .dir) : Leveled n :=
  (h [] n rfl).resolve_left level

/-- What a name is found under: a directory, or a level that takes members. -/
theorem opens_of_found {n c : Node} {key : Bytes} (tiered : Tiered n)
    (found : n.follow (.scope key) = some c) : n.info.jsl = .dir ∨ TakesMembers n.info.jsl := by
  by_cases level : n.info.jsl = .dir
  · exact Or.inl level
  · exact Or.inr ((tiered.leveled level).found found).1

theorem item_of_array {c e : Node} {i : Nat} (tiered : Tiered c) (level : c.info.jsl = .array)
    (entered : c.follow (.item i) = some e) :
    Leveled e ∧ (e.info.jsl = .arrayItem ∨ e.info.jsl = .arrayItemAsField ∨ e.info.jsl = .dir) := by
  have leveled := tiered.leveled (by rw [level]; exact nofun)
  have mem : e ∈ c.array := List.mem_of_getElem? entered
  exact ⟨leveled.items e mem, or_assoc.mp (leveled.elements e mem)⟩

/-- Every leaf below a node that is no array is reached by a way down. -/
theorem down_of_getAt {n m : Node} {path : Path} (built : Built n) (tiered : Tiered n)
    (level : n.info.jsl ≠ .array) (there : n.getAt path = some m) (leaf : IsLeaf m) :
    ∃ parts, Down n parts path m := by
  induction hl : path.length using Nat.strong_induction_on generalizing n path with
  | _ length ih =>
    subst hl
    rcases path with _ | ⟨key | i, rest⟩
    · obtain rfl := Option.some.inj there
      exact ⟨[], .here n⟩
    swap
    · rw [Node.getAt, Node.follow, built.noItems level] at there
      cases there
    rw [Node.getAt] at there
    obtain ⟨c, found, below⟩ := Option.bind_eq_some_iff.mp there
    have builtC := built.scopes c (mem_of_avlsearch Node.scopeKey found)
    by_cases array : c.info.jsl = .array
    · rcases rest with _ | ⟨key' | i, rest⟩
      · obtain rfl := Option.some.inj below
        rcases leaf with h | h <;> rw [array] at h <;> cases h
      · rw [Node.getAt, Node.follow, builtC.noScopes array] at below
        cases below
      · rw [Node.getAt] at below
        obtain ⟨e, entered, below⟩ := Option.bind_eq_some_iff.mp below
        have levelE : e.info.jsl ≠ .array := by
          rcases (item_of_array (tiered.down found) array entered).2 with h | h | h <;>
            rw [h] <;> simp
        have shorter : rest.length < (Step.scope key :: .item i :: rest).length := by
          simp only [List.length_cons]
          omega
        obtain ⟨parts, down⟩ := ih _ shorter (builtC.items e (List.mem_of_getElem? entered))
          ((tiered.down found).down entered) levelE below rfl
        exact ⟨_, .item found array entered down⟩
    · obtain ⟨parts, down⟩ := ih _ (Nat.lt_succ_self _) builtC (tiered.down found) array below rfl
      exact ⟨_, .scope found array down⟩

/-- The leaves that are listed are at the end of ways down. -/
theorem down_of_mem {parts : List Part} {n : Node} {path : Path} {value : Bytes}
    (built : Built n) (mem : ⟨path, parts, value⟩ ∈ treeLeaves n.nextScope) :
    ∃ m, Down n parts path m ∧ IsLeaf m ∧ m.info.scopeValue = value := by
  induction parts generalizing n path with
  | nil => exact absurd rfl (parts_ne_nil mem)
  | cons part parts ih =>
    obtain ⟨c, inside, mem⟩ := (treeLeaves_eq _ _).mp mem
    have found : n.follow (.scope c.scopeKey) = some c :=
      (mem_toList_iff Node.scopeKey built.ordered).mp inside
    have builtC := built.scopes c inside
    obtain ⟨info, nextScope, array⟩ := c
    have under : info.jsl ≠ .array → ⟨path, part :: parts, value⟩ ∈ (treeLeaves nextScope).map
          (Entry.under [.scope (fold info.scopeName)] (.plain info.scopeName)) →
        ∃ m, Down n (part :: parts) path m ∧ IsLeaf m ∧ m.info.scopeValue = value := by
      intro level mem
      obtain ⟨⟨path', parts', value'⟩, mem', same⟩ := List.mem_map.mp mem
      obtain ⟨rfl, parted, rfl⟩ := Entry.mk.inj same
      obtain ⟨rfl, rfl⟩ := List.cons.inj parted
      obtain ⟨m, down, leaf⟩ := ih builtC mem'
      exact ⟨m, .scope found level down, leaf⟩
    rw [nodeLeaves] at mem
    cases level : info.jsl <;> simp only [level] at mem
    case dir => exact under (by rw [level]; exact nofun) mem
    case archive => exact under (by rw [level]; exact nofun) mem
    case logicScope => exact under (by rw [level]; exact nofun) mem
    case field =>
      obtain ⟨rfl, parted, rfl⟩ := Entry.mk.inj (List.mem_singleton.mp mem)
      obtain ⟨rfl, rfl⟩ := List.cons.inj parted
      have notArray : info.jsl ≠ .array := by rw [level]; exact nofun
      exact ⟨_, .scope found notArray (.here _), Or.inl level, rfl⟩
    case array =>
      obtain ⟨k, e, entered, ⟨object, mem⟩ | ⟨field, same⟩⟩ := mem_itemLeaves.mp mem
      · obtain ⟨⟨path', parts', value'⟩, mem', same⟩ := List.mem_map.mp mem
        obtain ⟨rfl, parted, rfl⟩ := Entry.mk.inj same
        obtain ⟨rfl, rfl⟩ := List.cons.inj parted
        obtain ⟨m, down, leaf⟩ := ih (builtC.items e (List.mem_of_getElem? entered)) mem'
        rw [Nat.zero_add]
        exact ⟨m, .item found level entered down, leaf⟩
      · obtain ⟨rfl, parted, rfl⟩ := Entry.mk.inj same
        obtain ⟨rfl, rfl⟩ := List.cons.inj parted
        rw [Nat.zero_add]
        exact ⟨e, .item found level entered (.here e), Or.inr field, rfl⟩
    all_goals cases mem

/-- Every leaf at the end of a way down is listed. -/
theorem mem_of_down {n m : Node} {parts : List Part} {path : Path} (down : Down n parts path m)
    (built : Built n) (tiered : Tiered n) (leaf : IsLeaf m) (some : path ≠ []) :
    ⟨path, parts, m.info.scopeValue⟩ ∈ treeLeaves n.nextScope := by
  induction down with
  | here n => exact absurd rfl some
  | @scope n c m key parts path found level further ih =>
    have inside := mem_of_avlsearch Node.scopeKey found
    have builtC := built.scopes c inside
    have same : c.scopeKey = key := key_of_avlsearch Node.scopeKey found
    refine (treeLeaves_eq _ _).mpr ⟨c, inside, ?_⟩
    have notItem := built.level c inside
    by_cases last : path = []
    · subst last
      cases further
      have field : c.info.jsl = .field := leaf.resolve_right fun h => notItem (Or.inr h)
      obtain ⟨info, nextScope, array⟩ := c
      rw [nodeLeaves]
      rw [Node.info_mk] at field
      simp only [field, ← same]
      exact List.mem_singleton.mpr rfl
    · have below := ih builtC (tiered.down found) leaf last
      have opens : c.info.jsl = .dir ∨ c.info.jsl = .archive ∨ c.info.jsl = .logicScope := by
        have named : ∃ f key', c.follow (.scope key') = Option.some f := by
          cases further with
          | here => exact absurd rfl last
          | scope found _ _ => exact ⟨_, _, found⟩
          | item found _ _ _ => exact ⟨_, _, found⟩
        obtain ⟨f, key', found'⟩ := named
        rcases opens_of_found (tiered.down found) found' with h | h | h | h
        · exact Or.inl h
        · exact Or.inr (Or.inl h)
        · exact Or.inr (Or.inr h)
        · exact absurd (Or.inl h) notItem
      obtain ⟨info, nextScope, array⟩ := c
      have under :
          (⟨.scope key :: path, .plain info.scopeName :: parts, m.info.scopeValue⟩ : Entry) ∈
          (treeLeaves nextScope).map
            (Entry.under [.scope (fold info.scopeName)] (.plain info.scopeName)) :=
        List.mem_map.mpr ⟨_, below, by rw [← same]; rfl⟩
      rw [nodeLeaves]
      rcases opens with h | h | h <;> rw [Node.info_mk] at h <;> simp only [h] <;> exact under
  | @item n c e m key i parts path found level entered further ih =>
    have inside := mem_of_avlsearch Node.scopeKey found
    have builtC := built.scopes c inside
    have same : c.scopeKey = key := key_of_avlsearch Node.scopeKey found
    have tieredC := tiered.down found
    obtain ⟨leveledE, levelE⟩ := item_of_array tieredC level entered
    refine (treeLeaves_eq _ _).mpr ⟨c, inside, ?_⟩
    have listed : (⟨.scope key :: .item i :: path, .item c.info.scopeName e.info.scopeName :: parts,
        m.info.scopeValue⟩ : Entry) ∈ itemLeaves (.scope key) c.info.scopeName 0 c.array := by
      refine mem_itemLeaves.mpr ⟨i, e, entered, ?_⟩
      rw [Nat.zero_add]
      by_cases last : path = []
      · subst last
        cases further
        refine Or.inr ⟨?_, rfl⟩
        rcases levelE with h | h | h
        · rcases leaf with h' | h' <;> rw [h] at h' <;> cases h'
        · exact h
        · rcases leaf with h' | h' <;> rw [h] at h' <;> cases h'
      · have below := ih (builtC.items e (List.mem_of_getElem? entered)) (tieredC.down entered)
          leaf last
        refine Or.inl ⟨?_, List.mem_map.mpr ⟨_, below, rfl⟩⟩
        have named : ∃ f key', e.follow (.scope key') = Option.some f := by
          cases further with
          | here => exact absurd rfl last
          | scope found _ _ => exact ⟨_, _, found⟩
          | item found _ _ _ => exact ⟨_, _, found⟩
        obtain ⟨f, key', found'⟩ := named
        have opens := (leveledE.found found').1
        rcases levelE with h | h | h
        · exact h
        · exact absurd (h ▸ opens) ReadBack.closed_levels.2.2
        · exact absurd (h ▸ opens) ReadBack.closed_levels.1
    obtain ⟨info, nextScope, array⟩ := c
    rw [nodeLeaves]
    rw [Node.info_mk] at level
    simp only [level]
    rw [← same] at listed ⊢
    exact listed

mutual
/-- No leaf is listed twice. -/
theorem nodup_treeLeaves : ∀ t : Avl Node, Ordered Node.scopeKey t → (∀ c ∈ t.toList, Built c) →
    ((treeLeaves t).map Entry.path).Nodup
  | .nil, _, _ => List.nodup_nil
  | .node l node r _, ordered, built => by
    obtain ⟨left, right, below, above⟩ := (ordered_node Node.scopeKey).mp ordered
    have here := nodup_nodeLeaves node (built node (by simp [Avl.toList]))
    have atLeft := nodup_treeLeaves l left fun c mem => built c (by simp [Avl.toList, mem])
    have atRight := nodup_treeLeaves r right fun c mem => built c (by simp [Avl.toList, mem])
    have key : ∀ {t : Avl Node} {path : Path}, path ∈ (treeLeaves t).map Entry.path →
        ∃ c ∈ t.toList, ∃ rest, path = .scope c.scopeKey :: rest := by
      intro t path mem
      obtain ⟨entry, listed, rfl⟩ := List.mem_map.mp mem
      obtain ⟨c, inside, mem⟩ := (treeLeaves_eq _ _).mp listed
      exact ⟨c, inside, (nodeLeaves_head mem).2⟩
    have apart : ∀ {c c' : Node} {rest rest' : Path}, compare c.scopeKey c'.scopeKey = .lt →
        Step.scope c.scopeKey :: rest ≠ Step.scope c'.scopeKey :: rest' := by
      intro c c' rest rest' less same
      exact ne_of_compare_lt less (Step.scope.inj (List.cons.inj same).1)
    rw [treeLeaves, List.map_append, List.map_append]
    refine List.nodup_append.mpr ⟨here, List.nodup_append.mpr ⟨atLeft, atRight, ?_⟩, ?_⟩
    · intro path inLeft path' inRight same
      obtain ⟨c, mem, _, rfl⟩ := key inLeft
      obtain ⟨c', mem', _, rfl⟩ := key inRight
      exact apart (compare_lt_trans (below c mem) (above c' mem')) same
    · intro path inNode path' inside same
      obtain ⟨entry, listed, rfl⟩ := List.mem_map.mp inNode
      obtain ⟨_, head⟩ := (nodeLeaves_head listed).2
      rw [head] at same
      rcases List.mem_append.mp inside with inLeft | inRight
      · obtain ⟨c, mem, _, rfl⟩ := key inLeft
        exact apart (below c mem) same.symm
      · obtain ⟨c, mem, _, rfl⟩ := key inRight
        exact apart (above c mem) same
theorem nodup_nodeLeaves : ∀ n : Node, Built n → ((nodeLeaves n).map Entry.path).Nodup
  | .mk info nextScope array, built => by
    have under := (nodup_treeLeaves nextScope built.ordered built.scopes).map
      (List.cons_injective (a := Step.scope (fold info.scopeName)))
    have items := nodup_itemLeaves (.scope (fold info.scopeName)) info.scopeName 0 array built.items
    rw [List.map_map] at under
    rw [nodeLeaves]
    cases level : info.jsl <;> simp only
    case dir => rw [List.map_map]; exact under
    case archive => rw [List.map_map]; exact under
    case logicScope => rw [List.map_map]; exact under
    case field => exact List.nodup_singleton _
    case array => exact items
    all_goals exact List.nodup_nil
theorem nodup_itemLeaves (step : Step) (name : Bytes) (i : Nat) : ∀ items : List Node,
    (∀ c ∈ items, Built c) → ((itemLeaves step name i items).map Entry.path).Nodup
  | [], _ => List.nodup_nil
  | .mk item nextScope array :: rest, built => by
    have later := nodup_itemLeaves step name (i + 1) rest fun c mem =>
      built c (List.mem_cons_of_mem _ mem)
    have builtE := built _ (List.mem_cons_self ..)
    have under := (nodup_treeLeaves nextScope builtE.ordered builtE.scopes).map
      (List.append_right_injective [step, .item i])
    rw [List.map_map] at under
    rw [itemLeaves, List.map_append]
    refine List.nodup_append.mpr ⟨?_, later, ?_⟩
    · cases level : item.jsl <;> simp only
      case arrayItem => rw [List.map_map]; exact under
      case arrayItemAsField => exact List.nodup_singleton _
      all_goals exact List.nodup_nil
    · have head : ∀ path ∈ (match item.jsl with
            | .arrayItem => (treeLeaves nextScope).map
                (Entry.under [step, .item i] (.item name item.scopeName))
            | .arrayItemAsField =>
              [⟨[step, .item i], [.item name item.scopeName], item.scopeValue⟩]
            | _ => []).map Entry.path, ∃ rest, path = step :: .item i :: rest := by
        intro path mem
        obtain ⟨entry, listed, rfl⟩ := List.mem_map.mp mem
        cases level : item.jsl <;> simp only [level] at listed
        case arrayItem =>
          obtain ⟨inner, _, rfl⟩ := List.mem_map.mp listed
          exact ⟨inner.path, rfl⟩
        case arrayItemAsField =>
          obtain rfl := List.mem_singleton.mp listed
          exact ⟨[], rfl⟩
        all_goals cases listed
      intro path first path' second same
      subst same
      obtain ⟨_, rfl⟩ := head path first
      obtain ⟨entry, listed, same⟩ := List.mem_map.mp second
      obtain ⟨k, e, _, ⟨_, mem⟩ | ⟨_, rfl⟩⟩ := mem_itemLeaves.mp listed
      · obtain ⟨inner, _, rfl⟩ := List.mem_map.mp mem
        have index := Step.item.inj (List.cons.inj (List.cons.inj same).2).1
        omega
      · have index := Step.item.inj (List.cons.inj (List.cons.inj same).2).1
        omega
end

end Ways

section Texts

/-- The parts behind the text of a key. -/
def partsText (parts : List Part) : Bytes := parts.flatMap fun part => dot :: part.text

def entryLine (base : Bytes) (entry : Entry) : Bytes :=
  pairText (base ++ partsText entry.parts) entry.value

/-- The names on the way fit their buffers, behind the text `base`. -/
structure Fitting (base : Bytes) (parts : List Part) : Prop where
  names : ∀ part ∈ parts, part.name.length ≤ maxPreSegSize
  items : ∀ before name range after, parts = before ++ .item name range :: after → after ≠ [] →
    (base ++ partsText (before ++ [.item name range])).length < scopeNameBuffSize

theorem fitting_cons {base : Bytes} {part : Part} {parts : List Part}
    (h : Fitting base (part :: parts)) : part.name.length ≤ maxPreSegSize ∧
      Fitting (base ++ dot :: part.text) parts := by
  refine ⟨h.names part (List.mem_cons_self ..), fun p mem => ?_, ?_⟩
  · exact h.names p (List.mem_cons_of_mem _ mem)
  · rintro before name range after rfl more
    have fits := h.items (part :: before) name range after rfl more
    simpa [partsText] using fits

theorem nextScopeName_fits {base name : Bytes} (short : name.length ≤ maxPreSegSize) :
    nextScopeName (some base) name = base ++ dot :: name := by
  rw [nextScopeName]
  apply List.take_of_length_le
  rw [List.length_append, List.length_cons]
  omega

theorem nextScopeName_short {base : Bytes} {part : Part} {parts : List Part}
    (fits : Fitting base (part :: parts)) :
    nextScopeName (some base) part.name = base ++ dot :: part.name :=
  nextScopeName_fits (fitting_cons fits).1

/-- The text of an object item, when there is a leaf below it. -/
theorem scopeNameBuff_short {buff base name range : Bytes} {parts : List Part}
    (fits : Fitting base (.item name range :: parts)) (more : parts ≠ []) :
    scopeNameBuff buff (some base) name range = base ++ dot :: Part.text (.item name range) := by
  have room := fits.items [] name range parts rfl more
  simp only [partsText, List.nil_append, List.flatMap_cons, List.flatMap_nil,
    List.append_nil] at room
  rw [scopeNameBuff]
  exact List.take_of_length_le (by rw [Part.text] at room; omega)

theorem entryLine_under (base : Bytes) (steps : Path) (part : Part) (entry : Entry) :
    entryLine base (entry.under steps part) = entryLine (base ++ dot :: part.text) entry := by
  simp [entryLine, Entry.under, partsText]

/-- Below a base text, the lines are those of the leaves under a longer one. -/
theorem lines_under {base base' : Bytes} {t : Avl Node} {steps : Path} {part : Part}
    {lines : List Bytes}
    (fits : ∀ entry ∈ (treeLeaves t).map (Entry.under steps part), Fitting base entry.parts)
    (same : treeLeaves t ≠ [] → base' = base ++ dot :: part.text)
    (inner : (∀ entry ∈ treeLeaves t, Fitting base' entry.parts) →
      lines = (treeLeaves t).map (entryLine base')) :
    lines = ((treeLeaves t).map (Entry.under steps part)).map (entryLine base) := by
  have below : ∀ entry ∈ treeLeaves t, Fitting base' entry.parts := by
    intro entry mem
    have long := fits _ (List.mem_map_of_mem mem)
    rw [same (List.ne_nil_of_mem mem)]
    exact (fitting_cons long).2
  rw [inner below, List.map_map]
  refine List.map_congr_left fun entry mem => ?_
  rw [Function.comp_apply, entryLine_under, same (List.ne_nil_of_mem mem)]

mutual
/-- The lines of the walk are those of the leaves, as long as the names fit. -/
theorem varMakeupPair_eq (buff base : Bytes) : ∀ t : Avl Node,
    (∀ entry ∈ treeLeaves t, Fitting base entry.parts) →
    varMakeupPair buff (some base) t = (treeLeaves t).map (entryLine base)
  | .nil, _ => rfl
  | .node l node r _, fits => by
    have here := makeupNode_eq buff base node fun entry mem => fits entry (by
      rw [treeLeaves]
      exact List.mem_append_left _ mem)
    have left := varMakeupPair_eq buff base l fun entry mem => fits entry (by
      rw [treeLeaves]
      exact List.mem_append_right _ (List.mem_append_left _ mem))
    have right := varMakeupPair_eq buff base r fun entry mem => fits entry (by
      rw [treeLeaves]
      exact List.mem_append_right _ (List.mem_append_right _ mem))
    rw [varMakeupPair, treeLeaves, here, left, right, List.map_append, List.map_append]
theorem makeupNode_eq (buff base : Bytes) : ∀ n : Node,
    (∀ entry ∈ nodeLeaves n, Fitting base entry.parts) →
    makeupNode buff (some base) n = (nodeLeaves n).map (entryLine base)
  | .mk info nextScope array, fits => by
    have scope : (∀ entry ∈ (treeLeaves nextScope).map
          (Entry.under [.scope (fold info.scopeName)] (.plain info.scopeName)),
          Fitting base entry.parts) →
        varMakeupPair buff (some (nextScopeName (some base) info.scopeName)) nextScope =
          ((treeLeaves nextScope).map
            (Entry.under [.scope (fold info.scopeName)] (.plain info.scopeName))).map
            (entryLine base) := by
      intro fits
      refine lines_under fits (fun some => ?_) (varMakeupPair_eq buff _ nextScope)
      obtain ⟨entry, mem⟩ := List.exists_mem_of_ne_nil _ some
      exact nextScopeName_short (fits _ (List.mem_map_of_mem mem))
    rw [makeupNode, nodeLeaves]
    rw [nodeLeaves] at fits
    cases level : info.jsl <;> simp only [level] at fits ⊢
    case dir => exact scope fits
    case archive => exact scope fits
    case logicScope => exact scope fits
    case field =>
      have name := nextScopeName_short (fits _ (List.mem_singleton.mpr rfl))
      rw [Part.name] at name
      rw [name, List.map_singleton, entryLine, partsText]
      simp [Part.text]
    case array => exact makeupItems_eq buff base _ info.scopeName 0 array fits
    all_goals rfl
theorem makeupItems_eq (buff base : Bytes) (step : Step) (name : Bytes) (i : Nat) :
    ∀ items : List Node,
    (∀ entry ∈ itemLeaves step name i items, Fitting base entry.parts) →
    makeupItems buff (some base) name items =
      (itemLeaves step name i items).map (entryLine base)
  | [], _ => rfl
  | .mk item nextScope below :: rest, fits => by
    rw [itemLeaves] at fits
    have later := makeupItems_eq buff base step name (i + 1) rest fun entry mem =>
      fits entry (List.mem_append_right _ mem)
    have here := fun entry mem => fits entry (List.mem_append_left _ mem)
    rw [makeupItems, itemLeaves, List.map_append, later]
    refine congrArg (· ++ _) ?_
    clear fits
    cases level : item.jsl <;> simp only [level] at here ⊢
    case arrayItem =>
      refine lines_under here (fun some => ?_) (varMakeupPair_eq buff _ nextScope)
      obtain ⟨entry, mem⟩ := List.exists_mem_of_ne_nil _ some
      exact scopeNameBuff_short (here _ (List.mem_map_of_mem mem)) (parts_ne_nil mem)
    case arrayItemAsField =>
      have text := nextScopeName_short (here _ (List.mem_singleton.mpr rfl))
      rw [Part.name] at text
      rw [text, List.map_singleton, entryLine, partsText]
      simp [Part.text]
    all_goals rfl
end

end Texts

end ScopeWalk
