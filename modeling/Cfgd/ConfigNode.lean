import Cfgd.AvlTree
import Cfgd.CJson
import Cfgd.Request

/-!
# The configuration tree

Nodes as in `struct jessrt_configure_node`. The nodes below a node are kept in
the AVL tree `next_scope`, under their names ignoring case, or for an array in
the list `array`. A node hangs in one place only, so a pointer to it is the path
that leads there, and its `parentnode` is the node one step above.
-/

namespace ConfigNode

open AvlTree CText CJson Request

/-- The members of a node that are data. `ident` tells the blocks that `malloc`
returned apart; a node's block and the first item made for it share a number. -/
structure NodeInfo where
  ident : Nat
  scopeName : Bytes
  scopeValue : Bytes
  jsl : Jsl
  arraysize : Int
  jsonptr : Option Addr
  jsonparentptr : Option Addr
  fsSection : Int
  deriving DecidableEq, Repr

/-- What `memset` leaves of a new node. -/
def NodeInfo.blank (ident : Nat) : NodeInfo where
  ident := ident
  scopeName := []
  scopeValue := []
  jsl := .dir
  arraysize := 0
  jsonptr := none
  jsonparentptr := none
  fsSection := 0

inductive Node where
  | mk (info : NodeInfo) (nextScope : Avl Node) (array : List Node)

namespace Node

def info : Node → NodeInfo
  | mk info _ _ => info

def nextScope : Node → Avl Node
  | mk _ nextScope _ => nextScope

def array : Node → List Node
  | mk _ _ array => array

def setInfo (change : NodeInfo → NodeInfo) : Node → Node
  | mk info nextScope array => mk (change info) nextScope array

def setNextScope (change : Avl Node → Avl Node) : Node → Node
  | mk info nextScope array => mk info (change nextScope) array

def setArray (change : List Node → List Node) : Node → Node
  | mk info nextScope array => mk info nextScope (change array)

/-- The name under which `ldr_compare_scope` files a node. -/
def scopeKey (node : Node) : Bytes := fold node.info.scopeName

@[simp] theorem info_mk (i : NodeInfo) (t : Avl Node) (a : List Node) : (mk i t a).info = i := rfl
@[simp] theorem nextScope_mk (i : NodeInfo) (t : Avl Node) (a : List Node) :
    (mk i t a).nextScope = t := rfl
@[simp] theorem array_mk (i : NodeInfo) (t : Avl Node) (a : List Node) :
    (mk i t a).array = a := rfl
@[simp] theorem info_setInfo (f : NodeInfo → NodeInfo) (n : Node) :
    (n.setInfo f).info = f n.info := by cases n; rfl
@[simp] theorem nextScope_setInfo (f : NodeInfo → NodeInfo) (n : Node) :
    (n.setInfo f).nextScope = n.nextScope := by cases n; rfl
@[simp] theorem array_setInfo (f : NodeInfo → NodeInfo) (n : Node) :
    (n.setInfo f).array = n.array := by cases n; rfl
@[simp] theorem info_setNextScope (f : Avl Node → Avl Node) (n : Node) :
    (n.setNextScope f).info = n.info := by cases n; rfl
@[simp] theorem nextScope_setNextScope (f : Avl Node → Avl Node) (n : Node) :
    (n.setNextScope f).nextScope = f n.nextScope := by cases n; rfl
@[simp] theorem array_setNextScope (f : Avl Node → Avl Node) (n : Node) :
    (n.setNextScope f).array = n.array := by cases n; rfl
@[simp] theorem info_setArray (f : List Node → List Node) (n : Node) :
    (n.setArray f).info = n.info := by cases n; rfl
@[simp] theorem nextScope_setArray (f : List Node → List Node) (n : Node) :
    (n.setArray f).nextScope = n.nextScope := by cases n; rfl
@[simp] theorem array_setArray (f : List Node → List Node) (n : Node) :
    (n.setArray f).array = f n.array := by cases n; rfl

end Node

/-- `avlsearch` with a searcher node that carries the name. -/
def searchScope (tree : Avl Node) (name : Bytes) : Option Node :=
  avlsearch Node.scopeKey tree (fold name)

/-- `avlinsert` of a node into the `next_scope` of another. -/
def insertScope (node child : Node) : Node :=
  node.setNextScope fun tree => avlinsert Node.scopeKey tree child

/-- `avlremove` of the node with this name from the `next_scope` of another. -/
def removeScope (node : Node) (name : Bytes) : Node :=
  node.setNextScope fun tree => avlremove Node.scopeKey tree (fold name)

/-- One link from a node to a node below it. -/
inductive Step where
  | scope (key : Bytes)
  | item (i : Nat)
  deriving DecidableEq, Repr

abbrev Path := List Step

namespace Node

def follow (node : Node) : Step → Option Node
  | .scope key => avlsearch scopeKey node.nextScope key
  | .item i => node.array[i]?

/-- The node that a pointer points to. -/
def getAt (node : Node) : Path → Option Node
  | [] => some node
  | s :: rest => (node.follow s).bind fun c => c.getAt rest

/-- A write through a pointer. -/
def modifyAt (node : Node) (write : Node → Node) : Path → Node
  | [] => write node
  | .scope key :: rest =>
    node.setNextScope fun tree => modify scopeKey (fun c => c.modifyAt write rest) tree key
  | .item i :: rest => node.setArray fun array => array.modify i fun c => c.modifyAt write rest

mutual
/-- The blocks of the node and of everything below it. -/
def idents : Node → List Nat
  | .mk info nextScope array => info.ident :: (avlIdents nextScope ++ listIdents array)
def avlIdents : Avl Node → List Nat
  | .nil => []
  | .node l node r _ => avlIdents l ++ (node.idents ++ avlIdents r)
def listIdents : List Node → List Nat
  | [] => []
  | node :: rest => node.idents ++ listIdents rest
end

end Node

/-- The node over `__jessldr_server.root`, which the code has no block for. -/
def rootNode (root : Avl Node) : Node := .mk (.blank 0) root []

/-- `rt_seek_array_node`. -/
def rtSeekArrayNode (arraynode : Node) (which : Int) : Option Node :=
  if which < 0 then none else arraynode.array[which.toNat]?

section Walking

open Node

theorem modifyAt_info {node : Node} {write : Node → Node} {s : Step} {rest : Path} :
    (node.modifyAt write (s :: rest)).info = node.info := by
  cases s <;> simp [modifyAt]

theorem scopeKey_modifyAt {node : Node} {write : Node → Node} {path : Path}
    (keeps : ∀ m, node.getAt path = some m → (write m).scopeKey = m.scopeKey) :
    (node.modifyAt write path).scopeKey = node.scopeKey := by
  cases path with
  | nil => exact keeps node rfl
  | cons s rest => rw [scopeKey, modifyAt_info, scopeKey]

/-- A write below a child shows in that child only. -/
theorem follow_modifyAt {node : Node} {write : Node → Node} {s : Step} {rest : Path}
    (keeps : ∀ m, node.getAt (s :: rest) = some m → (write m).scopeKey = m.scopeKey)
    (s' : Step) : (node.modifyAt write (s :: rest)).follow s' =
      if s' = s then (node.follow s).map fun c => c.modifyAt write rest
      else node.follow s' := by
  cases s with
  | scope key =>
    have keeps' : ∀ c, avlsearch scopeKey node.nextScope key = some c →
        (c.modifyAt write rest).scopeKey = c.scopeKey := by
      intro c hc
      refine scopeKey_modifyAt fun m hm => keeps m ?_
      rw [getAt, follow, hc]
      exact hm
    cases s' with
    | scope key' =>
      simp only [modifyAt, follow, nextScope_setNextScope, avlsearch_modify scopeKey keeps',
        Step.scope.injEq]
    | item i => simp [modifyAt, follow]
  | item i =>
    cases s' with
    | scope key' => simp [modifyAt, follow]
    | item i' =>
      simp only [modifyAt, follow, array_setArray, List.getElem?_modify, Step.item.injEq]
      by_cases same : i = i'
      · simp [same]
      · simp [same, Ne.symm same]

theorem getAt_append (node : Node) (path path' : Path) :
    node.getAt (path ++ path') = (node.getAt path).bind fun m => m.getAt path' := by
  induction path generalizing node with
  | nil => rfl
  | cons s rest ih =>
    simp only [List.cons_append, getAt]
    cases node.follow s with
    | none => rfl
    | some c => exact ih c

/-- One step further. -/
theorem getAt_snoc {node m c : Node} {path : Path} {s : Step} (there : node.getAt path = some m)
    (found : m.follow s = some c) : node.getAt (path ++ [s]) = some c := by
  rw [getAt_append, there, Option.bind_some, getAt, found]
  rfl

/-- The node that was written is found where it was. -/
theorem getAt_modifyAt {node m : Node} {write : Node → Node} {path : Path}
    (found : node.getAt path = some m) (keeps : (write m).scopeKey = m.scopeKey) :
    (node.modifyAt write path).getAt path = some (write m) := by
  induction path generalizing node with
  | nil =>
    rw [getAt, Option.some.injEq] at found
    rw [modifyAt, getAt, found]
  | cons s rest ih =>
    have keeps' : ∀ m', node.getAt (s :: rest) = some m' →
        (write m').scopeKey = m'.scopeKey := by
      intro m' hm'
      obtain rfl : m = m' := Option.some.inj (found.symm.trans hm')
      exact keeps
    rw [getAt, follow_modifyAt keeps', if_pos rfl]
    rw [getAt] at found
    cases hs : node.follow s with
    | none => simp [hs] at found
    | some c =>
      rw [hs, Option.bind_some] at found
      exact ih found

/-- A write depends on what it makes of the node that the path leads to. -/
theorem modifyAt_congr {node : Node} {write write' : Node → Node} {path : Path}
    (same : ∀ m, node.getAt path = some m → write m = write' m) :
    node.modifyAt write path = node.modifyAt write' path := by
  induction path generalizing node with
  | nil => exact same node rfl
  | cons s rest ih =>
    have below : ∀ c, node.follow s = some c → c.modifyAt write rest = c.modifyAt write' rest := by
      intro c hc
      apply ih
      intro m hm
      apply same
      rw [getAt, hc]
      exact hm
    cases node with
    | mk info nextScope array =>
      cases s with
      | scope key => exact congrArg (mk info · array) (modify_congr scopeKey below)
      | item i =>
        have items : array.modify i (fun c => c.modifyAt write rest) =
            array.modify i (fun c => c.modifyAt write' rest) := by
          apply List.ext_getElem?
          intro k
          simp only [List.getElem?_modify]
          by_cases here : i = k
          · subst here
            simp only [if_true]
            cases hk : array[i]? with
            | none => rfl
            | some c => exact congrArg some (below c hk)
          · simp only [if_neg here]
        exact congrArg (mk info nextScope) items

theorem modifyAt_id (node : Node) (path : Path) : node.modifyAt (fun m => m) path = node := by
  induction path generalizing node with
  | nil => rfl
  | cons s rest ih =>
    cases node with
    | mk info nextScope array =>
      cases s with
      | scope key =>
        simp only [modifyAt, ih]
        exact congrArg (mk info · array) (modify_id scopeKey nextScope key)
      | item i =>
        simp only [modifyAt, ih]
        exact congrArg (mk info nextScope) (List.modify_id i array)

/-- Writing back what was read changes nothing. -/
theorem modifyAt_self {node m : Node} {path : Path} (found : node.getAt path = some m) :
    node.modifyAt (fun _ => m) path = node := by
  conv_rhs => rw [← modifyAt_id node path]
  apply modifyAt_congr
  intro m' hm'
  exact Option.some.inj (found.symm.trans hm')

theorem modifyAt_append (node : Node) (write : Node → Node) (path path' : Path) :
    node.modifyAt write (path ++ path') =
      node.modifyAt (fun m => m.modifyAt write path') path := by
  induction path generalizing node with
  | nil => rfl
  | cons s rest ih => cases s <;> simp only [List.cons_append, modifyAt, ih]

theorem follow_insertScope {node child : Node} (ord : Ordered scopeKey node.nextScope)
    (s : Step) : (insertScope node child).follow s =
      if s = .scope child.scopeKey then some ((node.follow s).getD child)
      else node.follow s := by
  cases s with
  | scope key =>
    simp only [insertScope, follow, nextScope_setNextScope, avlsearch_avlinsert scopeKey ord,
      Step.scope.injEq]
    by_cases same : child.scopeKey = key
    · simp [same]
    · simp [same, Ne.symm same]
  | item i => simp [insertScope, follow]

theorem follow_removeScope {node : Node} (ord : Ordered scopeKey node.nextScope) (name : Bytes)
    (s : Step) : (removeScope node name).follow s =
      if s = .scope (fold name) then none else node.follow s := by
  cases s with
  | scope key =>
    simp only [removeScope, follow, nextScope_setNextScope, avlsearch_avlremove scopeKey ord,
      Step.scope.injEq]
  | item i => simp [removeScope, follow]

@[simp] theorem insertScope_info (node child : Node) :
    (insertScope node child).info = node.info := by simp [insertScope]

@[simp] theorem insertScope_array (node child : Node) :
    (insertScope node child).array = node.array := by simp [insertScope]

@[simp] theorem removeScope_info (node : Node) (name : Bytes) :
    (removeScope node name).info = node.info := by simp [removeScope]

@[simp] theorem removeScope_array (node : Node) (name : Bytes) :
    (removeScope node name).array = node.array := by simp [removeScope]

theorem ordered_insertScope {node : Node} (ord : Ordered scopeKey node.nextScope) (child : Node) :
    Ordered scopeKey (insertScope node child).nextScope := by
  rw [insertScope, nextScope_setNextScope]
  exact ordered_avlinsert scopeKey ord child

theorem ordered_removeScope {node : Node} (ord : Ordered scopeKey node.nextScope) (name : Bytes) :
    Ordered scopeKey (removeScope node name).nextScope := by
  rw [removeScope, nextScope_setNextScope]
  exact ordered_avlremove scopeKey ord (fold name)

/-- Of several nodes with one name the first that is inserted stays. -/
theorem follow_insertScopes {children : List Node} {node : Node}
    (ord : Ordered scopeKey node.nextScope) (key : Bytes) :
    (children.foldl insertScope node).follow (.scope key) =
      (node.follow (.scope key)).or (children.find? fun c => c.scopeKey = key) := by
  induction children generalizing node with
  | nil => simp
  | cons c rest ih =>
    rw [List.foldl_cons, ih (ordered_insertScope ord c), follow_insertScope ord]
    by_cases same : c.scopeKey = key
    · simp [same]
    · simp [same, Ne.symm same]

theorem ordered_insertScopes {children : List Node} {node : Node}
    (ord : Ordered scopeKey node.nextScope) :
    Ordered scopeKey (children.foldl insertScope node).nextScope := by
  induction children generalizing node with
  | nil => exact ord
  | cons c rest ih => exact ih (ordered_insertScope ord c)

@[simp] theorem insertScopes_info (children : List Node) (node : Node) :
    (children.foldl insertScope node).info = node.info := by
  induction children generalizing node with
  | nil => rfl
  | cons c rest ih => rw [List.foldl_cons, ih, insertScope_info]

@[simp] theorem insertScopes_array (children : List Node) (node : Node) :
    (children.foldl insertScope node).array = node.array := by
  induction children generalizing node with
  | nil => rfl
  | cons c rest ih => rw [List.foldl_cons, ih, insertScope_array]

theorem avlIdents_eq (t : Avl Node) : avlIdents t = t.toList.flatMap idents := by
  induction t with
  | nil => rfl
  | node l x r h ihl ihr => rw [avlIdents, ihl, ihr, Avl.toList, List.flatMap_append,
      List.flatMap_cons]

theorem listIdents_eq (l : List Node) : listIdents l = l.flatMap idents := by
  induction l with
  | nil => rfl
  | cons x rest ih => rw [listIdents, ih, List.flatMap_cons]

theorem idents_eq (node : Node) : node.idents =
    node.info.ident :: (node.nextScope.toList.flatMap idents ++ node.array.flatMap idents) := by
  cases node
  rw [idents, avlIdents_eq, listIdents_eq]
  rfl

theorem searchScope_eq_follow (node : Node) (name : Bytes) :
    searchScope node.nextScope name = node.follow (.scope (fold name)) := rfl

theorem follow_setInfo (node : Node) (change : NodeInfo → NodeInfo) (s : Step) :
    (node.setInfo change).follow s = node.follow s := by
  cases s <;> simp [follow]

theorem mem_of_rtSeekArrayNode {node item : Node} {which : Int}
    (found : rtSeekArrayNode node which = some item) : item ∈ node.array := by
  rw [rtSeekArrayNode] at found
  split at found
  · cases found
  · exact List.mem_of_getElem? found

theorem rtSeekArrayNode_eq_follow (node : Node) (i : Nat) :
    rtSeekArrayNode node i = node.follow (.item i) := by
  have inside : ¬ (i : Int) < 0 := by omega
  rw [rtSeekArrayNode, if_neg inside, Int.toNat_natCast]
  rfl

end Walking

end ConfigNode
