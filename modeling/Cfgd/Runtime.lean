import Cfgd.FsImage
import Cfgd.Loader

/-!
# Reading and updating the configuration

`rt_search` and `rt_config_update` with everything they call. A function that
changes nodes below a pointer takes the node it points to and returns that node
as it is afterwards. `freed` lists the blocks that were given to `free`; a step
that would touch one of them again has no result.
-/

namespace Runtime

open AvlTree CText CJson Request ConfigNode Loader FsImage

structure Store (ν : Type) where
  heap : Heap ν
  fs : FsLayout
  freed : List Nat
  deletedCheckpoints : List Bytes

structure World (ν : Type) where
  root : Avl Node
  store : Store ν

section Search

/-- The item of an array that `rt_search` goes to for an index. -/
def searchItem (node : Node) (index : Int) : Option Node :=
  if index = jaSymLast then rtSeekArrayNode node (node.info.arraysize - 1)
  else if index < node.info.arraysize ∧ 0 ≤ index then rtSeekArrayNode node index
  else none

/-- The loop of `rt_search`; `retval` is what the item entered last left behind. -/
def rtSearchLoop (retval : Int) (tree : Avl Node) (dupvalue : Bytes) :
    List Segment → Int × Bytes
  | [] => (retval, dupvalue)
  | segm :: rest =>
    match searchScope tree segm.name with
    | none => (-1, dupvalue)
    | some node => match node.info.jsl with
      | .logicScope =>
        if segm.jsl ≠ .logicScope ∨ rest = [] then (-1, dupvalue)
        else rtSearchLoop 0 node.nextScope dupvalue rest
      | .dir =>
        if rest = [] then (0, node.info.scopeValue)
        else rtSearchLoop 0 node.nextScope dupvalue rest
      | .archive =>
        if rest = [] then (0, node.info.scopeValue)
        else rtSearchLoop 0 node.nextScope dupvalue rest
      | .field =>
        (if rest = [] ∧ segm.jsl = .field then 0 else -1, node.info.scopeValue)
      | .array =>
        if segm.jsl ≠ .array ∨ node.array = [] ∨ node.info.arraysize ≤ 0 then (-1, dupvalue)
        else if segm.index = jaSymQuerySize then
          (if rest = [] then 0 else -1, printInt node.info.arraysize)
        else if segm.index = jaSymAdd ∨ segm.index = jaSymEntire then (-1, dupvalue)
        else match searchItem node segm.index with
          | none => (-1, dupvalue)
          | some item => match item.info.jsl with
            | .arrayItem => rtSearchLoop (-1) item.nextScope dupvalue rest
            | .arrayItemAsField => (if rest = [] then 0 else -1, item.info.scopeValue)
            | _ => (0, dupvalue)
      | _ => (-1, dupvalue)

/-- The answer of `rt_search` and the value it leaves in `dupvalue`. -/
def rtSearch (root : Avl Node) (jrp : Jrp) : Int × Bytes :=
  rtSearchLoop 0 root jrp.dupvalue jrp.segm

end Search

section Reach

/-- What `rt_reach_last_match_scope` hands back, with the levels it wrote into `segm`. -/
structure Reached where
  offset : Nat
  last : Option Path
  previous : Option Path
  archive : Option Path
  segm : List Segment

/-- The loop of `rt_reach_last_match_scope`. `tree` hangs under the node at `above`,
`before` are the segments already passed. -/
def rtReachLoop (tree : Avl Node) (above : Path) (node previous archive : Option Path)
    (before : List Segment) : List Segment → Option Reached
  | [] => some ⟨before.length, node, previous, archive, before⟩
  | segm :: rest =>
    match searchScope tree segm.name with
    | none => some ⟨before.length, none, previous, archive, before ++ segm :: rest⟩
    | some found =>
      let here := above ++ [.scope (fold segm.name)]
      let archive := if found.info.jsl = .archive then some here else archive
      if (found.info.jsl = .array ∨ segm.jsl = .array) ∧ found.info.jsl ≠ segm.jsl then none
      else
        let segm := { segm with jsl := found.info.jsl }
        let atEnd : Reached :=
          ⟨before.length, none, some here, archive, before ++ segm :: rest⟩
        let enter := fun which : Int => match rtSeekArrayNode found which with
          | none => rtReachLoop tree above (some here) none archive (before ++ [segm]) rest
          | some item =>
            let there := here ++ [.item which.toNat]
            rtReachLoop item.nextScope there (some here) (some there) archive
              (before ++ [segm]) rest
        if found.info.jsl = .array then
          if 0 ≤ found.info.arraysize ∧ segm.index = found.info.arraysize then some atEnd
          else if found.info.arraysize ≤ 0 ∨ found.array = [] then
            if segm.index = jaSymAdd then some atEnd else none
          else if 0 ≤ segm.index ∧ segm.index < found.info.arraysize then enter segm.index
          else if segm.index = jaSymLast then enter (found.info.arraysize - 1)
          else if segm.index = jaSymQuerySize then none
          else if segm.index = jaSymAdd then some atEnd
          else if segm.index = jaSymEntire then some { atEnd with last := some here }
          else none
        else
          rtReachLoop found.nextScope here (some here) (some here) archive
            (before ++ [segm]) rest

def rtReachLastMatchScope (root : Avl Node) (segm : List Segment) : Option Reached :=
  rtReachLoop root [] none none none [] segm

end Reach

variable {ν : Type} [DoubleText ν]

section Allocate

/-- The part of a new node that every allocation helper fills in the same way. -/
def newNode (item : Item ν) (parent : Node) (scopeName scopeValue : Bytes) (jsl : Jsl) : Node :=
  .mk { NodeInfo.blank item.addr with
    scopeName := scopeName
    scopeValue := scopeValue
    jsl := jsl
    jsonptr := some item.addr
    jsonparentptr := parent.info.jsonptr } .nil []

/-- A new member item under the parent's item, and the node for it. -/
def allocateMember (store : Store ν) (parentnode : Node) (scopeName scopeValue : Bytes)
    (jsl : Jsl) (kind : Kind ν) : Store ν × Node :=
  let (heap, item) := cjsonCreate store.heap kind
  ({ store with heap := cjsonAddItemToObject heap parentnode.info.jsonptr scopeName item },
    newNode item parentnode scopeName scopeValue jsl)

def rtAllocateLogicScope (store : Store ν) (parentnode : Node) (scopeName : Bytes) :
    Store ν × Node :=
  allocateMember store parentnode scopeName [] .logicScope .cjsonObject

def rtAllocateField (store : Store ν) (parentnode : Node) (scopeName valuestring : Bytes) :
    Store ν × Node :=
  allocateMember store parentnode scopeName valuestring .field (.cjsonString valuestring)

def rtAllocateArray (store : Store ν) (parentnode : Node) (scopeName : Bytes) :
    Store ν × Node :=
  allocateMember store parentnode scopeName [] .array .cjsonArray

/-- A new element item at the end of the array's item, and the node for it. -/
def allocateElement (store : Store ν) (arraynode : Node) (scopeValue : Bytes)
    (jsl : Jsl) (kind : Kind ν) : Store ν × Node :=
  let (heap, item) := cjsonCreate store.heap kind
  ({ store with heap := cjsonAddItemToArray heap arraynode.info.jsonptr item },
    newNode item arraynode (printInt arraynode.info.arraysize) scopeValue jsl)

def rtAllocateArrayItem (store : Store ν) (arraynode : Node) : Store ν × Node :=
  allocateElement store arraynode
    (itemValue arraynode.info.scopeName arraynode.info.arraysize) .arrayItem .cjsonObject

def rtAllocateArrayField (store : Store ν) (arraynode : Node) (valuestring : Bytes) :
    Store ν × Node :=
  allocateElement store arraynode valuestring .arrayItemAsField (.cjsonString valuestring)

/-- `list_add_tail` of a new item and the count that goes with it. -/
def addItem (arraynode item : Node) : Node :=
  (arraynode.setArray (· ++ [item])).setInfo fun info =>
    { info with arraysize := info.arraysize + 1 }

end Allocate

section Append

/-- `archive` leads from the node to an archive that was made below it. -/
structure Appended (ν : Type) where
  store : Store ν
  node : Node
  retval : Int
  archive : Option Path

/-- The test of `rt_append` in front of every array segment. -/
def appendable (node : Node) (segm : Segment) : Bool :=
  0 ≤ node.info.arraysize && (segm.index = node.info.arraysize || segm.index = jaSymAdd) &&
    node.info.arraysize < maxArySize

/-- The slot for a new archive: the fs after the attempt, and its section. Outside
the directories of the fs there is no slot and the section stays -1. -/
def allocateSection (fs : FsLayout) (dirName name : Bytes) : FsLayout × Option Int :=
  match fsSearchDirByname fs dirName with
  | none => (fs, some (-1))
  | some dir =>
    if dir.id > 0 then
      let allocated := fsAllocateFile fs name dir.id 0 none
      (allocated.1, if allocated.2 < 0 then none else some allocated.2)
    else (fs, some (-1))

/-- `rt_append` from a node on, for the segments from the offset on. -/
def rtAppend (valuestring : Bytes) (store : Store ν) (node : Node) :
    List Segment → Appended ν
  | [] => ⟨store, node, 0, none⟩
  | segm :: rest =>
    match segm.jsl with
    | .field =>
      let new := rtAllocateField store node segm.name valuestring
      ⟨new.1, insertScope node new.2, 0, none⟩
    | .logicScope =>
      let new := rtAllocateLogicScope store node segm.name
      let below := rtAppend valuestring new.1 new.2 rest
      { below with node := insertScope node below.node }
    | .archive =>
      match allocateSection store.fs node.info.scopeName segm.name with
      | (fs, none) => ⟨{ store with fs := fs }, node, -1, none⟩
      | (fs, some fsSection) =>
        match archiveNode node segm.name store.heap.nextAddr store.heap.nextAddr with
        | none => ⟨{ store with fs := fsDeleteFile fs fsSection }, node, -1, none⟩
        | some archive =>
          let (heap, document) := cjsonCreate store.heap .cjsonObject
          let archive := archive.setInfo fun info => { info with fsSection := fsSection }
          let below := rtAppend valuestring
            { store with fs := fs, heap := heap.addRoot document } archive rest
          { below with
            node := insertScope node below.node, archive := some [.scope archive.scopeKey] }
    | .array =>
      let addTo := fun (store : Store ν) (arraynode : Node) =>
        if rest = [] then
          let new := rtAllocateArrayField store arraynode valuestring
          (⟨new.1, addItem arraynode new.2, 0, none⟩ : Appended ν)
        else
          let new := rtAllocateArrayItem store arraynode
          let below := rtAppend valuestring new.1 new.2 rest
          { below with node := addItem arraynode below.node }
      if ¬ appendable node segm then ⟨store, node, -1, none⟩
      else if node.info.jsl = .array then addTo store node
      else
        -- the array is made first and the same segment is taken again, on the new array
        let new := rtAllocateArray store node segm.name
        if ¬ appendable new.2 segm then ⟨new.1, insertScope node new.2, -1, none⟩
        else
          let below := addTo new.1 new.2
          { below with node := insertScope node below.node }
    | _ => ⟨store, node, 0, none⟩

end Append

section Update

/-- The item that takes the place of the old one: its type is kept, and only strings
and numbers have one. -/
def newOne (heap : Heap ν) (jsonptr : Option Addr) (valuestring : Bytes) :
    Option (Heap ν × Item ν) :=
  match (jsonptr.bind heap.deref).map Item.kind with
  | some (.cjsonString _) => some (cjsonCreate heap (.cjsonString valuestring))
  | some (.cjsonNumber _) => some (cjsonCreate heap (.cjsonNumber (DoubleText.atof valuestring)))
  | _ => none

def setValue (valuestring : Bytes) (jsonptr : Addr) (node : Node) : Node :=
  node.setInfo fun info => { info with scopeValue := valuestring, jsonptr := some jsonptr }

/-- `rt_field_update`: the store, the node and the answer. -/
def rtFieldUpdate (store : Store ν) (node : Node) (valuestring : Bytes) :
    Store ν × Node × Int :=
  match node.info.jsonptr, node.info.jsonparentptr with
  | some _, some parent =>
    if node.info.jsl ≠ .field then (store, node, -1)
    else if node.info.scopeValue = valuestring then (store, node, 1)
    else match newOne store.heap node.info.jsonptr valuestring with
      | none => (store, node, -1)
      | some (heap, item) =>
        ({ store with heap := cjsonReplaceItemInObject heap parent node.info.scopeName item },
          setValue valuestring item.addr node, 0)
  | _, _ => (store, node, -1)

/-- `rt_array_field_update`: the store, the array node and the answer. -/
def rtArrayFieldUpdate (store : Store ν) (arraynode : Node) (which : Int)
    (valuestring : Bytes) : Store ν × Node × Int :=
  match arraynode.info.jsonptr with
  | none => (store, arraynode, -1)
  | some array =>
    if arraynode.info.jsl ≠ .array ∨ which < 0 ∨
        (arraynode.info.arraysize ≤ which ∧ which ≠ jaSymLast) then (store, arraynode, -1)
    else
      let offset := if arraynode.info.arraysize ≤ which then arraynode.info.arraysize - 1
        else which
      match rtSeekArrayNode arraynode offset with
      | none => (store, arraynode, -1)
      | some node =>
        if node.info.scopeValue = valuestring then (store, arraynode, 1)
        else match newOne store.heap node.info.jsonptr valuestring with
          | none => (store, arraynode, -1)
          | some (heap, item) =>
            ({ store with heap := cjsonReplaceItemInArray heap array offset.toNat item },
              arraynode.setArray fun items =>
                items.modify offset.toNat (setValue valuestring item.addr), 0)

end Update

section Delete

def Store.free (store : Store ν) (node : Node) : Store ν :=
  { store with freed := node.info.ident :: store.freed }

/-- The items behind a removed one move down by one, and so do their names. -/
def decreaseIndex (item : Node) : Node :=
  item.setInfo fun info => { info with scopeName := printInt (atoi info.scopeName - 1) }

/-- `list_del_init` of an item, with the renaming of those behind it and the count. -/
def dropItem (arraynode item : Node) : Node :=
  let i := arraynode.array.findIdx fun n => n.info.ident = item.info.ident
  (arraynode.setArray fun items => items.take i ++ (items.drop (i + 1)).map decreaseIndex).setInfo
    fun info => { info with arraysize := info.arraysize - 1 }

/-- `rt_safe_delete_array_item`, or without `deep` `rt_suface_delete_array_item`. -/
def rtDeleteArrayItem (deep : Bool) (store : Store ν) (item arraynode : Node) :
    Store ν × Node :=
  let heap := match deep, item.info.jsonparentptr, item.info.jsonptr with
    | true, some parent, some ptr => cjsonDetachAndDelete store.heap parent ptr
    | _, _, _ => store.heap
  ({ store with heap := heap }.free item, dropItem arraynode item)

/-- The end of `rt_deep_delete_range` for a scope, a field, an archive or an empty array. -/
def unlinkScope (deep : Bool) (store : Store ν) (currentnode parentnode : Node) :
    Store ν × Node :=
  let heap := match deep, currentnode.info.jsonparentptr, currentnode.info.jsonptr with
    | true, some parent, _ =>
      cjsonDeleteItemFromObject store.heap parent currentnode.info.scopeName
    | true, none, some ptr => cjsonDelete store.heap ptr
    | _, _, _ => store.heap
  ({ store with heap := heap }.free currentnode,
    removeScope parentnode currentnode.info.scopeName)

/-- The end of `rt_deep_delete_range` for an array that had items. -/
def unlinkArray (deep : Bool) (store : Store ν) (currentnode parentnode : Node) :
    Store ν × Node :=
  let heap := match deep, parentnode.info.jsonptr with
    | true, some parent =>
      cjsonDeleteItemFromObject store.heap parent currentnode.info.scopeName
    | _, _ => store.heap
  ({ store with heap := heap }.free currentnode,
    removeScope parentnode currentnode.info.scopeName)

/-- A call of `rt_deep_delete_range` on a node and its parent: the store, the parent
and the returned tree. -/
abbrev DeleteCall (ν : Type) := Store ν → Node → Node → Option (Store ν × Node × Avl Node)

/-- The loop that deletes the root of `next_scope` until there is none. -/
def drainScopes (delete : DeleteCall ν) : Nat → Store ν → Node → Option (Store ν × Node)
  | 0, _, _ => none
  | n + 1, store, currentnode =>
    match currentnode.nextScope with
    | .nil => some (store, currentnode)
    | .node _ child _ _ =>
      match delete store child currentnode with
      | none => none
      | some (store, currentnode, tree) =>
        drainScopes delete n store (currentnode.setNextScope fun _ => tree)

/-- The loop that deletes the first item until the list is empty. -/
def drainItems (delete : DeleteCall ν) : Nat → Store ν → Node → Option (Store ν × Node)
  | 0, _, _ => none
  | n + 1, store, currentnode =>
    match currentnode.array with
    | [] => some (store, currentnode)
    | item :: _ =>
      match delete store item currentnode with
      | none => none
      | some (store, currentnode, _) => drainItems delete n store currentnode

/-- `rt_deep_delete_range` under a parent node, or without `deep`
`rt_suface_delete_range`. There is no result when a freed block is touched or when
the calls do not come to an end within `fuel`. -/
def rtDeleteRange (deep : Bool) : Nat → DeleteCall ν
  | 0, _, _, _ => none
  | fuel + 1, store, currentnode, parentnode =>
    if currentnode.info.ident ∈ store.freed then none
    else match drainScopes (rtDeleteRange deep fuel) (fuel + 1) store currentnode with
      | none => none
      | some (store, currentnode) =>
        if currentnode.info.jsl = .array ∧ currentnode.array ≠ [] ∧
            0 < currentnode.info.arraysize then
          match drainItems (rtDeleteRange deep fuel) (fuel + 1) store currentnode with
          | none => none
          | some (store, currentnode) =>
            let (store, parentnode) := unlinkArray deep store currentnode parentnode
            some (store, parentnode, parentnode.nextScope)
        else if currentnode.info.jsl = .arrayItem ∨
            currentnode.info.jsl = .arrayItemAsField then
          -- the walk over the items behind the node ends in the list of an array only
          if currentnode.info.ident ∈ parentnode.array.map fun item => item.info.ident then
            let (store, parentnode) := rtDeleteArrayItem deep store currentnode parentnode
            some (store, parentnode, .nil)
          else none
        else
          let (store, parentnode) := unlinkScope deep store currentnode parentnode
          some (store, parentnode, parentnode.nextScope)

/-- `rt_deep_delete_range` of a directory, which has no parent node: the store and
the root after `ldr_remove_scope`. -/
def rtDeleteRangeOfDir (deep : Bool) (fuel : Nat) (store : Store ν) (dir : Node)
    (root : Avl Node) : Option (Store ν × Avl Node) :=
  if dir.info.ident ∈ store.freed then none
  else match drainScopes (rtDeleteRange deep fuel) (fuel + 1) store dir with
    | none => none
    | some (store, dir) =>
      some (store.free dir, avlremove Node.scopeKey root (fold dir.info.scopeName))

/-- The loop of `rt_delete` for the index `*`. -/
def deleteAllItems (fuel : Nat) : Nat → Store ν → Node → Option (Store ν × Node)
  | 0, _, _ => none
  | n + 1, store, arraynode =>
    if 0 < arraynode.info.arraysize then
      match rtSeekArrayNode arraynode (arraynode.info.arraysize - 1) with
      | none => none
      | some item =>
        match rtDeleteRange true fuel store item arraynode with
        | none => none
        | some (store, arraynode, _) => deleteAllItems fuel n store arraynode
    else some (store, arraynode)

/-- What `rt_delete` leaves: the store, the parent of the node, the answer and the
value of a deleted field or item. -/
structure Deleted (ν : Type) where
  store : Store ν
  parentnode : Node
  retval : Int
  oldvaluestring : Bytes

/-- `rt_delete` of a node under its parent, for the last segment of the request. -/
def rtDelete (fuel : Nat) (store : Store ν) (node parentnode : Node) (segm : Segment) :
    Option (Deleted ν) :=
  let whole := fun (store : Store ν) (node : Node) (old : Bytes) =>
    (rtDeleteRange true fuel store node parentnode).map fun (store, parentnode, _) =>
      (⟨store, parentnode, 0, old⟩ : Deleted ν)
  -- the array with one item less goes back into its parent
  let one := fun which : Int => match rtSeekArrayNode node which with
    | none => none
    | some item => (rtDeleteRange true fuel store item node).map fun (store, node, _) =>
      (⟨store, parentnode.setNextScope fun tree =>
        modify Node.scopeKey (fun _ => node) tree node.scopeKey, 0, item.info.scopeValue⟩ :
        Deleted ν)
  match node.info.jsl with
  | .field => whole store node node.info.scopeValue
  | .logicScope => whole store node []
  | .array =>
    if node.info.arraysize ≤ 0 ∨ node.array = [] then some ⟨store, parentnode, -1, []⟩
    else if segm.index < 0 then whole store node []
    else if segm.index < node.info.arraysize then one segm.index
    else if segm.index = jaSymLast then one (node.info.arraysize - 1)
    else if segm.index = jaSymEntire then
      match deleteAllItems fuel fuel store node with
      | none => none
      | some (store, node) => whole store node []
    else some ⟨store, parentnode, -1, []⟩
  | .archive => whole { store with fs := fsDeleteFile store.fs node.info.fsSection } node []
  | _ => some ⟨store, parentnode, -1, []⟩

end Delete

/-- The world after `rt_config_update`, its answer, and the archive to write back. -/
structure Updated (ν : Type) where
  world : World ν
  retval : Int
  archive : Option Path

def checkpointKey : Bytes :=
  ofChars ['p', 'r', 'o', 'c', '.', 'j', 'e', 's', 's', '.', 'c', 'h', 'e', 'c', 'k', 'p', 'o',
    'i', 'n', 't']

def World.modifyAt (world : World ν) (write : Node → Node) (place : Path) (store : Store ν) :
    World ν :=
  ⟨((rootNode world.root).modifyAt write place).nextScope, store⟩

/-- The branch of `rt_config_update` for a request whose segments were all found. -/
def updateFound (world : World ν) (jrp : Jrp) (reached : Reached) (valuestring : Bytes)
    (here : Path) : Option (Updated ν) :=
  let failed : Updated ν := ⟨world, -1, reached.archive⟩
  match (rootNode world.root).getAt here, (rootNode world.root).getAt here.dropLast,
      reached.segm.getLast? with
  | some node, some parentnode, some segm =>
    if valuestring = keywordDeleted then
      (rtDelete node.idents.length world.store node parentnode segm).map fun deleted =>
        let store := if 0 ≤ deleted.retval ∧ node.info.fsSection ≤ 0 ∧
            checkpointKey.isPrefixOf jrp.dupkey ∧ deleted.oldvaluestring ≠ [] then
          { deleted.store with deletedCheckpoints :=
              deleted.oldvaluestring :: deleted.store.deletedCheckpoints }
          else deleted.store
        ⟨world.modifyAt (fun _ => deleted.parentnode) here.dropLast store, deleted.retval,
          if node.info.jsl = .archive then none else reached.archive⟩
    else if node.info.jsl = .field ∧ node.info.jsl = segm.jsl then
      let (store, node, retval) := rtFieldUpdate world.store node valuestring
      some ⟨world.modifyAt (fun _ => node) here store, retval, reached.archive⟩
    else if node.info.jsl = .array then
      let (store, node, retval) :=
        rtArrayFieldUpdate world.store node segm.index valuestring
      some ⟨world.modifyAt (fun _ => node) here store, retval, reached.archive⟩
    else some failed
  | _, _, _ => some failed

/-- The branch of `rt_config_update` for a request of which some segment is new. -/
def updateMissing (world : World ν) (jrp : Jrp) (reached : Reached) (valuestring : Bytes)
    (previous : Path) : Updated ν :=
  let failed : Updated ν := ⟨world, -1, reached.archive⟩
  match (rootNode world.root).getAt previous with
  | none => failed
  | some node =>
    if node.info.jsl = .field ∨ node.info.jsl = .arrayItemAsField then failed
    else if node.info.jsl = .dir ∧ jrp.segm.length ≤ 2 then failed
    else if valuestring = keywordDeleted then failed
    else
      let appended :=
        rtAppend valuestring world.store node (reached.segm.drop reached.offset)
      ⟨world.modifyAt (fun _ => appended.node) previous appended.store, appended.retval,
        match appended.archive with
        | none => reached.archive
        | some below => some (previous ++ below)⟩

/-- `rt_config_update`. -/
def rtConfigUpdate (world : World ν) (jrp : Jrp) : Option (Updated ν) :=
  match jrp.valuestring with
  | none => some ⟨world, -1, none⟩
  | some valuestring =>
    if jrp.dupvalue = [] then some ⟨world, -1, none⟩
    else match rtReachLastMatchScope world.root jrp.segm with
      | none => some ⟨world, -1, none⟩
      | some reached => match reached.last, reached.previous with
        | some here, _ => updateFound world jrp reached valuestring here
        | none, some previous => some (updateMissing world jrp reached valuestring previous)
        | none, none => some ⟨world, -1, reached.archive⟩

end Runtime
