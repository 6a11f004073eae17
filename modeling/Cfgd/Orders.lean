import Cfgd.Runtime

/-!
# The requests that change the configuration

`pro_mkdir`, `pro_rmdir` and `pro_variable_write` with the parts of `runtime.c` that
only they call. A deletion is a write of the keyword. The text of a document comes from
`cJSON_PrintUnformatted`, which is a parameter here.
-/

namespace Orders

open AvlTree CText CJson Request ConfigNode Loader FsImage Runtime

variable {ν : Type} [DoubleText ν]

/-- What a request leaves: the world, whether it was answered with `JESS_OK`, and
whether `fs_append_sync` was called. -/
structure Answered (ν : Type) where
  world : World ν
  ok : Bool
  sync : Bool

section Directories

/-- The node that `ldr_create_dir` makes. -/
def ldrCreateDir (ident : Nat) (name : Bytes) : Node :=
  .mk { NodeInfo.blank ident with
    scopeName := name
    scopeValue := ofChars ['j', 'e', 's', 's', 'f', 's', '/'] ++ name ++
      (if name.getLast? = some posixDirSymbol then [] else [posixDirSymbol])
    jsl := .dir
    fsSection := -1 } .nil []

/-- `rt_create_dir`. There is no result where `fs_allocate_dir` has none. -/
def rtCreateDir (world : World ν) (jrp : Jrp) : Option (World ν × Int) :=
  match jrp.segm, jrp.valuestring with
  | [segm], none =>
    (fsAllocateDir world.store.fs segm.name).map fun (fs, id) =>
      if id < 0 then (⟨world.root, { world.store with fs := fs }⟩, -1)
      else
        let ident := world.store.heap.nextAddr
        (⟨avlinsert Node.scopeKey world.root (ldrCreateDir ident segm.name),
          { world.store with
            fs := fs, heap := { world.store.heap with nextAddr := ident + 1 } }⟩, 0)
  | _, _ => some (world, -1)

/-- The loop of `rt_reach_last_scope`. `tree` hangs under the node at `above`;
`reachArrayNode` says that this is an array which the last segment gave no index for. -/
def rtReachLastScopeLoop (tree : Avl Node) (above : Path) (reachArrayNode : Bool) :
    List Segment → Option Path
  | [] => some above
  | segm :: rest =>
    if reachArrayNode then none
    else match searchScope tree segm.name with
      | none => none
      | some node =>
        let here := above ++ [.scope (fold segm.name)]
        if node.info.jsl ≠ .array then rtReachLastScopeLoop node.nextScope here false rest
        else if segm.index < 0 then rtReachLastScopeLoop tree here true rest
        else if node.info.arraysize ≤ segm.index then none
        else match rtSeekArrayNode node segm.index with
          | none => none
          | some arrayitem =>
            rtReachLastScopeLoop arrayitem.nextScope (here ++ [.item segm.index.toNat]) false rest

/-- The node that `rt_reach_last_scope` stores; there is none when it fails. -/
def rtReachLastScope (root : Avl Node) (segm : List Segment) : Option Path :=
  rtReachLastScopeLoop root [] false segm

/-- `rt_delete_dir`: the world, and the tree that it returns. -/
def rtDeleteDir (world : World ν) (node : Node) : Option (World ν × Avl Node) :=
  if node.info.jsl ≠ .dir then some (world, .nil)
  else
    let store := { world.store with fs := fsDeleteDir world.store.fs node.info.scopeName }
    (rtDeleteRangeOfDir true node.idents.length store node world.root).map fun (store, root) =>
      (⟨root, store⟩, root)

/-- The loop of `rt_remove_dir` over all directories; `cursor` is the tree whose root goes
next. There is no result when the loop does not end within `fuel` turns. -/
def removeDirs : Nat → World ν → Avl Node → Option (World ν)
  | 0, _, _ => none
  | fuel + 1, world, cursor =>
    match cursor with
    | .nil => some world
    | .node _ cursornode _ _ =>
      match rtDeleteDir world cursornode with
      | none => none
      | some (world, cursor) => removeDirs fuel world cursor

/-- `rt_remove_dir`. The call of `fs_override_file` at its end is left out: a directory has
no document, and with none the call changes nothing. -/
def rtRemoveDir (world : World ν) (jrp : Jrp) : Option (World ν × Int) :=
  if jrp.valuestring ≠ none then some (world, -1)
  else if jrp.dupkey = [posixDirSymbol] then
    (removeDirs (world.root.toList.length + 1) world world.root).map fun world =>
      (⟨world.root, { world.store with fs := fsClearConfig world.store.fs }⟩, 0)
  else if jrp.segm.length ≠ 1 then some (world, -1)
  else match rtReachLastScope world.root jrp.segm with
    | none => some (world, -1)
    | some place => match (rootNode world.root).getAt place with
      | none => some (world, 0)
      | some node => (rtDeleteDir world node).map fun (world, _) => (world, 0)

/-- The common end of `pro_mkdir` and `pro_rmdir`. -/
def answerDir (result : World ν × Int) : Answered ν :=
  ⟨result.1, 0 ≤ result.2, 0 ≤ result.2⟩

def proMkdir (world : World ν) (jrp : Jrp) : Option (Answered ν) :=
  if jrp.segm.length ≠ 1 then some ⟨world, false, false⟩
  else (rtCreateDir world jrp).map answerDir

def proRmdir (world : World ν) (jrp : Jrp) : Option (Answered ν) :=
  if jrp.segm.length ≠ 1 then some ⟨world, false, false⟩
  else (rtRemoveDir world jrp).map answerDir

end Directories

section Variables
variable (print : Item ν → Bytes)

/-- The text of the document that a node refers to. -/
def documentText (store : Store ν) (node : Node) : Option Bytes :=
  (node.info.jsonptr.bind store.heap.deref).map print

/-- The first name of the key is `proc`. -/
def inProc (jrp : Jrp) : Bool :=
  jrp.segm.head?.any fun segm => strcasecmp procName segm.name = .eq

/-- The end of `pro_variable_write` after an update that changed something outside of `proc`. -/
def saveArchive (world : World ν) (archive : Option Path) : Answered ν :=
  match archive.bind (rootNode world.root).getAt with
  | none => ⟨world, true, true⟩
  | some node =>
    let saved := fsOverrideFile world.store.fs node.info.fsSection
      (documentText print world.store node)
    ⟨⟨world.root, { world.store with fs := saved.1 }⟩, true, saved.2.2⟩

def proVariableWrite (world : World ν) (jrp : Jrp) : Option (Answered ν) :=
  if jrp.dupvalue = [] ∨ jrp.valuestring = none then some ⟨world, false, false⟩
  else (rtConfigUpdate world jrp).map fun updated =>
    if updated.retval < 0 then ⟨updated.world, false, false⟩
    else if updated.retval = 0 ∧ ¬ inProc jrp then
      saveArchive print updated.world updated.archive
    else ⟨updated.world, true, false⟩

end Variables

inductive Order where
  | mkdir (jrp : Jrp)
  | rmdir (jrp : Jrp)
  | write (jrp : Jrp)

def Order.jrp : Order → Jrp
  | .mkdir jrp => jrp
  | .rmdir jrp => jrp
  | .write jrp => jrp

def serve (print : Item ν → Bytes) (world : World ν) : Order → Option (Answered ν)
  | .mkdir jrp => proMkdir world jrp
  | .rmdir jrp => proRmdir world jrp
  | .write jrp => proVariableWrite print world jrp

/-- One request after the other, as the thread of `pro_server` takes them. -/
def step (print : Item ν → Bytes) (world : World ν) (order : Order) : Option (World ν) :=
  (serve print world order).map Answered.world

section Start

/-- `ldr_create_archive` for an archive of `proc`, which has no slot and an empty document. -/
def procArchive (proc : Node) (addr : Addr) (name : Bytes) : Node :=
  match archiveNode proc name addr addr with
  | none => proc
  | some archive => insertScope proc archive

/-- The directory that `procfs_rebuild` makes, before its requests fill it. -/
def procDir : Node :=
  procArchive (procArchive (ldrCreateDir 1 procName) 2 (ofChars ['j', 'e', 's', 's']))
    3 (ofChars ['h', 'i', 's', 't', 'o', 'r', 'y'])

/-- A server without a configuration. -/
def emptyServer : World ν where
  root := avlinsert Node.scopeKey .nil procDir
  store :=
    { heap := ⟨[.mk 3 none .cjsonObject [], .mk 2 none .cjsonObject []], 4⟩
      fs := .zero
      freed := []
      deletedCheckpoints := [] }

end Start

end Orders
