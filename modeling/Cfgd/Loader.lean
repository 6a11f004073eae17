import Cfgd.ConfigNode

/-!
# Loading documents into the tree

`ldr_next_misc` walks a list of sibling items and builds the nodes below one
parent node. A member whose name or type is not taken leaves no node, and of
several members with one name the first that is taken wins, because `avlinsert`
drops the later ones.
-/

namespace Loader

open AvlTree CText CJson Request ConfigNode

def invalidScopeNameCharacter : List UInt8 := [46, 91, 93, 36, 63, 44, 37, 35, 43, 61]

def scopeSavelenOutofLimit : Nat := 24

def outOfLimit : Bytes :=
  ofChars ['(', 'j', 'e', 's', 's', 'l', 'd', 'r', ':', 'o', 'u', 't', '-', 'o', 'f', '-',
    'l', 'i', 'm', 'i', 't', ')']

/-- `ldr_organize_scope_name` into a buffer, with success on overflow: a name of
192 bytes or more is cut and marked once its first 191 bytes have passed. -/
def ldrOrganizeScopeName (origin : Bytes) : Option Bytes :=
  if (origin.take (maxPreSegSize - 1)).any (invalidScopeNameCharacter.contains ·) then none
  else if maxPreSegSize ≤ origin.length then
    some (origin.take scopeSavelenOutofLimit ++ outOfLimit)
  else if origin = [] then none
  else some origin

/-- A value of 256 bytes or more is cut at `kept` bytes and marked. -/
def limitValue (kept : Nat) (valuestring : Bytes) : Bytes :=
  if maxValueSize ≤ valuestring.length then valuestring.take kept ++ outOfLimit
  else valuestring

/-- The text `name[i]` that the loader stores as the value of an object item. -/
def itemValue (arrayName : Bytes) (i : Int) : Bytes :=
  (arrayName ++ leftBracket :: printInt i ++ [rightBracket]).take (maxValueSize - 1)

variable {ν : Type} [DoubleText ν]

/-- `snprintf` of a double with the format `%.3f`. -/
def numberValue (valuedouble : ν) : Bytes :=
  (DoubleText.fixed3 valuedouble).take (maxValueSize - 1)

/-- The new node of a named member, before its children are loaded. What else the copy of
the name of an array writes to is in `copiedJsl`. -/
def memberInfo (jsonparentptr : Option Addr) (item : Item ν) (name : Bytes) : Option NodeInfo :=
  let blank := { NodeInfo.blank item.addr with
    jsonptr := some item.addr, jsonparentptr := jsonparentptr }
  match item.kind with
  | .cjsonObject => (ldrOrganizeScopeName name).map fun scopeName =>
      { blank with scopeName := scopeName, jsl := .logicScope }
  | .cjsonNumber valuedouble => (ldrOrganizeScopeName name).map fun scopeName =>
      { blank with
        scopeName := scopeName, jsl := .field, scopeValue := numberValue valuedouble }
  | .cjsonString valuestring => (ldrOrganizeScopeName name).map fun scopeName =>
      { blank with
        scopeName := scopeName, jsl := .field,
        scopeValue := limitValue scopeSavelenOutofLimit valuestring }
  | .cjsonArray =>
      some { blank with
        scopeName := name, jsl := .array, arraysize := cjsonGetArraySize item }
  | _ => none

/-- The new node of the i-th element of an array. The types that no branch of the
loader handles keep the zero of `memset`, which is `JSL_DIR`. -/
def elementInfo (array : Addr) (arrayName : Bytes) (i : Nat) (item : Item ν) : NodeInfo :=
  let blank := { NodeInfo.blank item.addr with
    scopeName := printInt i, jsonptr := some item.addr, jsonparentptr := some array }
  match item.kind with
  | .cjsonObject => { blank with jsl := .arrayItem, scopeValue := itemValue arrayName i }
  | .cjsonString valuestring =>
      { blank with jsl := .arrayItemAsField, scopeValue := limitValue 64 valuestring }
  | .cjsonNumber valuedouble =>
      { blank with jsl := .arrayItemAsField, scopeValue := numberValue valuedouble }
  | _ => blank

mutual
/-- `ldr_next_misc` on the children of an item. -/
def loadChildren (parent : Node) : Item ν → Node
  | .mk addr _ _ child => ldrNextMisc (some addr) parent child
/-- `ldr_next_misc` on an item and its siblings. An item without a name is an element
or a whole document: a container is entered in its place and ends the walk, a
number ends it, anything else is passed over. -/
def ldrNextMisc (jsonparentptr : Option Addr) (parent : Node) : List (Item ν) → Node
  | [] => parent
  | item :: rest =>
    match item.string with
    | none => match item.kind with
      | .cjsonNumber _ => parent
      | .cjsonObject => loadChildren parent item
      | .cjsonArray => loadChildren parent item
      | _ => ldrNextMisc jsonparentptr parent rest
    | some name =>
      match memberInfo jsonparentptr item name with
      | none => ldrNextMisc jsonparentptr parent rest
      | some info =>
        let node := match item.kind with
          | .cjsonArray => .mk info .nil (loadElements item)
          | .cjsonObject => loadChildren (.mk info .nil []) item
          | _ => .mk info .nil []
        ldrNextMisc jsonparentptr (insertScope parent node) rest
/-- The loop over the elements of a named array. -/
def loadElements : Item ν → List Node
  | .mk addr string _ child => ldrArrayItems addr (string.getD []) 0 child
def ldrArrayItems (array : Addr) (arrayName : Bytes) (i : Nat) : List (Item ν) → List Node
  | [] => []
  | item :: rest =>
    (match item.kind with
      | .cjsonObject => loadChildren (.mk (elementInfo array arrayName i item) .nil []) item
      | _ => .mk (elementInfo array arrayName i item) .nil []) ::
        ldrArrayItems array arrayName (i + 1) rest
end

def posixDirSymbol : UInt8 := 47

def jsonExtension : Bytes := ofChars ['.', 'j', 's', 'o', 'n']

/-- The node that `ldr_filesystem_load_dir` makes for a directory slot. -/
def loadedDir (ident : Nat) (name : Bytes) : Node :=
  .mk { NodeInfo.blank ident with
    scopeName := name
    scopeValue := (ofChars ['j', 'e', 's', 's', 'f', 's', '/'] ++ name ++
      [posixDirSymbol]).take (maxValueSize - 1)
    jsl := .dir } .nil []

/-- The scope name of an archive: the name before a last `.json`, and nothing at all
when the name has another extension. -/
def archiveScopeName (name : Bytes) : Bytes :=
  if dot ∈ name then
    let ext := dot :: (name.reverse.takeWhile (· ≠ dot)).reverse
    if strcasecmp jsonExtension ext = .eq then name.take (name.length - ext.length) else []
  else name

/-- The node of an archive whose document is at `jsonptr`, or nothing when its path
is too long. -/
def archiveNode (dir : Node) (name : Bytes) (ident : Nat) (jsonptr : Addr) : Option Node :=
  let scopeName := archiveScopeName name
  let scopeValue := dir.info.scopeValue ++ scopeName ++ jsonExtension
  if dir.info.jsl ≠ .dir ∨ maxValueSize ≤ scopeValue.length then none
  else some (.mk { NodeInfo.blank ident with
    scopeName := scopeName
    scopeValue := scopeValue
    jsl := .archive
    jsonptr := some jsonptr
    fsSection := -1 } .nil [])

/-- `ldr_load_archive` on the document of an archive. -/
def ldrLoadArchive (archive : Node) (document : Item ν) : Node :=
  ldrNextMisc none archive [document]

/-- An archive slot that the filesystem holds in a directory, with the document that
its data parses to. Data that is no JSON text counts as an empty object, which is
what `ldr_create_archive` makes then. -/
structure ArchiveImage (ν : Type) where
  name : Bytes
  fsSection : Int
  document : Item ν

structure DirImage (ν : Type) where
  ident : Nat
  name : Bytes
  archives : List (ArchiveImage ν)

/-- `ldr_filesystem_load_archive`, over the archives of one directory. -/
def ldrFilesystemLoadArchive (dir : Node) : List (ArchiveImage ν) → Node
  | [] => dir
  | image :: rest =>
    match archiveNode dir image.name image.document.addr image.document.addr with
    | none => ldrFilesystemLoadArchive dir rest
    | some archive =>
      let archive := archive.setInfo fun info => { info with fsSection := image.fsSection }
      ldrFilesystemLoadArchive (insertScope dir (ldrLoadArchive archive image.document)) rest

/-- `ldr_filesystem_load_dir`, over the directories of the filesystem. -/
def ldrFilesystemLoadDir (root : Node) : List (DirImage ν) → Node
  | [] => root
  | image :: rest =>
    let dir := ldrFilesystemLoadArchive (loadedDir image.ident image.name) image.archives
    ldrFilesystemLoadDir (insertScope root dir) rest

/-! ## The names of arrays

The name of an array is copied to `scope_name` whatever its length is, over `scope_value`,
which nothing reads in an array, and over `jsl`, which the loader does not read. -/

/-- Where `jsl` is, counted from `scope_name`. -/
def jslOffset : Nat := maxPreSegSize + maxValueSize

/-- Where the pointers of the node begin. -/
def jsonptrOffset : Nat := jslOffset + 8

/-- What the copy leaves in the `jsl` of an array, which was `JSL_ARRAY`. A number that is
no level is as good as `JSL_DIR` for the deletions. -/
def copiedJsl (name : Bytes) : Jsl :=
  if name.length < jslOffset then .array
  else match name.drop jslOffset with
    | [1] => .archive
    | [2] => .logicScope
    | [3] => .array
    | [4] => .arrayItem
    | [5] => .arrayItemAsField
    | [6] => .field
    | _ => .dir

def copiedInfo (info : NodeInfo) : NodeInfo :=
  if info.jsl = .array then { info with jsl := copiedJsl info.scopeName } else info

mutual
/-- A node with what is below it, as it is in memory. -/
def copied : Node → Node
  | .mk info nextScope array => .mk (copiedInfo info) (copiedTree nextScope) (copiedItems array)
def copiedTree : Avl Node → Avl Node
  | .nil => .nil
  | .node l node r height => .node (copiedTree l) (copied node) (copiedTree r) height
def copiedItems : List Node → List Node
  | [] => []
  | node :: rest => copied node :: copiedItems rest
end

mutual
def arrayNames : Node → List Bytes
  | .mk info nextScope array =>
    (if info.jsl = .array then [info.scopeName] else []) ++
      (treeArrayNames nextScope ++ itemArrayNames array)
def treeArrayNames : Avl Node → List Bytes
  | .nil => []
  | .node l node r _ => treeArrayNames l ++ (arrayNames node ++ treeArrayNames r)
def itemArrayNames : List Node → List Bytes
  | [] => []
  | node :: rest => arrayNames node ++ itemArrayNames rest
end

/-- The tree in memory. There is none when the copy of a name runs over the pointers of a
node, or over the end of its block. -/
def memoryOf (root : Avl Node) : Option (Avl Node) :=
  if ∀ name ∈ treeArrayNames root, name.length < jsonptrOffset then some (copiedTree root)
  else none

end Loader
