import Cfgd.Correspondence
import Cfgd.Payload
import Cfgd.ShownValues

/-!
# The files that are deleted with a value

A deletion below `proc.jess.checkpoint` also deletes the file with the deleted value as its
name. The server writes the names of checkpoint files there, but a client may write there
as well.
-/

namespace CheckpointFiles

open AvlTree CText CJson Request ConfigNode Loader FsImage Runtime DocTree DeleteRange Orders
open KeyShape Reach UpdateCases RegularTree AppendSteps DeleteSteps TreeWide ShownValues Catalog
open SearchSound Payload ItemNumbers Transition

variable {ν : Type}

section Keys

def jessName : Bytes := ofChars ['j', 'e', 's', 's']
def checkpointName : Bytes := ofChars ['c', 'h', 'e', 'c', 'k', 'p', 'o', 'i', 'n', 't']

/-- The names of a key whose deletion can delete a file. -/
def Guarded (keys : List Bytes) : Prop :=
  ∃ name rest, keys = procName :: jessName :: name :: rest ∧ checkpointName <+: name

instance (keys : List Bytes) : Decidable (Guarded keys) :=
  match keys with
  | proc :: jess :: name :: rest =>
    decidable_of_iff
      (proc = procName ∧ jess = jessName ∧ checkpointName.isPrefixOf name = true) <| by
      rw [List.isPrefixOf_iff_prefix]
      constructor
      · rintro ⟨rfl, rfl, start⟩
        exact ⟨name, rest, rfl, start⟩
      · rintro ⟨_, _, ⟨⟩, start⟩
        exact ⟨rfl, rfl, start⟩
  | [] => isFalse fun ⟨_, _, same, _⟩ => nomatch same
  | [_] => isFalse fun ⟨_, _, same, _⟩ => nomatch same
  | [_, _] => isFalse fun ⟨_, _, same, _⟩ => nomatch same

def keysOf (segms : List Segment) : List Bytes := segms.map fun segm => fold segm.name

theorem Guarded.append {keys : List Bytes} (h : Guarded keys) (more : List Bytes) :
    Guarded (keys ++ more) := by
  obtain ⟨name, rest, rfl, start⟩ := h
  exact ⟨name, rest ++ more, rfl, start⟩

theorem names_lastToField (segms : List Segment) :
    (lastToField segms).map Segment.name = segms.map Segment.name := by
  rw [lastToField]
  split
  · rfl
  · rename_i last final
    split
    · have whole : segms.dropLast ++ [last] = segms := List.dropLast_append_getLast? last final
      conv_rhs => rw [← whole]
      rw [List.map_append, List.map_append]
      rfl
    · rfl

/-- What stands in front of the brackets of a piece. -/
theorem prefix_of_analysis {piece start name : Bytes} {index : Int} (free : leftBracket ∉ start)
    (before : start <+: piece) (h : rtAnalysisArraySyntax piece = some (name, index)) :
    start <+: name := by
  obtain ⟨more, rfl⟩ := before
  have left : start <+: (start ++ more).takeWhile (· ≠ leftBracket) := by
    rw [List.takeWhile_append_of_pos]
    · exact List.prefix_append ..
    · intro c hc
      rw [decide_eq_true_eq]
      rintro rfl
      exact free hc
  have numeric : ∀ {before range : Bytes}, start <+: before →
      rtAnalysisArraySyntax.rtNumericIndex before range = some (name, index) → start <+: name := by
    intro before range found hn
    rw [rtAnalysisArraySyntax.rtNumericIndex] at hn
    split at hn
    · split at hn
      · cases hn
      · exact (Prod.mk.inj (Option.some.inj hn)).1 ▸ found
    · cases hn
  have named : ∀ {before range : Bytes}, rtIsArraySyntax (start ++ more) = .yes before range →
      start <+: before := by
    intro before range hy
    rw [rtIsArraySyntax] at hy
    split at hy
    · cases hy
    · split at hy
      · exact (ArraySyntax.yes.inj hy).1 ▸ left
      · cases hy
  rw [rtAnalysisArraySyntax] at h
  split at h
  · cases h
  · exact (Prod.mk.inj (Option.some.inj h)).1 ▸ List.prefix_append ..
  · rename_i hy
    split at h
    · exact (Prod.mk.inj (Option.some.inj h)).1 ▸ named hy
    · exact numeric (named hy) h
  · rename_i hy
    exact numeric (named hy) h

/-- One piece after the other. -/
theorem name_of_loop {depth : Nat} {previous : Option Segment} {piece : Bytes} {rest : List Bytes}
    {segms : List Segment} (h : rtSeparateLoop depth previous (piece :: rest) = some segms) :
    ∃ name index segm later, rtAnalysisArraySyntax piece = some (name, index) ∧ segm.name = name ∧
      segms = segm :: later ∧ rtSeparateLoop (depth + 1) (some segm) rest = some later := by
  obtain ⟨name, index, segm, later, _, analysed, _, hs, _, next, rfl⟩ := rtSeparateLoop_cons h
  refine ⟨name, index, segm, later, analysed, ?_, rfl, next⟩
  simp only [rtAnalyzeSegment, analysed] at hs
  split at hs
  · split at hs
    · exact (Option.some.inj hs) ▸ rfl
    · cases hs
  · split at hs
    · exact (Option.some.inj hs) ▸ rfl
    · cases hs
  · exact (Option.some.inj hs) ▸ rfl

theorem fold_prefix {start name : Bytes} (h : start <+: name) : fold start <+: fold name :=
  h.map _

/-- A key that begins with the text of `checkpointKey` has guarded names. -/
theorem guarded_of_key {key : Bytes} {segms : List Segment}
    (separated : rtSeparateSegment key = some segms) (start : checkpointKey <+: key) :
    Guarded (keysOf segms) := by
  obtain ⟨more, rfl⟩ := start
  have pieces : ∃ first rest, (checkpointKey ++ more).splitOn dot =
      procName :: jessName :: first :: rest ∧ checkpointName <+: first := by
    have split : checkpointKey ++ more =
        procName ++ dot :: (jessName ++ dot :: (checkpointName ++ more)) := rfl
    rw [split, List.splitOn_append_cons_self_of_not_mem (by decide),
      List.splitOn_append_cons_self_of_not_mem (by decide)]
    by_cases dots : dot ∈ more
    · obtain ⟨before, after, rfl, none⟩ := List.eq_append_cons_of_mem dots
      rw [← List.append_assoc, List.splitOn_append_cons_self_of_not_mem]
      · exact ⟨_, _, rfl, List.prefix_append ..⟩
      · exact fun mem => (List.mem_append.mp mem).elim (by decide) none
    · rw [List.splitOn_eq_singleton]
      · exact ⟨_, [], rfl, List.prefix_append ..⟩
      · exact fun mem => (List.mem_append.mp mem).elim (by decide) dots
  obtain ⟨first, rest, split, before⟩ := pieces
  have filled : checkpointKey ++ more ≠ [] := List.append_ne_nil_of_left_ne_nil (by decide) _
  rw [rtSeparateSegment, if_neg filled, split] at separated
  obtain ⟨raw, loop, rfl⟩ := Option.map_eq_some_iff.mp separated
  obtain ⟨proc, index, dir, later, analysed, named, rfl, loop₁⟩ := name_of_loop loop
  obtain ⟨jess, index', archive, later', analysed', named', rfl, loop₂⟩ := name_of_loop loop₁
  obtain ⟨name, index'', segm, later'', analysed'', named'', rfl, _⟩ := name_of_loop loop₂
  obtain rfl : procName = proc := by
    have same : rtAnalysisArraySyntax procName = some (procName, -1) := by decide +kernel
    exact congrArg Prod.fst (Option.some.inj (same.symm.trans analysed))
  obtain rfl : jessName = jess := by
    have same : rtAnalysisArraySyntax jessName = some (jessName, -1) := by decide +kernel
    exact congrArg Prod.fst (Option.some.inj (same.symm.trans analysed'))
  have starts := fold_prefix (prefix_of_analysis (by decide) before analysed'')
  have same : fold checkpointName = checkpointName ∧ fold procName = procName ∧
      fold jessName = jessName := by decide +kernel
  have keys : keysOf (lastToField (dir :: archive :: segm :: later'')) =
      ((lastToField (dir :: archive :: segm :: later'')).map Segment.name).map fold := by
    rw [List.map_map]
    rfl
  rw [keys, names_lastToField]
  simp only [List.map_cons, named, named', named'', same.2.1, same.2.2]
  exact ⟨_, _, rfl, same.1 ▸ starts⟩

end Keys

section Records
variable {world : World ν} {store : Store ν} {n c parent : Node} {segm : Segment} {v : Bytes}

theorem checkpoints_rtAppend (v : Bytes) (store : Store ν) (node : Node) (segms : List Segment) :
    (rtAppend v store node segms).store.deletedCheckpoints = store.deletedCheckpoints := by
  have appending : Appending fun (store : Store ν) r =>
      r.store.deletedCheckpoints = store.deletedCheckpoints :=
    { stops := fun _ _ _ _ _ => rfl
      allocates := fun _ same => same }
  have archiving : Archiving fun (store : Store ν) r =>
      r.store.deletedCheckpoints = store.deletedCheckpoints :=
    { refused := fun _ _ => rfl
      unmade := fun _ _ => rfl
      made := fun _ _ _ same => same }
  exact rtAppend_keeps appending v (fun _ => archiving) store node

variable [DoubleText ν]

theorem checkpoints_rtFieldUpdate (store : Store ν) (node : Node) (v : Bytes) :
    (rtFieldUpdate store node v).1.deletedCheckpoints = store.deletedCheckpoints := by
  obtain ⟨heap, same⟩ := rtFieldUpdate_store store v node
  rw [same]

theorem checkpoints_rtArrayFieldUpdate (store : Store ν) (node : Node) (which : Int) (v : Bytes) :
    (rtArrayFieldUpdate store node which v).1.deletedCheckpoints = store.deletedCheckpoints := by
  obtain ⟨heap, same⟩ := rtArrayFieldUpdate_store store v node which
  rw [same]

omit [DoubleText ν] in
theorem stepwise_checkpoints : Stepwise (ν := ν) fun store store' =>
    store'.deletedCheckpoints = store.deletedCheckpoints where
  refl _ := rfl
  trans first second := second.trans first
  scope _ _ _ _ := rfl
  array _ _ _ _ := rfl
  item _ _ _ _ := rfl

omit [DoubleText ν] in
theorem checkpoints_rtDelete {fuel : Nat} {deleted : Deleted ν}
    (call : rtDelete fuel store c parent segm = some deleted) :
    deleted.store.deletedCheckpoints = store.deletedCheckpoints := by
  have kept := rtDelete_keeps stepwise_checkpoints call
  rw [beforeDelete] at kept
  split at kept
  · exact kept
  · exact kept

omit [DoubleText ν] in
/-- The value of a deletion is that of the node, or of an item of the array. -/
theorem value_of_rtDelete {fuel : Nat} {deleted : Deleted ν}
    (call : rtDelete fuel store c parent segm = some deleted)
    (some' : deleted.oldvaluestring ≠ []) :
    deleted.oldvaluestring = c.info.scopeValue ∨
      ∃ e ∈ c.array, deleted.oldvaluestring = e.info.scopeValue := by
  cases rtDelete_cases call with
  | refused => exact absurd rfl some'
  | whole level text =>
    rcases text with text | rfl
    · exact Or.inl text
    · exact absurd rfl some'
  | archive => exact absurd rfl some'
  | item level index found => exact Or.inr ⟨_, mem_of_rtSeekArrayNode found, rfl⟩
  | entire => exact absurd rfl some'

/-- An update deletes no file, or that which a node below the key shows. -/
inductive Deleting (world : World ν) (jrp : Jrp) (checkpoints : List Bytes) : Prop where
  | none (same : checkpoints = world.store.deletedCheckpoints)
  | file {path : Path} {m : Node} (there : (rootNode world.root).getAt path = some m)
      (keys : scopeKeys path = keysOf jrp.segm) (start : checkpointKey <+: jrp.dupkey)
      (filled : m.info.scopeValue ≠ [])
      (same : checkpoints = m.info.scopeValue :: world.store.deletedCheckpoints)

theorem keys_of_walks {m : Node} {segms passed left : List Segment} {path : Path}
    (walk : Walks n segms path passed m left) : scopeKeys path ++ keysOf left = keysOf segms := by
  induction walk with
  | stop n segms => rfl
  | scope found level level' further ih =>
    rw [scopeKeys, List.cons_append, ih]
    rfl
  | item found level level' place entered further ih =>
    rw [scopeKeys, scopeKeys, List.cons_append, ih]
    rfl

theorem deleting_of_update {jrp : Jrp} {u : Updated ν} (regular : Regular 0 (rootNode world.root))
    (accepted : AcceptedKey jrp.segm) (done : rtConfigUpdate world jrp = some u) :
    Deleting world jrp u.world.store.deletedCheckpoints := by
  rw [rtConfigUpdate] at done
  split at done
  · obtain rfl := Option.some.inj done
    exact .none rfl
  rename_i v value
  split at done
  · obtain rfl := Option.some.inj done
    exact .none rfl
  split at done
  · obtain rfl := Option.some.inj done
    exact .none rfl
  rename_i reached hreach
  split at done
  · rename_i _ _ here last
    obtain ⟨path, passed, n, c, segm, walk, found, rfl, final, target⟩ :=
      found_at regular.built accepted hreach last
    have there := getAt_of_walks walk
    have place := getAt_member walk found
    have above : (path ++ [Step.scope (fold segm.name)]).dropLast = path := by simp
    rw [updateFound, place, above, there, final] at done
    dsimp only at done
    have keys : scopeKeys (path ++ [.scope (fold segm.name)]) = keysOf jrp.segm := by
      rw [scopeKeys_append, ← keys_of_walks walk]
      rfl
    split at done
    · obtain ⟨deleted, call, rfl⟩ := Option.map_eq_some_iff.mp done
      have kept : deleted.store.deletedCheckpoints = world.store.deletedCheckpoints :=
        checkpoints_rtDelete call
      dsimp only [World.modifyAt]
      split
      · rename_i records
        obtain ⟨_, _, start, filled⟩ := records
        have before := List.isPrefixOf_iff_prefix.mp start
        rcases value_of_rtDelete call filled with own | ⟨e, mem, item⟩
        · refine .file place keys before (own ▸ filled) ?_
          rw [own, kept]
        · obtain ⟨k, entered⟩ := List.getElem?_of_mem mem
          have below : (rootNode world.root).getAt
              (path ++ [.scope (fold segm.name)] ++ [.item k]) = some e := by
            rw [getAt_append, place, Option.bind_some, getAt_one]
            exact entered
          refine .file below ?_ before (item ▸ filled) ?_
          · rw [scopeKeys_append, keys]
            exact List.append_nil _
          · rw [item, kept]
      · exact .none kept
    · split at done
      · obtain rfl := Option.some.inj done
        exact .none (checkpoints_rtFieldUpdate ..)
      · split at done
        · obtain rfl := Option.some.inj done
          exact .none (checkpoints_rtArrayFieldUpdate ..)
        · obtain rfl := Option.some.inj done
          exact .none rfl
  · obtain rfl := Option.some.inj done
    rw [updateMissing]
    split
    · exact .none rfl
    · split
      · exact .none rfl
      · split
        · exact .none rfl
        · split
          · exact .none rfl
          · exact .none (checkpoints_rtAppend ..)
  · obtain rfl := Option.some.inj done
    exact .none rfl

end Records

section Server
variable [DoubleText ν]
variable (print : Item ν → Bytes) (version : Bytes)

/-- `procfs_config_update`. -/
def procfsConfigUpdate (world : World ν) (command : Bytes) : Option (World ν) :=
  let built := rtBuildJrp command
  match built.2 with
  | [] => some world
  | jrp :: _ => if built.1 ≠ 1 then some world else (rtConfigUpdate world jrp).map Updated.world

def versionKey : Bytes :=
  ofChars ['p', 'r', 'o', 'c', '.', 'j', 'e', 's', 's', '.', 'v', 'e', 'r', 's', 'i', 'o', 'n']

def addKey : Bytes := checkpointKey ++ ofChars ['[', '+', ']']

def pendingKey : Bytes :=
  ofChars ['p', 'r', 'o', 'c', '.', 'j', 'e', 's', 's', '.', 't', 'c', 'p', '_', 'm', 'a', 'x', '_',
    'p', 'e', 'n', 'd', 'i', 'n', 'g']

def timeoutKey : Bytes :=
  ofChars ['p', 'r', 'o', 'c', '.', 'j', 'e', 's', 's', '.', 't', 'c', 'p', '_', 'l', 'i', 'n', 'k',
    '_', 't', 'i', 'm', 'e', 'o', 'u', 't']

def command (key value : Bytes) : Bytes := key ++ equalSign :: value

def checkpointPrefix : Bytes :=
  ofChars ['j', 'e', 's', 's', '_', 'c', 'h', 'e', 'c', 'k', 'p', 'o', 'i', 'n', 't', '_']

/-- The files that `procfs_load_checkpoint` takes for checkpoint files. -/
def checkpointFiles (files : List Bytes) : List Bytes :=
  files.filter fun file => strncasecmp file checkpointPrefix checkpointPrefix.length = .eq

/-- What `procfs_mark_version`, `procfs_load_checkpoint` and `procfs_load_property` write. -/
def rebuildCommands (files : List Bytes) : List (Bytes × Bytes) :=
  [(versionKey, version), (checkpointKey, keywordDeleted)] ++
    (checkpointFiles files).map (fun file => (addKey, file)) ++
    [(pendingKey, ofChars ['1', '0']), (timeoutKey, ofChars ['6'])]

/-- The directory `proc` with its archives, in the tree. -/
def withProc (world : World ν) : World ν :=
  let ident := world.store.heap.nextAddr
  let jess := cjsonCreate { world.store.heap with nextAddr := ident + 1 } .cjsonObject
  let history := cjsonCreate (jess.1.addRoot jess.2) .cjsonObject
  let proc := procArchive (procArchive (ldrCreateDir ident procName) jess.2.addr jessName)
    history.2.addr (ofChars ['h', 'i', 's', 't', 'o', 'r', 'y'])
  ⟨avlinsert Node.scopeKey world.root proc,
    { world.store with heap := history.1.addRoot history.2 }⟩

def procfsRebuild (files : List Bytes) (world : World ν) : Option (World ν) :=
  (rebuildCommands version files).foldlM (fun world pair =>
    procfsConfigUpdate world (command pair.1 pair.2)) (withProc world)

structure Datetime where
  year : Nat
  month : Nat
  day : Nat
  hour : Nat
  minute : Nat
  second : Nat

/-- `%04d` and the like. -/
def padded (width n : Nat) : Bytes :=
  List.replicate (width - (printInt n).length) 48 ++ printInt n

/-- The name that `pro_create_checkpoint` makes. -/
def checkpointFile (time : Datetime) : Bytes :=
  checkpointPrefix ++ padded 4 time.year ++ padded 2 time.month ++ padded 2 time.day ++ [95] ++
    padded 2 time.hour ++ padded 2 time.minute ++ padded 2 time.second

/-- The server, with the names of the checkpoint files that it has made or found. -/
structure State (ν : Type) where
  world : World ν
  known : List Bytes

inductive Act (ν : Type) where
  | order (order : Order)
  /-- `procfs_add_checkpoint` for a file that was made. -/
  | checkpoint (time : Datetime)
  /-- The start, or the end of a recovery: the archives of the database and the files next
  to it are read. -/
  | load (images : List (DirImage ν)) (heap : Heap ν) (fs : FsLayout) (files : List Bytes)
  /-- A recovery that has removed the tree and then fails. -/
  | unload

def step (s : State ν) : Act ν → Option (State ν)
  | .order order => (Orders.step print s.world order).map fun world => ⟨world, s.known⟩
  | .checkpoint time =>
    (procfsConfigUpdate s.world (command addKey (checkpointFile time))).map fun world =>
      ⟨world, checkpointFile time :: s.known⟩
  | .load images heap fs files =>
    (procfsRebuild version files ⟨loadedRoot images,
      { heap := heap, fs := fs, freed := [],
        deletedCheckpoints := s.world.store.deletedCheckpoints }⟩).map fun world =>
      ⟨world, checkpointFiles files ++ s.known⟩
  | .unload => some ⟨⟨.nil, s.world.store⟩, s.known⟩

/-- Before anything is loaded. -/
def start : State ν :=
  ⟨⟨.nil, { heap := ⟨[], 1⟩, fs := .zero, freed := [], deletedCheckpoints := [] }⟩, []⟩

/-- One component of a path. -/
structure SingleName (name : Bytes) : Prop where
  filled : name ≠ []
  noSlash : posixDirSymbol ∉ name
  notHere : name ≠ [dot]
  notAbove : name ≠ [dot, dot]

/-- Every file that was deleted was a checkpoint file in the directory. -/
def Confined (s : State ν) : Prop :=
  ∀ name ∈ s.world.store.deletedCheckpoints, name ∈ s.known ∧ SingleName name

/-- Requests that `rt_build_jrp` has made, documents in memory, names of files. -/
def Possible : Act ν → Prop
  | .order order => Received order.jrp
  | .checkpoint _ => True
  | .load images heap _ files => Loadable images heap ∧ ∀ file ∈ files, posixDirSymbol ∉ file
  | .unload => True

/-- A text under a guarded key is the name of a known file. -/
def Vouched (known : List Bytes) (keys : List Bytes) (text : Bytes) : Prop :=
  Guarded keys → text = [] ∨ text ∈ known

/-- The condition: clients write no value under a guarded key, neither has the database one,
and no name of a file has a line break. -/
def Respects (s : State ν) : Act ν → Prop
  | .order order => ∀ jrp, order = .write jrp →
      jrp.valuestring = some keywordDeleted ∨ ¬ Guarded (keysOf jrp.segm)
  | .checkpoint _ => True
  | .load images _ _ files => (∀ file ∈ files, ¬ crlf <:+: file) ∧
      Shown (Vouched (checkpointFiles files ++ s.known)) [] (rootNode (loadedRoot images))
  | .unload => True

end Server

section Names
variable [DoubleText ν]

theorem noSlash_padded {width n : Nat} {b : UInt8} (h : b ∈ padded width n) :
    b ≠ posixDirSymbol ∧ b ≠ 13 := by
  rcases List.mem_append.mp h with zeros | digits
  · rw [List.eq_of_mem_replicate zeros]
    decide
  · rcases printInt_byte digits with digit | rfl
    · constructor <;> rintro rfl <;> exact absurd digit (by decide)
    · decide

theorem byte_checkpointFile {time : Datetime} {b : UInt8} (h : b ∈ checkpointFile time) :
    b ≠ posixDirSymbol ∧ b ≠ 13 := by
  have known : ∀ b ∈ checkpointPrefix ++ [95], b ≠ posixDirSymbol ∧ b ≠ 13 := by decide +kernel
  simp only [checkpointFile, List.mem_append] at h
  rcases h with ((((((start | year) | month) | day) | line) | hour) | minute) | second
  · exact known b (List.mem_append_left _ start)
  · exact noSlash_padded year
  · exact noSlash_padded month
  · exact noSlash_padded day
  · exact known b (List.mem_append_right _ line)
  · exact noSlash_padded hour
  · exact noSlash_padded minute
  · exact noSlash_padded second

theorem noCrlf_of_noCr {text : Bytes} (h : 13 ∉ text) : ¬ crlf <:+: text :=
  fun inside => h (inside.subset (List.mem_cons_self ..))

/-- A longer name is neither of the two that are short. -/
theorem singleName_of_length {name : Bytes} (long : 2 < name.length)
    (noSlash : posixDirSymbol ∉ name) : SingleName name := by
  refine ⟨?_, noSlash, ?_, ?_⟩ <;> rintro rfl <;> exact absurd long (by decide)

theorem singleName_checkpointFile (time : Datetime) : SingleName (checkpointFile time) := by
  refine singleName_of_length ?_ fun mem => (byte_checkpointFile mem).1 rfl
  have start : 2 < checkpointPrefix.length := by decide
  simp only [checkpointFile, List.length_append]
  omega

theorem singleName_of_checkpointFiles {files : List Bytes} {name : Bytes}
    (noSlash : ∀ file ∈ files, posixDirSymbol ∉ file) (mem : name ∈ checkpointFiles files) :
    SingleName name := by
  obtain ⟨inside, start⟩ := List.mem_filter.mp mem
  rw [decide_eq_true_eq, strncasecmp, strcasecmp_eq_iff, List.take_length] at start
  have length := congrArg List.length start
  simp only [fold, List.length_map, List.length_take] at length
  have long : 2 < checkpointPrefix.length := by decide
  exact singleName_of_length (by omega) (noSlash name inside)

/-- The request of a command. -/
theorem jrp_of_command {key value : Bytes} {jrp : Jrp} (noEqual : equalSign ∉ key)
    (h : rtCreateJrp (command key value) = some jrp) :
    jrp.dupkey = key ∧ jrp.valuestring = some value ∧ rtSeparateSegment key = some jrp.segm := by
  have describes := (rtCreateJrp_iff.mp h).2
  obtain ⟨split, valued⟩ := describes.pair (List.mem_append_right _ (List.mem_cons_self ..))
  have first : ∀ before after : Bytes, equalSign ∉ before →
      (before ++ equalSign :: after).takeWhile (· ≠ equalSign) = before := by
    intro before after free
    rw [List.takeWhile_append_of_pos, List.takeWhile_cons_of_neg (by simp), List.append_nil]
    intro c hc
    rw [decide_eq_true_eq]
    rintro rfl
    exact free hc
  have same : key = jrp.dupkey := by
    rw [← first key value noEqual, ← first jrp.dupkey jrp.dupvalue describes.noEqual]
    exact congrArg _ split
  rw [command, same] at split
  have values := (List.cons.inj (List.append_cancel_left split)).2
  exact ⟨same.symm, values ▸ valued, same ▸ describes.parsed⟩

/-- A command without a line break is one request, if it is any. -/
theorem procfsConfigUpdate_eq (world : World ν) {key value : Bytes} (noCr : 13 ∉ key)
    (plain : ¬ crlf <:+: value) : procfsConfigUpdate world (command key value) =
      match rtCreateJrp (command key value) with
      | none => some world
      | some jrp => (rtConfigUpdate world jrp).map Updated.world := by
  have line : Line (command key value) := by
    refine ⟨List.append_ne_nil_of_right_ne_nil _ (List.cons_ne_nil _ _), ?_⟩
    induction key with
    | nil =>
      rintro inside
      rcases List.infix_cons_iff.mp inside with start | later
      · obtain ⟨more, same⟩ := start
        cases same
      · exact plain later
    | cons c key ih =>
      rintro inside
      rcases List.infix_cons_iff.mp inside with start | later
      · obtain ⟨more, same⟩ := start
        obtain ⟨rfl, _⟩ := List.cons.inj same
        exact noCr (List.mem_cons_self ..)
      · exact ih (fun mem => noCr (List.mem_cons_of_mem _ mem)) later
  have built := @rtBuildJrp_lines [command key value] (by simpa using line) false
  have text : payloadOf [command key value] false = command key value := List.append_nil _
  have single : [command key value].length ≤ maxReqSect := by
    rw [List.length_singleton]
    decide
  rw [text, if_pos single] at built
  rw [procfsConfigUpdate, built]
  cases made : rtCreateJrp (command key value) <;> simp [made, builtOf]

end Names

section Invariant
variable {s : State ν} {world world' : World ν} {known : List Bytes} {jrp : Jrp}

/-- The server as it stays: every text under a guarded key is the name of a known file, and
so is every name that was deleted. -/
structure Sound (s : State ν) : Prop where
  regular : Regular 0 (rootNode s.world.root)
  shown : Shown (Vouched s.known) [] (rootNode s.world.root)
  deleted : ∀ name ∈ s.world.store.deletedCheckpoints, name ∈ s.known
  names : ∀ name ∈ s.known, SingleName name

theorem Sound.confined (h : Sound s) : Confined s :=
  fun name mem => ⟨h.deleted name mem, h.names name (h.deleted name mem)⟩

theorem vouched_short {keys : List Bytes} (short : keys.length ≤ 2) (text : Bytes) :
    Vouched known keys text := by
  rintro ⟨name, rest, rfl, _⟩
  simp at short

theorem Vouched.mono {known' keys : List Bytes} {text : Bytes} (h : Vouched known keys text)
    (more : known ⊆ known') : Vouched known' keys text :=
  fun guarded => (h guarded).imp id fun mem => more mem

theorem takes_of_plain {v : Bytes} {above : List Bytes} {segms : List Segment}
    (plain : ¬ Guarded (above ++ keysOf segms)) : Takes (Vouched known) v above segms := by
  induction segms generalizing above with
  | nil => trivial
  | cons segm rest ih =>
    have whole : above ++ keysOf (segm :: rest) = above ++ [fold segm.name] ++ keysOf rest := by
      rw [List.append_assoc]
      rfl
    rw [whole] at plain
    exact ⟨fun t _ guarded => absurd (guarded.append _) plain, ih plain⟩

variable [DoubleText ν]

/-- An update that puts vouched texts. -/
theorem sound_update {u : Updated ν} (h : Sound ⟨world, known⟩) (received : Received jrp)
    (separated : rtSeparateSegment jrp.dupkey = some jrp.segm)
    (takes : ∀ v, jrp.valuestring = some v → v ≠ keywordDeleted →
      Takes (Vouched known) v [] jrp.segm)
    (done : rtConfigUpdate world jrp = some u) : Sound ⟨u.world, known⟩ := by
  have accepted := received.accepted
  refine ⟨regular_update h.regular accepted done,
    shown_update h.shown h.regular accepted received.noDot takes done, ?_, h.names⟩
  cases deleting_of_update h.regular accepted done with
  | none same =>
    dsimp only
    rw [same]
    exact h.deleted
  | @file path m there keys start filled same =>
    dsimp only
    rw [same]
    refine List.forall_mem_cons.mpr ⟨?_, h.deleted⟩
    have shown := h.shown path m there
    rw [List.nil_append, keys] at shown
    exact (shown (guarded_of_key separated start)).resolve_left filled

theorem received_separated (received : Received jrp) :
    rtSeparateSegment jrp.dupkey = some jrp.segm := by
  obtain ⟨payload, parsed⟩ := received
  exact (rtCreateJrp_iff.mp parsed).2.parsed

theorem sound_command {key value : Bytes} (h : Sound ⟨world, known⟩) (noEqual : equalSign ∉ key)
    (noCr : 13 ∉ key) (plain : ¬ crlf <:+: value)
    (takes : ∀ segms, rtSeparateSegment key = some segms → value ≠ keywordDeleted →
      Takes (Vouched known) value [] segms)
    (done : procfsConfigUpdate world (command key value) = some world') :
    Sound ⟨world', known⟩ := by
  rw [procfsConfigUpdate_eq world noCr plain] at done
  split at done
  · obtain rfl := Option.some.inj done
    exact h
  · rename_i jrp parsed
    obtain ⟨u, updated, rfl⟩ := Option.map_eq_some_iff.mp done
    obtain ⟨own, valued, separated⟩ := jrp_of_command noEqual parsed
    refine sound_update h ⟨_, parsed⟩ (own.symm ▸ separated) ?_ updated
    intro v same other
    obtain rfl := Option.some.inj (valued.symm.trans same)
    exact takes _ separated other

/-- The name of a known file is added. -/
theorem sound_add {file : Bytes} (h : Sound ⟨world, known⟩) (mem : file ∈ known)
    (plain : ¬ crlf <:+: file)
    (done : procfsConfigUpdate world (command addKey file) = some world') :
    Sound ⟨world', known⟩ := by
  refine sound_command h (by decide) (by decide) plain ?_ done
  intro segms separated _
  have same : rtSeparateSegment addKey = some [⟨procName, -1, .dir⟩, ⟨jessName, -1, .archive⟩,
      ⟨checkpointName, jaSymAdd, .array⟩] := by decide +kernel
  obtain rfl := Option.some.inj (same.symm.trans separated)
  refine ⟨fun t _ => vouched_short (by simp) t, fun t _ => vouched_short (by simp) t, ?_, trivial⟩
  intro t put _
  cases put with
  | nothing => exact Or.inl rfl
  | value => exact Or.inr mem
  | place level more => exact absurd rfl more
  | archive level => cases level

/-- A command under a key that is not guarded. -/
theorem sound_other {key value : Bytes} (h : Sound ⟨world, known⟩) (noEqual : equalSign ∉ key)
    (noCr : 13 ∉ key) (plain : ¬ crlf <:+: value)
    (other : ∀ segms ∈ rtSeparateSegment key, ¬ Guarded (keysOf segms))
    (done : procfsConfigUpdate world (command key value) = some world') :
    Sound ⟨world', known⟩ :=
  sound_command h noEqual noCr plain
    (fun segms separated _ => takes_of_plain (other segms separated))
    done

theorem sound_commands {version : Bytes} (plain : ¬ crlf <:+: version) {files : List Bytes}
    (names : ∀ file ∈ files, ¬ crlf <:+: file) (mem : ∀ file ∈ checkpointFiles files, file ∈ known)
    (h : Sound ⟨world, known⟩)
    (done : (rebuildCommands version files).foldlM (fun world pair =>
      procfsConfigUpdate world (command pair.1 pair.2)) world = some world') :
    Sound ⟨world', known⟩ := by
  have each : ∀ pair ∈ rebuildCommands version files, ∀ world world' : World ν,
      Sound ⟨world, known⟩ → procfsConfigUpdate world (command pair.1 pair.2) = some world' →
        Sound ⟨world', known⟩ := by
    intro pair inside world world' h done
    simp only [rebuildCommands, List.mem_append, List.mem_cons, List.not_mem_nil, or_false,
      List.mem_map] at inside
    rcases inside with ((rfl | rfl) | ⟨file, found, rfl⟩) | rfl | rfl
    · dsimp only at done
      exact sound_other h (by decide) (by decide) plain (by decide +kernel) done
    · refine sound_command h (by decide) (by decide) (by decide) ?_ done
      exact fun _ _ other => absurd rfl other
    · exact sound_add h (mem file found) (names file (List.mem_filter.mp found).1) done
    · exact sound_other h (by decide) (by decide) (by decide) (by decide +kernel) done
    · exact sound_other h (by decide) (by decide) (by decide) (by decide +kernel) done
  generalize rebuildCommands version files = pairs at each done
  induction pairs generalizing world with
  | nil =>
    obtain rfl := Option.some.inj done
    exact h
  | cons pair rest ih =>
    obtain ⟨next, first, later⟩ := Option.bind_eq_some_iff.mp done
    exact ih (each pair (List.mem_cons_self ..) world next h first)
      (fun pair mem => each pair (List.mem_cons_of_mem _ mem)) later

end Invariant

section Directories
variable {world world' : World ν} {known : List Bytes} {jrp : Jrp} {answered : Answered ν}

/-- What `pro_mkdir` and `pro_rmdir` do to the tree. -/
inductive DirEdit (root : Avl Node) : Avl Node → Prop where
  | same : DirEdit root root
  | made (ident : Nat) (name : Bytes) :
      DirEdit root (avlinsert Node.scopeKey root (ldrCreateDir ident name))
  | removed {root' : Avl Node} (name : Bytes)
      (after : rootNode root' = removeScope (rootNode root) name) : DirEdit root root'
  | cleared : DirEdit root .nil

theorem edit_mkdir (done : proMkdir world jrp = some answered) :
    DirEdit world.root answered.world.root ∧
      answered.world.store.deletedCheckpoints = world.store.deletedCheckpoints := by
  rw [proMkdir] at done
  split at done
  · obtain rfl := Option.some.inj done
    exact ⟨.same, rfl⟩
  · obtain ⟨result, call, rfl⟩ := Option.map_eq_some_iff.mp done
    rw [rtCreateDir] at call
    split at call
    · obtain ⟨⟨fs, id⟩, _, rfl⟩ := Option.map_eq_some_iff.mp call
      dsimp only [answerDir]
      split
      · exact ⟨.same, rfl⟩
      · exact ⟨.made _ _, rfl⟩
    · obtain rfl := Option.some.inj call
      exact ⟨.same, rfl⟩

theorem checkpoints_rtDeleteDir {dir : Node} {tree : Avl Node} (level : dir.info.jsl = .dir)
    (done : rtDeleteDir world dir = some (world', tree)) :
    world'.store.deletedCheckpoints = world.store.deletedCheckpoints := by
  obtain ⟨_, _, store, last, freed, kept⟩ := rtDeleteDir_spec stepwise_checkpoints level done
  rw [freed]
  exact kept

theorem edit_rmdir (regular : Regular 0 (rootNode world.root))
    (done : proRmdir world jrp = some answered) :
    DirEdit world.root answered.world.root ∧
      answered.world.store.deletedCheckpoints = world.store.deletedCheckpoints := by
  rw [proRmdir] at done
  split at done
  · obtain rfl := Option.some.inj done
    exact ⟨.same, rfl⟩
  · obtain ⟨result, call, rfl⟩ := Option.map_eq_some_iff.mp done
    have removed := rtRemoveDir_cases regular call
    dsimp only [answerDir]
    generalize result.1 = after at removed
    cases removed with
    | refused => exact ⟨.same, rfl⟩
    | cleared loop =>
      obtain ⟨empty, kept⟩ := removeDirs_keeps
        (P := fun w => w.store.deletedCheckpoints = world.store.deletedCheckpoints)
        (fun level same call => (checkpoints_rtDeleteDir level call).trans same) regular rfl loop
      dsimp only
      rw [empty]
      exact ⟨.cleared, kept⟩
    | removed found call =>
      have level := (regular.follow found).here.stands
      exact ⟨.removed _ (rtDeleteDir_spec stepwise_checkpoints level call).2.1,
        checkpoints_rtDeleteDir level call⟩

theorem shown_nil {P : List Bytes → Bytes → Prop} (root : P [] []) :
    Shown P [] (rootNode .nil) := everywhere_leaf rfl rfl root

theorem sound_dirEdit (h : Sound ⟨world, known⟩) (edit : DirEdit world.root world'.root)
    (same : world'.store.deletedCheckpoints = world.store.deletedCheckpoints) :
    Sound ⟨world', known⟩ := by
  have tree : Regular 0 (rootNode world'.root) ∧
      Shown (Vouched known) [] (rootNode world'.root) := by
    generalize world'.root = root' at edit
    cases edit with
    | same => exact ⟨h.regular, h.shown⟩
    | made ident name =>
      have regular : Regular 1 (ldrCreateDir ident name) := regular_leaf rfl rfl rfl rfl
      refine ⟨regular_insertScope (n := rootNode world.root) h.regular regular
        (not_isItem (rfl : (ldrCreateDir ident name).info.jsl = .dir) nofun nofun) nofun, ?_⟩
      exact everywhere_insertScope (n := rootNode world.root) h.shown h.regular.here.ordered
        (everywhere_leaf rfl rfl (vouched_short (by simp) _))
    | removed name after =>
      rw [after]
      exact ⟨regular_removeScope h.regular _,
        everywhere_removeScope h.shown h.regular.here.ordered _⟩
    | cleared => exact ⟨regular_nil, shown_nil (vouched_short (by simp) _)⟩
  refine ⟨tree.1, tree.2, ?_, h.names⟩
  dsimp only
  rw [same]
  exact h.deleted

/-- An archive of `proc` that was just made. -/
theorem shown_procArchive {proc : Node} (regular : Regular 1 proc)
    (h : Shown (Vouched known) [proc.scopeKey] proc) (addr : Addr) (name : Bytes) :
    Shown (Vouched known) [proc.scopeKey] (procArchive proc addr name) := by
  rw [procArchive]
  cases made : archiveNode proc name addr addr with
  | none => exact h
  | some archive =>
    have leaf : archive.nextScope = .nil ∧ archive.array = [] := by
      simp only [archiveNode] at made
      split at made
      · cases made
      · obtain rfl := Option.some.inj made
        exact ⟨rfl, rfl⟩
    exact everywhere_insertScope h regular.here.ordered
      (everywhere_leaf leaf.1 leaf.2 (vouched_short (by simp) _))

theorem scopeKey_procArchive (proc : Node) (addr : Addr) (name : Bytes) :
    (procArchive proc addr name).scopeKey = proc.scopeKey := by
  rw [procArchive]
  cases archiveNode proc name addr addr with
  | none => rfl
  | some archive => rw [Node.scopeKey, insertScope_info, Node.scopeKey]

theorem sound_withProc (h : Sound ⟨world, known⟩) : Sound ⟨withProc world, known⟩ := by
  have noSections : ∀ n : Node,
      n ∈ (ldrCreateDir world.store.heap.nextAddr procName).nextScope.toList →
      n.info.fsSection < 0 := nofun
  have bare : Regular 1 (ldrCreateDir world.store.heap.nextAddr procName) :=
    regular_leaf rfl rfl rfl rfl
  have first := Correspondence.outside_procArchive (world.store.heap.nextAddr + 1) jessName bare
    noSections
  have second := Correspondence.outside_procArchive (world.store.heap.nextAddr + 2)
    (ofChars ['h', 'i', 's', 't', 'o', 'r', 'y']) first.1 first.2
  have empty : Shown (Vouched known) [(ldrCreateDir world.store.heap.nextAddr procName).scopeKey]
      (ldrCreateDir world.store.heap.nextAddr procName) :=
    everywhere_leaf rfl rfl (vouched_short (by simp) _)
  have shown := shown_procArchive bare empty (world.store.heap.nextAddr + 1) jessName
  rw [← scopeKey_procArchive _ (world.store.heap.nextAddr + 1) jessName] at shown
  have shown' := shown_procArchive first.1 shown (world.store.heap.nextAddr + 2)
    (ofChars ['h', 'i', 's', 't', 'o', 'r', 'y'])
  rw [← scopeKey_procArchive _ (world.store.heap.nextAddr + 2)] at shown'
  refine ⟨regular_insertScope (n := rootNode world.root) h.regular second.1 ?_ nofun,
    everywhere_insertScope (n := rootNode world.root) h.shown h.regular.here.ordered shown',
    h.deleted, h.names⟩
  exact not_isItem (second.1.here.stands : _ = Jsl.dir) nofun nofun

end Directories

section Runs
variable {print : Item ν → Bytes} {version : Bytes} {s s' : State ν} {act : Act ν}

theorem sound_start : Sound (start : State ν) :=
  ⟨regular_nil, shown_nil (vouched_short (by simp) _), nofun, nofun⟩

theorem Sound.more {world : World ν} {known known' : List Bytes} (h : Sound ⟨world, known⟩)
    (more : known ⊆ known') (names : ∀ name ∈ known', SingleName name) : Sound ⟨world, known'⟩ :=
  ⟨h.regular, Everywhere.mono (fun _ _ _ vouched => Vouched.mono vouched more) h.shown,
    fun name mem => more (h.deleted name mem), names⟩

variable [DoubleText ν]

/-- A request of a client. -/
theorem sound_order {order : Order} {world' : World ν} (h : Sound s) (received : Received order.jrp)
    (respects : ∀ jrp, order = .write jrp →
      jrp.valuestring = some keywordDeleted ∨ ¬ Guarded (keysOf jrp.segm))
    (done : Orders.step print s.world order = some world') : Sound ⟨world', s.known⟩ := by
  obtain ⟨answered, served, rfl⟩ := Option.map_eq_some_iff.mp done
  cases order with
  | mkdir jrp =>
    obtain ⟨edit, same⟩ := edit_mkdir served
    exact sound_dirEdit h edit same
  | rmdir jrp =>
    obtain ⟨edit, same⟩ := edit_rmdir h.regular served
    exact sound_dirEdit h edit same
  | write jrp =>
    have served : proVariableWrite print s.world jrp = some answered := served
    rw [proVariableWrite] at served
    split at served
    · obtain rfl := Option.some.inj served
      exact h
    · obtain ⟨u, updated, rfl⟩ := Option.map_eq_some_iff.mp served
      have after : Sound ⟨u.world, s.known⟩ := by
        refine sound_update h received (received_separated received) ?_ updated
        intro v value other
        rcases respects jrp rfl with keyword | plain
        · exact absurd (Option.some.inj (value.symm.trans keyword)) other
        · exact takes_of_plain plain
      split
      · exact after
      · split
        · rw [saveArchive]
          split
          · exact after
          · exact ⟨after.regular, after.shown, after.deleted, after.names⟩
        · exact after

theorem sound_step (plain : ¬ crlf <:+: version) (h : Sound s) (possible : Possible act)
    (respects : Respects s act) (done : step print version s act = some s') : Sound s' := by
  cases act with
  | order order =>
    obtain ⟨world', served, rfl⟩ := Option.map_eq_some_iff.mp done
    exact sound_order h possible respects served
  | checkpoint time =>
    obtain ⟨world', added, rfl⟩ := Option.map_eq_some_iff.mp done
    have more : Sound ⟨s.world, checkpointFile time :: s.known⟩ :=
      h.more (List.subset_cons_self ..)
        (List.forall_mem_cons.mpr ⟨singleName_checkpointFile time, h.names⟩)
    exact sound_add more (List.mem_cons_self ..)
      (noCrlf_of_noCr fun mem => (byte_checkpointFile mem).2 rfl) added
  | load images heap fs files =>
    obtain ⟨world', rebuilt, rfl⟩ := Option.map_eq_some_iff.mp done
    obtain ⟨loadable, noSlash⟩ := possible
    obtain ⟨names, shown⟩ := respects
    have loaded : Sound (ν := ν) ⟨⟨loadedRoot images,
        { heap := heap, fs := fs, freed := [],
          deletedCheckpoints := s.world.store.deletedCheckpoints }⟩,
        checkpointFiles files ++ s.known⟩ := by
      refine ⟨(fine_loadedRoot loadable).regular, shown,
        fun name mem => List.mem_append_right _ (h.deleted name mem), fun name mem => ?_⟩
      rcases List.mem_append.mp mem with found | old
      · exact singleName_of_checkpointFiles noSlash found
      · exact h.names name old
    exact sound_commands plain names (fun file mem => List.mem_append_left _ mem)
      (sound_withProc loaded) rebuilt
  | unload =>
    obtain rfl := Option.some.inj done
    exact ⟨regular_nil, shown_nil (vouched_short (by simp) _), h.deleted, h.names⟩

/-- In every run in which no client and no database puts a value under a guarded key, only
checkpoint files are deleted. -/
theorem always_confined (plain : ¬ crlf <:+: version) {acts : List (Act ν)}
    (possible : ∀ act ∈ acts, Possible act)
    (respects : Along (step print version) Respects start acts) :
    Always (step print version) Confined start acts := by
  have along : ∀ {s : State ν} {acts : List (Act ν)}, (∀ act ∈ acts, Possible act) →
      Along (step print version) Respects s acts →
      Along (step print version) (fun s act => Possible act ∧ Respects s act) s acts := by
    intro s acts
    induction acts generalizing s with
    | nil => exact fun _ _ => trivial
    | cons act rest ih =>
      intro possible respects
      exact ⟨⟨possible act (List.mem_cons_self ..), respects.1⟩, fun t done =>
        ih (fun act mem => possible act (List.mem_cons_of_mem _ mem)) (respects.2 t done)⟩
  exact always_mono (fun _ h => h.confined) (always_of_along
    (fun s act s' h ok done => sound_step plain h ok.1 ok.2 done) sound_start
    (along possible respects))

end Runs

section Attack

def oneText : Item Nat → Bytes := fun _ => []

/-- A server without archives, next to one checkpoint file. -/
def bootAct : Act Nat :=
  .load [] ⟨[], 1⟩ .zero [checkpointFile ⟨2019, 11, 26, 16, 49, 58⟩, ofChars ['x']]

/-- `proc.jess.checkpoint[+]=../x` -/
def plantJrp : Jrp where
  segm := [⟨procName, -1, .dir⟩, ⟨jessName, -1, .archive⟩, ⟨checkpointName, jaSymAdd, .array⟩]
  valuestring := some (ofChars ['.', '.', '/', 'x'])
  dupkey := addKey
  dupvalue := ofChars ['.', '.', '/', 'x']

/-- `proc.jess.checkpoint[$]=deleted` -/
def lastJrp : Jrp where
  segm := [⟨procName, -1, .dir⟩, ⟨jessName, -1, .archive⟩, ⟨checkpointName, jaSymLast, .array⟩]
  valuestring := some keywordDeleted
  dupkey := checkpointKey ++ ofChars ['[', '$', ']']
  dupvalue := keywordDeleted

theorem plant_received : rtCreateJrp (command addKey (ofChars ['.', '.', '/', 'x'])) =
    some plantJrp := by
  decide +kernel

theorem last_received : rtCreateJrp (command (checkpointKey ++ ofChars ['[', '$', ']'])
    keywordDeleted) = some lastJrp := by
  decide +kernel

def attack : List (Act Nat) := [bootAct, .order (.write plantJrp), .order (.write lastJrp)]

theorem attack_run : (run (step oneText (ofChars ['1'])) start attack).map
    (fun s => (s.world.store.deletedCheckpoints, s.known)) =
      some ([ofChars ['.', '.', '/', 'x']], [checkpointFile ⟨2019, 11, 26, 16, 49, 58⟩]) := by
  decide +kernel

theorem boot_possible : Possible bootAct := by
  refine ⟨⟨⟨by decide, by decide⟩, nofun, nofun⟩, ?_⟩
  decide +kernel

/-- A client puts a path in the list and has the file deleted. -/
theorem not_always_confined : ¬ ∀ (version : Bytes) (acts : List (Act Nat)),
    ¬ crlf <:+: version → (∀ act ∈ acts, Possible act) →
    Always (step oneText version) Confined start acts := by
  intro claim
  have possible : ∀ act ∈ attack, Possible act := by
    refine List.forall_mem_cons.mpr ⟨boot_possible, ?_⟩
    exact List.forall_mem_cons.mpr ⟨⟨_, plant_received⟩,
      List.forall_mem_cons.mpr ⟨⟨_, last_received⟩, nofun⟩⟩
  obtain ⟨s, ends, shown⟩ := Option.map_eq_some_iff.mp attack_run
  obtain ⟨deleted, known⟩ := Prod.mk.inj shown
  have confined := always_end (claim (ofChars ['1']) attack (by decide) possible) ends
  rw [Confined, deleted] at confined
  have mem := (confined (ofChars ['.', '.', '/', 'x']) (List.mem_cons_self ..)).1
  rw [known] at mem
  exact absurd mem (by decide +kernel)

/-- A checkpoint that is made and then deleted. -/
def madeAndDeleted : List (Act Nat) :=
  [bootAct, .checkpoint ⟨2020, 1, 2, 3, 4, 5⟩, .order (.write lastJrp)]

theorem always_confined_madeAndDeleted :
    Always (step oneText (ofChars ['1'])) Confined start madeAndDeleted := by
  refine always_confined (by decide) ?_ ?_
  · refine List.forall_mem_cons.mpr ⟨boot_possible, ?_⟩
    exact List.forall_mem_cons.mpr ⟨trivial, List.forall_mem_cons.mpr ⟨⟨_, last_received⟩, nofun⟩⟩
  · refine ⟨⟨by decide +kernel, shown_nil (vouched_short (by simp) _)⟩, fun _ _ => ⟨trivial, ?_⟩⟩
    refine fun _ _ => ⟨?_, fun _ _ => trivial⟩
    rintro jrp ⟨⟩
    exact Or.inl rfl

end Attack

end CheckpointFiles
