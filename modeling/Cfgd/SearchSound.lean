import Cfgd.DocSearch
import Cfgd.KeyShape

/-!
# What a key denotes in the whole configuration

The configuration as the filesystem holds it: directories, archives and their
documents. On the tree that is loaded from it `rt_search` finds only keys that
denote something there, unless a key arrives at an element of an array that is
null, true, false or an array itself: for those `rt_search` leaves its loop with
the answer 0.
-/

namespace SearchSound

open AvlTree CText CJson Request ConfigNode Loader Runtime DocTree DocSearch KeyShape

variable {ν : Type} [DoubleText ν]

/-- The path of an archive fits into the value of its node; the loader skips it otherwise. -/
def archiveFits (dir : DirImage ν) (image : ArchiveImage ν) : Bool :=
  ((loadedDir dir.ident dir.name).info.scopeValue ++ archiveScopeName image.name ++
    jsonExtension).length < maxValueSize

def dirOf (images : List (DirImage ν)) (key : Bytes) : Option (DirImage ν) :=
  images.find? fun dir => fold dir.name = key

def archiveOf (dir : DirImage ν) (key : Bytes) : Option (ArchiveImage ν) :=
  dir.archives.find? fun image => archiveFits dir image ∧ fold (archiveScopeName image.name) = key

/-- The key denotes a directory, an archive, or something in the document of one. -/
inductive KeyDenotes (images : List (DirImage ν)) : List Segment → Prop where
  | dir {segm : Segment} {dir : DirImage ν} (found : dirOf images (fold segm.name) = some dir) :
      KeyDenotes images [segm]
  | archive {segm segm' : Segment} {dir : DirImage ν} {archive : ArchiveImage ν}
      (found : dirOf images (fold segm.name) = some dir)
      (found' : archiveOf dir (fold segm'.name) = some archive) :
      KeyDenotes images [segm, segm']
  | below {segm segm' : Segment} {rest : List Segment} {dir : DirImage ν}
      {archive : ArchiveImage ν} {v : Bytes}
      (found : dirOf images (fold segm.name) = some dir)
      (found' : archiveOf dir (fold segm'.name) = some archive)
      (below : Denotes (topMembers archive.document) rest v) :
      KeyDenotes images (segm :: segm' :: rest)

/-- The key arrives at an element that is no object, string or number. -/
inductive KeyArrivesAtOdd (images : List (DirImage ν)) : List Segment → Prop where
  | below {segm segm' : Segment} {rest : List Segment} {dir : DirImage ν}
      {archive : ArchiveImage ν} (found : dirOf images (fold segm.name) = some dir)
      (found' : archiveOf dir (fold segm'.name) = some archive)
      (below : ArrivesAtOdd (topMembers archive.document) rest) :
      KeyArrivesAtOdd images (segm :: segm' :: rest)

/-- A key that arrives at an odd element denotes nothing. -/
theorem not_keyDenotes_of_odd {images : List (DirImage ν)} {segms : List Segment}
    (odd : KeyArrivesAtOdd images segms) : ¬ KeyDenotes images segms := by
  intro denotes
  obtain ⟨found, found', odd⟩ := odd
  cases denotes with
  | archive _ _ => exact ne_nil_of_odd odd rfl
  | below found₂ found₂' below =>
    obtain rfl := Option.some.inj (found.symm.trans found₂)
    obtain rfl := Option.some.inj (found'.symm.trans found₂')
    exact not_denotes_of_odd odd _ below

section Loaded

/-- The node of an archive with everything below it. -/
def archiveImageNode (dir : Node) (image : ArchiveImage ν) : Option Node :=
  (archiveNode dir image.name image.document.addr image.document.addr).map fun archive =>
    ldrLoadArchive (archive.setInfo fun info => { info with fsSection := image.fsSection })
      image.document

def dirImageNode (image : DirImage ν) : Node :=
  ldrFilesystemLoadArchive (loadedDir image.ident image.name) image.archives

def loadedRoot (images : List (DirImage ν)) : Avl Node :=
  (ldrFilesystemLoadDir (rootNode .nil) images).nextScope

theorem archiveImageNode_congr {dir dir' : Node} (same : dir.info = dir'.info)
    (image : ArchiveImage ν) : archiveImageNode dir image = archiveImageNode dir' image := by
  simp only [archiveImageNode, archiveNode, same]

theorem ldrFilesystemLoadArchive_eq (dir : Node) (images : List (ArchiveImage ν)) :
    ldrFilesystemLoadArchive dir images =
      (images.filterMap (archiveImageNode dir)).foldl insertScope dir := by
  induction images generalizing dir with
  | nil => rfl
  | cons image rest ih =>
    rw [ldrFilesystemLoadArchive, List.filterMap_cons]
    cases hn : archiveNode dir image.name image.document.addr image.document.addr with
    | none =>
      have skipped : archiveImageNode dir image = none := by rw [archiveImageNode, hn]; rfl
      rw [skipped]
      exact ih dir
    | some archive =>
      have loads : archiveImageNode dir image = some (ldrLoadArchive
          (archive.setInfo fun info => { info with fsSection := image.fsSection })
          image.document) := by rw [archiveImageNode, hn]; rfl
      rw [loads, List.foldl_cons]
      dsimp only
      rw [ih]
      refine congrArg (List.foldl insertScope _) (List.filterMap_congr fun image' _ => ?_)
      exact archiveImageNode_congr (insertScope_info dir _) image'

theorem ldrFilesystemLoadDir_eq (root : Node) (images : List (DirImage ν)) :
    ldrFilesystemLoadDir root images = (images.map dirImageNode).foldl insertScope root := by
  induction images generalizing root with
  | nil => rfl
  | cons image rest ih => rw [ldrFilesystemLoadDir, ih, List.map_cons, List.foldl_cons]; rfl

theorem dirImageNode_info (image : DirImage ν) :
    (dirImageNode image).info = (loadedDir image.ident image.name).info := by
  rw [dirImageNode, ldrFilesystemLoadArchive_eq, insertScopes_info]

/-- What the node of an archive shows, when the archive is loaded. -/
theorem archiveImageNode_spec (dir : DirImage ν) (image : ArchiveImage ν) :
    (archiveFits dir image = false →
        archiveImageNode (loadedDir dir.ident dir.name) image = none) ∧
      (archiveFits dir image = true → ∃ archive node,
        archiveImageNode (loadedDir dir.ident dir.name) image = some node ∧
        node = ldrLoadArchive archive image.document ∧ archive.nextScope = .nil ∧
        node.info.jsl = .archive ∧ node.scopeKey = fold (archiveScopeName image.name)) := by
  constructor
  · intro long
    simp only [archiveFits, decide_eq_false_iff_not, Nat.not_lt] at long
    simp only [archiveImageNode, archiveNode]
    rw [if_pos (Or.inr long)]
    rfl
  · intro fits
    simp only [archiveFits, decide_eq_true_eq] at fits
    have accepted : ¬ ((loadedDir dir.ident dir.name).info.jsl ≠ .dir ∨ maxValueSize ≤
        ((loadedDir dir.ident dir.name).info.scopeValue ++ archiveScopeName image.name ++
          jsonExtension).length) := by
      rintro (h | h)
      · exact h rfl
      · omega
    simp only [archiveImageNode, archiveNode]
    rw [if_neg accepted]
    refine ⟨_, _, rfl, rfl, rfl, ?_, ?_⟩
    · exact congrArg NodeInfo.jsl (kept_ldrNextMisc [image.document] none _).1
    · exact congrArg (fun info : NodeInfo => fold info.scopeName)
        (kept_ldrNextMisc [image.document] none _).1

theorem search_dir (images : List (DirImage ν)) (name : Bytes) :
    searchScope (loadedRoot images) name = (dirOf images (fold name)).map dirImageNode := by
  have key : ∀ image : DirImage ν, (dirImageNode image).scopeKey = fold image.name :=
    fun image => congrArg (fun info : NodeInfo => fold info.scopeName) (dirImageNode_info image)
  rw [loadedRoot, searchScope_eq_follow, ldrFilesystemLoadDir_eq,
    follow_insertScopes (ordered_nil _)]
  rw [dirOf, List.find?_map]
  simp only [Function.comp_def, key]
  rfl

theorem search_archive (dir : DirImage ν) (name : Bytes) :
    searchScope (dirImageNode dir).nextScope name =
      (archiveOf dir (fold name)).bind (archiveImageNode (loadedDir dir.ident dir.name)) := by
  have key : ∀ image : ArchiveImage ν,
      ((archiveImageNode (loadedDir dir.ident dir.name) image).any
        fun node => node.scopeKey = fold name) =
      decide (archiveFits dir image ∧ fold (archiveScopeName image.name) = fold name) := by
    intro image
    obtain ⟨skipped, loads⟩ := archiveImageNode_spec dir image
    cases fits : archiveFits dir image with
    | false => simp [skipped fits]
    | true =>
      obtain ⟨_, node, hn, _, _, _, hkey⟩ := loads fits
      simp [hn, hkey]
  rw [searchScope_eq_follow, dirImageNode, ldrFilesystemLoadArchive_eq,
    follow_insertScopes (ordered_nil _), List.find?_filterMap, archiveOf]
  simp only [key]
  rfl

/-- The directories are the first level of the loaded tree. -/
theorem rtSearchLoop_dir (images : List (DirImage ν)) (retval : Int) (dupvalue : Bytes)
    (segm : Segment) (rest : List Segment) :
    rtSearchLoop retval (loadedRoot images) dupvalue (segm :: rest) =
      match dirOf images (fold segm.name) with
      | none => (-1, dupvalue)
      | some dir => if rest = [] then (0, (dirImageNode dir).info.scopeValue)
        else rtSearchLoop 0 (dirImageNode dir).nextScope dupvalue rest := by
  rw [rtSearchLoop, search_dir]
  cases dirOf images (fold segm.name) with
  | none => rfl
  | some dir =>
    have level : (dirImageNode dir).info.jsl = .dir := by rw [dirImageNode_info]; rfl
    simp only [Option.map_some, level]

/-- The archives are the second level, and hold the members of their documents. -/
theorem rtSearchLoop_archive (dir : DirImage ν) (retval : Int) (dupvalue : Bytes)
    (segm : Segment) (rest : List Segment)
    (loaded : ∀ image ∈ dir.archives, Producible image.document ∧ image.document.string = none) :
    match archiveOf dir (fold segm.name) with
    | none => rtSearchLoop retval (dirImageNode dir).nextScope dupvalue (segm :: rest) =
        (-1, dupvalue)
    | some image => ∃ tree : Avl Node, Holds tree (topMembers image.document) ∧
        (rest = [] →
          (rtSearchLoop retval (dirImageNode dir).nextScope dupvalue (segm :: rest)).1 = 0) ∧
        (rest ≠ [] → rtSearchLoop retval (dirImageNode dir).nextScope dupvalue (segm :: rest) =
          rtSearchLoop 0 tree dupvalue rest) := by
  rw [rtSearchLoop, search_archive]
  cases found : archiveOf dir (fold segm.name) with
  | none => rfl
  | some image =>
    have right := List.find?_some found
    simp only [decide_eq_true_eq] at right
    obtain ⟨archive, node, hn, rfl, empty, level, _⟩ := (archiveImageNode_spec dir image).2 right.1
    obtain ⟨shape, root⟩ := loaded image (List.mem_of_find?_eq_some found)
    refine ⟨_, holds_ldrLoadArchive shape root empty, ?_, ?_⟩
    · intro last
      simp [hn, level, last]
    · intro more
      simp [hn, level, more]

end Loaded

/-- A key that is answered with success denotes something, or arrives at an odd element. -/
theorem keyDenotes_or_odd {images : List (DirImage ν)}
    (loaded : ∀ dir ∈ images, ∀ image ∈ dir.archives,
      Producible image.document ∧ image.document.string = none)
    {segms : List Segment} (some_segm : segms ≠ []) {dupvalue : Bytes}
    (success : 0 ≤ (rtSearchLoop 0 (loadedRoot images) dupvalue segms).1) :
    KeyDenotes images segms ∨ KeyArrivesAtOdd images segms := by
  obtain ⟨segm, rest, rfl⟩ := List.exists_cons_of_ne_nil some_segm
  rw [rtSearchLoop_dir] at success
  cases found : dirOf images (fold segm.name) with
  | none => simp [found] at success
  | some dir =>
    cases rest with
    | nil => exact Or.inl (.dir found)
    | cons segm' rest =>
      simp only [found, List.cons_ne_nil, if_false] at success
      have archives := rtSearchLoop_archive dir 0 dupvalue segm' rest
        (loaded dir (List.mem_of_find?_eq_some found))
      cases found' : archiveOf dir (fold segm'.name) with
      | none =>
        simp only [found'] at archives
        simp [archives] at success
      | some image =>
        simp only [found'] at archives
        obtain ⟨tree, holds, _, enter⟩ := archives
        by_cases more : rest = []
        · subst more
          exact Or.inl (.archive found found')
        · rw [enter more] at success
          rcases denotes_or_odd holds (Or.inl more) success with ⟨v, below⟩ | odd
          · exact Or.inl (.below found found' below)
          · exact Or.inr (.below found found' odd)

/-- A key that arrives at an odd element is answered with success. -/
theorem success_of_keyArrivesAtOdd {images : List (DirImage ν)}
    (loaded : ∀ dir ∈ images, ∀ image ∈ dir.archives,
      Producible image.document ∧ image.document.string = none)
    {segms : List Segment} (odd : KeyArrivesAtOdd images segms) (dupvalue : Bytes) :
    rtSearchLoop 0 (loadedRoot images) dupvalue segms = (0, dupvalue) := by
  obtain @⟨segm, segm', rest, dir, image, found, found', odd⟩ := odd
  have archives := rtSearchLoop_archive dir 0 dupvalue segm' rest
    (loaded dir (List.mem_of_find?_eq_some found))
  simp only [found'] at archives
  obtain ⟨tree, holds, _, enter⟩ := archives
  rw [rtSearchLoop_dir, found]
  simp only [List.cons_ne_nil, if_false]
  rw [enter (ne_nil_of_odd odd)]
  exact rtSearchLoop_of_odd odd holds 0 dupvalue

/-- The search is sound for a key exactly when the key does not arrive at an odd element. -/
theorem search_sound_iff {images : List (DirImage ν)}
    (loaded : ∀ dir ∈ images, ∀ image ∈ dir.archives,
      Producible image.document ∧ image.document.string = none)
    {payload : Bytes} {jrp : Jrp} (accepted : rtCreateJrp payload = some jrp) :
    (0 ≤ (rtSearch (loadedRoot images) jrp).1 → KeyDenotes images jrp.segm) ↔
      ¬ KeyArrivesAtOdd images jrp.segm := by
  have some_segm := (acceptedKey_of_rtCreateJrp accepted).1.ne_nil
  constructor
  · intro sound odd
    have answer := success_of_keyArrivesAtOdd loaded odd jrp.dupvalue
    refine not_keyDenotes_of_odd odd (sound ?_)
    rw [rtSearch, answer]
  · intro plain success
    exact (keyDenotes_or_odd loaded some_segm success).resolve_right plain

section NullElement

/-- `{"arr":[null]}` -/
def nullDocument : Item Nat :=
  .mk 1 none .cjsonObject
    [.mk 2 (some (ofChars ['a', 'r', 'r'])) .cjsonArray [.mk 3 none .cjsonNull []]]

def nullImages : List (DirImage Nat) :=
  [⟨7, ofChars ['d'], [⟨ofChars ['a', '.', 'j', 's', 'o', 'n'], 0, nullDocument⟩]⟩]

theorem producible_nullDocument : Producible nullDocument := by
  refine .object (by decide) fun c hc => ?_
  obtain rfl := List.mem_singleton.mp hc
  refine .array (by decide) fun e he => ?_
  obtain rfl := List.mem_singleton.mp he
  exact .leaf (by decide) (by decide)

theorem nullImages_loaded : ∀ dir ∈ nullImages, ∀ image ∈ dir.archives,
    Producible image.document ∧ image.document.string = none := by
  intro dir hdir image himage
  obtain rfl := List.mem_singleton.mp hdir
  obtain rfl := List.mem_singleton.mp himage
  exact ⟨producible_nullDocument, rfl⟩

/-- `d.a.arr[0]` -/
def nullKey : Bytes := ofChars ['d', '.', 'a', '.', 'a', 'r', 'r', '[', '0', ']']

def nullRequest : Jrp where
  segm := [⟨ofChars ['d'], -1, .dir⟩, ⟨ofChars ['a'], -1, .archive⟩,
    ⟨ofChars ['a', 'r', 'r'], 0, .array⟩]
  valuestring := none
  dupkey := nullKey
  dupvalue := []

theorem search_not_sound : ¬ ∀ (images : List (DirImage Nat)) (payload : Bytes) (jrp : Jrp),
    (∀ dir ∈ images, ∀ image ∈ dir.archives,
      Producible image.document ∧ image.document.string = none) →
    rtCreateJrp payload = some jrp →
    0 ≤ (rtSearch (loadedRoot images) jrp).1 → KeyDenotes images jrp.segm := by
  intro sound
  have odd : KeyArrivesAtOdd nullImages nullRequest.segm :=
    .below rfl rfl (.here rfl rfl rfl rfl (by decide) (by decide))
  have accepted : rtCreateJrp nullKey = some nullRequest := by decide +kernel
  refine not_keyDenotes_of_odd odd (sound nullImages nullKey _ nullImages_loaded accepted ?_)
  rw [rtSearch, success_of_keyArrivesAtOdd nullImages_loaded odd]

/-- `d.a.arr` -/
def arrayKey : Bytes := ofChars ['d', '.', 'a', '.', 'a', 'r', 'r']

def arrayRequest : Jrp where
  segm := [⟨ofChars ['d'], -1, .dir⟩, ⟨ofChars ['a'], -1, .archive⟩,
    ⟨ofChars ['a', 'r', 'r'], -1, .field⟩]
  valuestring := none
  dupkey := arrayKey
  dupvalue := []

theorem search_sound_iff_arrayKey : rtCreateJrp arrayKey = some arrayRequest ∧
    ((0 ≤ (rtSearch (loadedRoot nullImages) arrayRequest).1 →
        KeyDenotes nullImages arrayRequest.segm) ↔
      ¬ KeyArrivesAtOdd nullImages arrayRequest.segm) := by
  have accepted : rtCreateJrp arrayKey = some arrayRequest := by decide +kernel
  exact ⟨accepted, search_sound_iff nullImages_loaded accepted⟩

end NullElement

end SearchSound
