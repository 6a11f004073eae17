import Cfgd.KeyText
import Cfgd.SearchSound

/-!
# Reading a plain document

A plain document is made of objects, strings and arrays of objects or strings,
with legal names that differ within an object. Every string in it stands at a
path; once the document is loaded, `rt_search` finds it there.
-/

namespace PlainDoc

open AvlTree CText CJson Request ConfigNode Loader Runtime DocTree DocSearch KeyShape KeyText
open SearchSound

variable {ν : Type}

/-- The loader takes the name as it is: 1 to 191 bytes, all of them legal. -/
def LegalName (name : Bytes) : Prop := ldrOrganizeScopeName name = some name

/-- No two members have the same name ignoring case. -/
def Distinct (members : List (Item ν)) : Prop :=
  members.Pairwise fun c d => c.string.map fold ≠ d.string.map fold

inductive Plain : Item ν → Prop where
  | object {addr : Addr} {string : Option Bytes} {child : List (Item ν)}
      (named : ∀ c ∈ child, ∃ name, c.string = some name ∧ LegalName name)
      (distinct : Distinct child) (below : ∀ c ∈ child, Plain c) :
      Plain (.mk addr string .cjsonObject child)
  | array {addr : Addr} {string : Option Bytes} {child : List (Item ν)}
      (unnamed : ∀ c ∈ child, c.string = none) (flat : ∀ c ∈ child, c.kind ≠ .cjsonArray)
      (below : ∀ c ∈ child, Plain c) : Plain (.mk addr string .cjsonArray child)
  | string {addr : Addr} {string : Option Bytes} {valuestring : Bytes} :
      Plain (.mk addr string (.cjsonString valuestring) [])

/-- The members of a plain object. -/
structure PlainMembers (members : List (Item ν)) : Prop where
  named : ∀ c ∈ members, ∃ name, c.string = some name ∧ LegalName name
  distinct : Distinct members
  below : ∀ c ∈ members, Plain c

/-- Strings that fit into a value and arrays that an index can reach all of. -/
def Limited (document : Item ν) : Prop := ∀ x ∈ document.items,
  (∀ v, x.kind = .cjsonString v → v.length < maxValueSize) ∧
    (x.kind = .cjsonArray → (x.child.length : Int) ≤ maxArySize)

/-- The path below an object to a string, or with `[?]` to the size of an array that
is not empty, and the text that stands there. -/
inductive PathTo : List (Item ν) → List Segment → Bytes → Prop where
  | string {members : List (Item ν)} {c : Item ν} {name v : Bytes} (mem : c ∈ members)
      (named : c.string = some name) (kind : c.kind = .cjsonString v) :
      PathTo members [⟨name, -1, .field⟩] v
  | size {members : List (Item ν)} {c : Item ν} {name : Bytes} (mem : c ∈ members)
      (named : c.string = some name) (kind : c.kind = .cjsonArray) (filled : c.child ≠ []) :
      PathTo members [⟨name, jaSymQuerySize, .array⟩] (printInt c.child.length)
  | element {members : List (Item ν)} {c e : Item ν} {name v : Bytes} {k : Nat}
      (mem : c ∈ members) (named : c.string = some name) (kind : c.kind = .cjsonArray)
      (place : c.child[k]? = some e) (kind' : e.kind = .cjsonString v) :
      PathTo members [⟨name, k, .array⟩] v
  | scope {members : List (Item ν)} {c : Item ν} {name v : Bytes} {rest : List Segment}
      (mem : c ∈ members) (named : c.string = some name) (kind : c.kind = .cjsonObject)
      (below : PathTo c.child rest v) : PathTo members (⟨name, -1, .logicScope⟩ :: rest) v
  | item {members : List (Item ν)} {c e : Item ν} {name v : Bytes} {k : Nat}
      {rest : List Segment} (mem : c ∈ members) (named : c.string = some name)
      (kind : c.kind = .cjsonArray) (place : c.child[k]? = some e)
      (kind' : e.kind = .cjsonObject) (below : PathTo e.child rest v) :
      PathTo members (⟨name, k, .array⟩ :: rest) v

section Names

theorem legalName_iff {name : Bytes} : LegalName name ↔ name ≠ [] ∧
    name.length < maxPreSegSize ∧ ∀ c ∈ name, c ∉ invalidScopeNameCharacter := by
  have size : maxPreSegSize = 192 := rfl
  constructor
  · intro h
    rw [LegalName, ldrOrganizeScopeName] at h
    split at h
    · cases h
    · rename_i legal
      split at h
      · rename_i long
        -- a name that is cut is shorter than it was
        have cut := congrArg List.length (Option.some.inj h)
        have marked : outOfLimit.length = 22 := by decide
        have kept : scopeSavelenOutofLimit = 24 := rfl
        rw [List.length_append, List.length_take, marked, kept] at cut
        omega
      · rename_i short
        split at h
        · cases h
        · rename_i filled
          refine ⟨filled, by omega, fun c hc bad => legal ?_⟩
          rw [List.take_of_length_le (by omega)]
          exact List.any_eq_true.mpr ⟨c, hc, by simpa using bad⟩
  · rintro ⟨filled, short, legal⟩
    have clean : ¬ (name.take (maxPreSegSize - 1)).any (invalidScopeNameCharacter.contains ·) := by
      intro bad
      obtain ⟨c, hc, hbad⟩ := List.any_eq_true.mp bad
      exact legal c (List.mem_of_mem_take hc) (by simpa using hbad)
    rw [LegalName, ldrOrganizeScopeName, if_neg clean, if_neg (by omega), if_neg filled]

theorem keyName_of_legalName {name : Bytes} (h : LegalName name) : KeyName name := by
  obtain ⟨filled, _, legal⟩ := legalName_iff.mp h
  exact ⟨filled, fun hc => legal _ hc (by decide), fun hc => legal _ hc (by decide),
    fun hc => legal _ hc (by decide), fun hc => legal _ hc (by decide)⟩

theorem nameFits_of_legalName {name : Bytes} (h : LegalName name) : NameFits name := by
  obtain ⟨filled, short, _⟩ := legalName_iff.mp h
  exact ⟨filled, short⟩

end Names

theorem Plain.members {j : Item ν} (h : Plain j) (object : j.kind = .cjsonObject) :
    PlainMembers j.child := by
  cases h with
  | object named distinct below => exact ⟨named, distinct, below⟩
  | array unnamed flat below => cases object
  | string => cases object

theorem Plain.elements {j : Item ν} (h : Plain j) (array : j.kind = .cjsonArray) :
    ∀ e ∈ j.child, e.string = none ∧ e.kind ≠ .cjsonArray ∧ Plain e := by
  intro e he
  cases h with
  | object named distinct below => cases array
  | array unnamed flat below => exact ⟨unnamed e he, flat e he, below e he⟩
  | string => cases array

theorem memberName_of_plain {c : Item ν} {name : Bytes} (plain : Plain c)
    (named : c.string = some name) (legal : LegalName name) : memberName c = some name := by
  rw [memberName, named, Option.bind_some]
  cases plain with
  | object _ _ _ => exact legal
  | array _ _ _ => rfl
  | string => exact legal

/-- A member of a plain object is what its own name means there. -/
theorem memberOf_of_mem {members : List (Item ν)} (plain : PlainMembers members) {c : Item ν}
    {name : Bytes} (mem : c ∈ members) (named : c.string = some name) :
    memberOf members (fold name) = some c := by
  obtain ⟨allNamed, distinct, below⟩ := plain
  induction members with
  | nil => cases mem
  | cons d rest ih =>
    obtain ⟨name', named', legal⟩ := allNamed d (List.mem_cons_self ..)
    have loaded := memberName_of_plain (below d (List.mem_cons_self ..)) named' legal
    rw [memberOf, List.find?_cons, loaded]
    rcases List.mem_cons.mp mem with rfl | later
    · obtain rfl := Option.some.inj (named.symm.trans named')
      simp
    · have apart : fold name' ≠ fold name := by
        have differ := (List.pairwise_cons.mp distinct).1 c later
        rw [named, named'] at differ
        simpa using differ
      simp only [Option.map_some, Option.some.injEq, apart, decide_false]
      exact ih later (fun e he => allNamed e (List.mem_cons_of_mem _ he))
        (List.pairwise_cons.mp distinct).2 (fun e he => below e (List.mem_cons_of_mem _ he))

theorem limited_child {j c : Item ν} (h : Limited j) (hc : c ∈ j.child) : Limited c :=
  fun x hx => h x (Item.mem_items_of_child hc hx)

theorem limitValue_short {kept : Nat} {v : Bytes} (short : v.length < maxValueSize) :
    limitValue kept v = v := if_neg (Nat.not_le.mpr short)

variable [DoubleText ν]

theorem valueText_string {j : Item ν} {v : Bytes} (kind : j.kind = .cjsonString v)
    (limited : Limited j) : valueText j = v := by
  rw [valueText, kind]
  exact limitValue_short ((limited j (Item.self_mem_items j)).1 v kind)

omit [DoubleText ν] in
theorem elementAt_nat {child : List (Item ν)} {k : Nat} {e : Item ν}
    (place : child[k]? = some e) (most : (child.length : Int) ≤ maxArySize) :
    elementAt child k = some e := by
  have inside : k < child.length := (List.getElem?_eq_some_iff.mp place).1
  have size : maxArySize = 256 := rfl
  have symbols : (256 : Int) < jaSymLast ∧ (256 : Int) < jaSymQuerySize ∧
      (256 : Int) < jaSymAdd ∧ (256 : Int) < jaSymEntire := by decide
  rw [elementAt, if_neg (by omega), if_neg (by omega), if_pos (by omega), Int.toNat_natCast]
  exact place

theorem indexFits_nat {α : Type} {child : List α} {k : Nat} {e : α}
    (place : child[k]? = some e) (most : (child.length : Int) ≤ maxArySize) :
    IndexFits k := by
  have inside : k < child.length := (List.getElem?_eq_some_iff.mp place).1
  exact Or.inl ⟨by omega, by omega⟩

/-- What stands at a path of a plain document is what the key with the same segments
denotes, and the segments are those of an accepted key. -/
theorem denotes_of_pathTo {members : List (Item ν)} {segms : List Segment} {v : Bytes}
    (h : PathTo members segms v) (plain : PlainMembers members)
    (limited : ∀ c ∈ members, Limited c) :
    Denotes members segms v ∧ Below segms ∧ ∀ segm ∈ segms, KeyName segm.name := by
  have legal : ∀ {members : List (Item ν)} {c : Item ν} {name : Bytes}, PlainMembers members →
      c ∈ members → c.string = some name → LegalName name := by
    intro members c name plain mem named
    obtain ⟨name', named', legal⟩ := plain.named c mem
    obtain rfl := Option.some.inj (named.symm.trans named')
    exact legal
  have most : ∀ {c : Item ν}, Limited c → c.kind = .cjsonArray →
      (c.child.length : Int) ≤ maxArySize :=
    fun limited kind => (limited _ (Item.self_mem_items _)).2 kind
  induction h with
  | @string members c name v mem named kind =>
    have ok := legal plain mem named
    have field : itemJsl c = .field := by rw [itemJsl, named, kind]
    have denotes : Denotes members [⟨name, -1, .field⟩] (valueText c) :=
      .field (memberOf_of_mem plain mem named) field rfl
    rw [valueText_string kind (limited c mem)] at denotes
    exact ⟨denotes, .field (nameFits_of_legalName ok), by simp [keyName_of_legalName ok]⟩
  | @size members c name mem named kind filled =>
    have ok := legal plain mem named
    have array : itemJsl c = .array := (itemJsl_array_iff named).mpr kind
    refine ⟨.size (memberOf_of_mem plain mem named) array rfl rfl filled, ?_, ?_⟩
    · exact .array (nameFits_of_legalName ok) (Or.inr (Or.inr (Or.inl rfl)))
    · simp [keyName_of_legalName ok]
  | @element members c e name v k mem named kind place kind' =>
    have ok := legal plain mem named
    have array : itemJsl c = .array := (itemJsl_array_iff named).mpr kind
    have inside := List.mem_of_getElem? place
    have unnamed := ((plain.below c mem).elements kind e inside).1
    have leaf : itemJsl e = .arrayItemAsField := by rw [itemJsl, unnamed, kind']
    have denotes : Denotes members [⟨name, k, .array⟩] (valueText e) :=
      .element (memberOf_of_mem plain mem named) array rfl
        (elementAt_nat place (most (limited c mem) kind)) leaf
    rw [valueText_string kind' (limited_child (limited c mem) inside)] at denotes
    refine ⟨denotes, ?_, by simp [keyName_of_legalName ok]⟩
    exact .array (nameFits_of_legalName ok) (indexFits_nat place (most (limited c mem) kind))
  | @scope members c name v rest mem named kind _ ih =>
    have ok := legal plain mem named
    have object : itemJsl c = .logicScope := by rw [itemJsl, named, kind]
    obtain ⟨denotes, below, names⟩ := ih ((plain.below c mem).members kind)
      fun d hd => limited_child (limited c mem) hd
    refine ⟨.scope (memberOf_of_mem plain mem named) object rfl denotes, ?_, ?_⟩
    · exact .scope (nameFits_of_legalName ok) below
    · exact List.forall_mem_cons.mpr ⟨keyName_of_legalName ok, names⟩
  | @item members c e name v k rest mem named kind place kind' _ ih =>
    have ok := legal plain mem named
    have array : itemJsl c = .array := (itemJsl_array_iff named).mpr kind
    have inside := List.mem_of_getElem? place
    obtain ⟨unnamed, _, plain'⟩ := (plain.below c mem).elements kind e inside
    have limited' := limited_child (limited c mem) inside
    have object : itemJsl e = .arrayItem := by rw [itemJsl, unnamed, kind']
    have fits := indexFits_nat place (most (limited c mem) kind)
    have single : ((k : Nat) : Int) ≠ jaSymEntire := by
      have inside' : k < c.child.length := (List.getElem?_eq_some_iff.mp place).1
      have atMost := most (limited c mem) kind
      have size : maxArySize = 256 := rfl
      have symbol : (256 : Int) < jaSymEntire := by decide
      omega
    obtain ⟨denotes, below, names⟩ := ih (plain'.members kind')
      fun d hd => limited_child limited' hd
    refine ⟨.through (memberOf_of_mem plain mem named) array rfl
      (elementAt_nat place (most (limited c mem) kind)) object denotes, ?_, ?_⟩
    · exact .item (nameFits_of_legalName ok) fits single below
    · exact List.forall_mem_cons.mpr ⟨keyName_of_legalName ok, names⟩

omit [DoubleText ν] in
theorem topMembers_of_object {document : Item ν} (object : document.kind = .cjsonObject) :
    topMembers document = document.child := by
  cases document with
  | mk addr string kind child =>
    rw [Item.kind_mk] at object
    subst object
    rw [topMembers, topObject]

/-- The segments of a key below an archive. -/
def keyBelow (dir archive : Bytes) (segms : List Segment) : List Segment :=
  ⟨dir, -1, .dir⟩ :: ⟨archive, -1, .archive⟩ :: segms

/-- The path can be written as a key, and the key reads the value. -/
def Readable (images : List (DirImage ν)) (dir archive : Bytes) (segms : List Segment)
    (v : Bytes) : Prop :=
  ∃ jrp, rtCreateJrp (keyText (keyBelow dir archive segms)) = some jrp ∧
    jrp.segm = keyBelow dir archive segms ∧ rtSearch (loadedRoot images) jrp = (0, v)

/-- Every string of a loaded plain document is found at its path, and so is the size of
every array with elements; a path of depth 10 whose segments fit can be written as a key. -/
theorem load_then_read {images : List (DirImage ν)}
    (loaded : ∀ dir ∈ images, ∀ image ∈ dir.archives,
      Producible image.document ∧ image.document.string = none)
    {dir : Bytes} {dirImage : DirImage ν} (found : dirOf images (fold dir) = some dirImage)
    {archive : Bytes} {image : ArchiveImage ν}
    (found' : archiveOf dirImage (fold archive) = some image)
    (plain : Plain image.document) (object : image.document.kind = .cjsonObject)
    (limited : Limited image.document) {segms : List Segment} {v : Bytes}
    (path : PathTo image.document.child segms v) :
    (∀ dupvalue, rtSearchLoop 0 (loadedRoot images) dupvalue (keyBelow dir archive segms) =
      (0, v)) ∧
    ((keyBelow dir archive segms).length ≤ maxDepthReq → KeyName dir → KeyName archive →
      (∀ segm ∈ keyBelow dir archive segms, (segmentText segm).length < maxPreSegSize) →
      Readable images dir archive segms v) := by
  obtain ⟨denotes, below, names⟩ := denotes_of_pathTo path (plain.members object)
    fun c hc => limited_child limited hc
  have search : ∀ dupvalue, rtSearchLoop 0 (loadedRoot images) dupvalue
      (keyBelow dir archive segms) = (0, v) := by
    intro dupvalue
    have archives := rtSearchLoop_archive dirImage 0 dupvalue ⟨archive, -1, .archive⟩ segms
      (loaded dirImage (List.mem_of_find?_eq_some found))
    simp only [found'] at archives
    obtain ⟨tree, holds, _, enter⟩ := archives
    rw [topMembers_of_object object] at holds
    rw [keyBelow, rtSearchLoop_dir]
    simp only [found, List.cons_ne_nil, if_false]
    rw [enter below.ne_nil]
    exact rtSearchLoop_of_denotes denotes holds 0 dupvalue
  refine ⟨search, fun depth dirName archiveName short => ?_⟩
  have written : ∀ segm ∈ keyBelow dir archive segms, Written segm := by
    intro segm hs
    refine ⟨?_, short segm hs⟩
    rcases List.mem_cons.mp hs with rfl | hs
    · exact dirName
    · rcases List.mem_cons.mp hs with rfl | hs
      · exact archiveName
      · exact names segm hs
  have dirFits : NameFits dir := ⟨dirName.filled, short _ (List.mem_cons_self ..)⟩
  have archiveFits : NameFits archive :=
    ⟨archiveName.filled, short _ (List.mem_cons_of_mem _ (List.mem_cons_self ..))⟩
  have accepted : AcceptedKey (keyBelow dir archive segms) := .below dirFits archiveFits below
  refine ⟨_, rtCreateJrp_keyText accepted written depth, rfl, ?_⟩
  exact search []

section Documents

def oneArchive (document : Item Nat) : List (DirImage Nat) :=
  [⟨7, ofChars ['d'], [⟨ofChars ['a', '.', 'j', 's', 'o', 'n'], 0, document⟩]⟩]

theorem oneArchive_loaded {document : Item Nat} (shape : Producible document)
    (root : document.string = none) : ∀ dir ∈ oneArchive document, ∀ image ∈ dir.archives,
      Producible image.document ∧ image.document.string = none := by
  intro dir hdir image himage
  obtain rfl := List.mem_singleton.mp hdir
  obtain rfl := List.mem_singleton.mp himage
  exact ⟨shape, root⟩

/-- An object with one array, which holds one string. -/
def arrayDocument (name : Bytes) : Item Nat :=
  .mk 1 none .cjsonObject
    [.mk 2 (some name) .cjsonArray [.mk 3 none (.cjsonString (ofChars ['x'])) []]]

theorem arrayDocument_ok {name : Bytes} (legal : LegalName name) :
    Producible (arrayDocument name) ∧ Plain (arrayDocument name) ∧
      Limited (arrayDocument name) := by
  refine ⟨.object (by simp) fun c hc => ?_, .object ?_ ?_ fun c hc => ?_, ?_⟩
  · obtain rfl := List.mem_singleton.mp hc
    refine .array (by simp) fun e he => ?_
    obtain rfl := List.mem_singleton.mp he
    exact .leaf nofun nofun
  · intro c hc
    obtain rfl := List.mem_singleton.mp hc
    exact ⟨name, rfl, legal⟩
  · exact List.pairwise_singleton _ _
  · obtain rfl := List.mem_singleton.mp hc
    refine .array (by simp) (by simp) fun e he => ?_
    obtain rfl := List.mem_singleton.mp he
    exact .string
  · intro x hx
    have three : (arrayDocument name).items = [arrayDocument name,
        .mk 2 (some name) .cjsonArray [.mk 3 none (.cjsonString (ofChars ['x'])) []],
        .mk 3 none (.cjsonString (ofChars ['x'])) []] := rfl
    rw [three] at hx
    rcases List.mem_cons.mp hx with rfl | hx
    · exact ⟨nofun, nofun⟩
    rcases List.mem_cons.mp hx with rfl | hx
    · exact ⟨nofun, fun _ => by simp [maxArySize]⟩
    · obtain rfl := List.mem_singleton.mp hx
      refine ⟨fun v hv => ?_, nofun⟩
      cases hv
      decide

theorem arrayDocument_path (name : Bytes) :
    PathTo (arrayDocument name).child [⟨name, (0 : Nat), .array⟩] (ofChars ['x']) :=
  .element (List.mem_singleton.mpr rfl) rfl rfl rfl rfl

/-- A legal name that leaves no room for an index. -/
def longName : Bytes := List.replicate 190 97

/-- `"y"` -/
def stringDocument : Item Nat := .mk 1 none (.cjsonString (ofChars ['y'])) []

theorem stringDocument_value (segms : List Segment) (dupvalue : Bytes) :
    rtSearchLoop 0 (loadedRoot (oneArchive stringDocument)) dupvalue
      (keyBelow (ofChars ['d']) (ofChars ['a']) segms) ≠ (0, ofChars ['y']) := by
  cases segms with
  | nil =>
    have answer : rtSearchLoop 0 (loadedRoot (oneArchive stringDocument)) dupvalue
        (keyBelow (ofChars ['d']) (ofChars ['a']) []) = (0, ofChars ['j', 'e', 's', 's', 'f',
          's', '/', 'd', '/', 'a', '.', 'j', 's', 'o', 'n']) := rfl
    rw [answer]
    decide
  | cons segm rest =>
    have answer : rtSearchLoop 0 (loadedRoot (oneArchive stringDocument)) dupvalue
        (keyBelow (ofChars ['d']) (ofChars ['a']) (segm :: rest)) = (-1, dupvalue) := rfl
    intro success
    rw [answer] at success
    cases success

theorem read_not_always :
    (¬ ∀ (images : List (DirImage Nat)) (dir archive : Bytes) (dirImage : DirImage Nat)
      (image : ArchiveImage Nat) (segms : List Segment) (v : Bytes),
      (∀ dir ∈ images, ∀ image ∈ dir.archives,
        Producible image.document ∧ image.document.string = none) →
      dirOf images (fold dir) = some dirImage → archiveOf dirImage (fold archive) = some image →
      Plain image.document → image.document.kind = .cjsonObject → Limited image.document →
      KeyName dir → KeyName archive → PathTo image.document.child segms v →
      (keyBelow dir archive segms).length ≤ maxDepthReq → Readable images dir archive segms v) ∧
    (¬ ∀ (images : List (DirImage Nat)) (dir archive : Bytes) (dirImage : DirImage Nat)
      (image : ArchiveImage Nat) (v : Bytes),
      (∀ dir ∈ images, ∀ image ∈ dir.archives,
        Producible image.document ∧ image.document.string = none) →
      dirOf images (fold dir) = some dirImage → archiveOf dirImage (fold archive) = some image →
      Plain image.document → Limited image.document → KeyName dir → KeyName archive →
      image.document.kind = .cjsonString v → ∃ segms, Readable images dir archive segms v) := by
  have letter : ∀ {c : Char}, c = 'd' ∨ c = 'a' → KeyName (ofChars [c]) := by
    rintro c (rfl | rfl) <;> exact ⟨by decide, by decide, by decide, by decide, by decide⟩
  have dirName := letter (Or.inl rfl)
  have archiveName := letter (Or.inr rfl)
  constructor
  · intro claim
    have legal : LegalName longName := legalName_iff.mpr (by decide +kernel)
    obtain ⟨shape, plain, limited⟩ := arrayDocument_ok legal
    have refused : rtCreateJrp (keyText (keyBelow (ofChars ['d']) (ofChars ['a'])
        [⟨longName, (0 : Nat), .array⟩])) = none := by decide +kernel
    obtain ⟨jrp, accepted, _⟩ := claim _ _ _ _ _ _ _ (oneArchive_loaded shape rfl) rfl rfl plain
      rfl limited dirName archiveName (arrayDocument_path longName) (by decide)
    rw [refused] at accepted
    cases accepted
  · intro claim
    have limited : Limited stringDocument := by
      intro x hx
      obtain rfl := List.mem_singleton.mp hx
      refine ⟨fun v hv => ?_, nofun⟩
      cases hv
      decide
    have loaded : ∀ dir ∈ oneArchive stringDocument, ∀ image ∈ dir.archives,
        Producible image.document ∧ image.document.string = none :=
      oneArchive_loaded (.leaf nofun nofun) rfl
    obtain ⟨segms, jrp, _, same, answer⟩ := claim _ _ _ _ _ _ loaded rfl rfl .string limited
      dirName archiveName rfl
    rw [rtSearch, same] at answer
    exact stringDocument_value segms jrp.dupvalue answer

/-- `{"arr":["x"]}` is read at `d.a.arr[0]`. -/
theorem load_then_read_arrayDocument :
    Readable (oneArchive (arrayDocument (ofChars ['a', 'r', 'r']))) (ofChars ['d'])
      (ofChars ['a']) [⟨ofChars ['a', 'r', 'r'], (0 : Nat), .array⟩] (ofChars ['x']) := by
  have legal : LegalName (ofChars ['a', 'r', 'r']) :=
    legalName_iff.mpr (by decide +kernel)
  obtain ⟨shape, plain, limited⟩ := arrayDocument_ok legal
  exact (load_then_read (oneArchive_loaded shape rfl) rfl rfl plain rfl limited
    (arrayDocument_path _)).2 (by decide) ⟨by decide, by decide, by decide, by decide, by decide⟩
    ⟨by decide, by decide, by decide, by decide, by decide⟩ (by decide)

end Documents

end PlainDoc
