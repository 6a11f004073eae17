import Cfgd.PlainDoc

/-!
# The names that the loader gives

`ldr_organize_scope_name` checks a name and cuts it when it is too long; the branch for
arrays copies the name as it is. What that means for the names in a loaded tree, and for
members of one object whose names differ.
-/

namespace LoaderNames

open AvlTree CText CJson Request ConfigNode Loader DocTree PlainDoc

variable {ν : Type}

/-- A name of 1 to 191 bytes without a character that keys give a meaning to. -/
def Addressable (name : Bytes) : Prop :=
  name ≠ [] ∧ name.length < maxPreSegSize ∧ ∀ c ∈ name, c ∉ invalidScopeNameCharacter

def cut (name : Bytes) : Bytes := name.take scopeSavelenOutofLimit ++ outOfLimit

/-- The name under which a member that is no array is filed. -/
def filedName (name : Bytes) : Bytes := if maxPreSegSize ≤ name.length then cut name else name

/-- The first name is cut, to what the other one is filed under. -/
def CutAlike (name other : Bytes) : Prop :=
  maxPreSegSize ≤ name.length ∧ fold (cut name) = fold (filedName other)

/-! ## The objects that are loaded -/

/-- The members that the loader reads into the node at the path. -/
inductive Level (document : Item ν) : Path → List (Item ν) → Prop where
  | top : Level document [] (topMembers document)
  | scope {path : Path} {members : List (Item ν)} {key : Bytes} {d : Item ν}
      (level : Level document path members) (found : memberOf members key = some d)
      (object : d.kind = .cjsonObject) : Level document (path ++ [.scope key]) d.child
  | item {path : Path} {members : List (Item ν)} {key : Bytes} {d e : Item ν} {i : Nat}
      (level : Level document path members) (found : memberOf members key = some d)
      (array : d.kind = .cjsonArray) (place : d.child[i]? = some e)
      (object : e.kind = .cjsonObject) :
      Level document (path ++ [.scope key, .item i]) e.child

/-- Every node but those of array items has a name that a key can spell, and members of one
object whose names differ are not filed under one node. -/
structure WellNamed (root : Node) (document : Item ν) : Prop where
  legal : ∀ path key m, root.getAt (path ++ [.scope key]) = some m →
    Addressable m.info.scopeName
  apart : ∀ path members, Level document path members → ∀ n, root.getAt path = some n →
    ∀ a ∈ members, ∀ b ∈ members, a.string.map fold ≠ b.string.map fold →
    ∀ name name', memberName a = some name → memberName b = some name' →
    n.follow (.scope (fold name)) ≠ n.follow (.scope (fold name'))

/-- The names of the arrays can be spelled in a key, and no long name is cut to what a
different name is filed under. -/
structure Nameable (document : Item ν) : Prop where
  arrays : ∀ path members, Level document path members → ∀ a ∈ members,
    a.kind = .cjsonArray → ∀ name ∈ a.string, Addressable name
  cuts : ∀ path members, Level document path members → ∀ a ∈ members, ∀ b ∈ members,
    memberName a ≠ none → memberName b ≠ none →
    ∀ name ∈ a.string, ∀ name' ∈ b.string, fold name ≠ fold name' → ¬ CutAlike name name'

section Names
variable {name other k : Bytes}

theorem tolower_invalid {c : UInt8} (bad : tolower c ∈ invalidScopeNameCharacter) :
    tolower c = c := by
  rw [tolower] at bad ⊢
  split_ifs at bad ⊢ with upper
  · exfalso
    have lower : 97 ≤ (c + 32).toNat ∧ (c + 32).toNat ≤ 122 := by
      obtain ⟨low, high⟩ := upper
      rw [UInt8.le_iff_toNat_le] at low high
      rw [UInt8.toNat_add]
      simp at low high ⊢
      omega
    have small : ∀ b ∈ invalidScopeNameCharacter, b.toNat < 97 := by decide +kernel
    have := small _ bad
    omega
  · rfl

theorem invalid_tolower {c : UInt8} (bad : c ∈ invalidScopeNameCharacter) : tolower c = c := by
  have each : ∀ b ∈ invalidScopeNameCharacter, tolower b = b := by decide +kernel
  exact each c bad

theorem length_fold (name : Bytes) : (fold name).length = name.length := List.length_map ..

/-- Case does not matter for a name to be spelled in a key. -/
theorem addressable_fold (same : fold name = fold other) (h : Addressable name) :
    Addressable other := by
  obtain ⟨filled, short, legal⟩ := h
  have length : name.length = other.length := by
    rw [← length_fold name, same, length_fold]
  refine ⟨fun none => filled ?_, length ▸ short, fun c mem bad => ?_⟩
  · rw [none] at length
    exact List.eq_nil_of_length_eq_zero length
  · have folded : c ∈ fold name := by
      rw [same, fold, List.mem_map]
      exact ⟨c, mem, invalid_tolower bad⟩
    obtain ⟨c', mem', hc⟩ := List.mem_map.mp folded
    subst hc
    exact legal c' mem' (tolower_invalid bad ▸ bad)

theorem addressable_cut (legal : ∀ c ∈ name.take scopeSavelenOutofLimit,
    c ∉ invalidScopeNameCharacter) : Addressable (cut name) := by
  have mark : ∀ c ∈ outOfLimit, c ∉ invalidScopeNameCharacter := by decide +kernel
  have size : outOfLimit.length = 22 := by decide
  have kept : scopeSavelenOutofLimit = 24 := rfl
  have room : maxPreSegSize = 192 := rfl
  refine ⟨fun none => ?_, ?_, fun c mem => ?_⟩
  · have empty := congrArg List.length none
    rw [cut, List.length_append, size, List.length_nil] at empty
    omega
  · rw [cut, List.length_append, size, List.length_take, kept, room]
    omega
  · rcases List.mem_append.mp mem with mem | mem
    · exact legal c mem
    · exact mark c mem

/-- What `ldr_organize_scope_name` makes of a name. -/
theorem ldrOrganizeScopeName_spec (taken : ldrOrganizeScopeName name = some k) :
    k = filedName name ∧ Addressable k := by
  have room : maxPreSegSize = 192 := rfl
  have kept : scopeSavelenOutofLimit = 24 := rfl
  rw [ldrOrganizeScopeName] at taken
  split at taken
  · cases taken
  · rename_i legal
    have clean : ∀ c ∈ name.take (maxPreSegSize - 1), c ∉ invalidScopeNameCharacter :=
      fun c mem bad => legal (List.any_eq_true.mpr ⟨c, mem, by simpa using bad⟩)
    split at taken
    · rename_i long
      obtain rfl := Option.some.inj taken
      refine ⟨(if_pos long).symm, addressable_cut fun c mem => clean c ?_⟩
      exact List.take_subset_take_left _ (by omega) mem
    · rename_i short
      split at taken
      · cases taken
      · rename_i filled
        obtain rfl := Option.some.inj taken
        refine ⟨(if_neg short).symm, filled, by omega, fun c mem => clean c ?_⟩
        rwa [List.take_of_length_le (by omega)]

/-- The name of a member is checked and cut, or it is the name of an array. -/
theorem memberName_cases {a : Item ν} (h : memberName a = some k) :
    ∃ name, a.string = some name ∧ ((a.kind = .cjsonArray ∧ k = name) ∨
      (a.kind ≠ .cjsonArray ∧ k = filedName name ∧ Addressable k)) := by
  obtain ⟨name, named, h⟩ := Option.bind_eq_some_iff.mp h
  refine ⟨name, named, ?_⟩
  split at h
  · rename_i kind
    exact .inr ⟨kind ▸ nofun, ldrOrganizeScopeName_spec h⟩
  · rename_i kind
    exact .inr ⟨kind ▸ nofun, ldrOrganizeScopeName_spec h⟩
  · rename_i kind
    exact .inr ⟨kind ▸ nofun, ldrOrganizeScopeName_spec h⟩
  · rename_i kind
    exact .inl ⟨kind, (Option.some.inj h).symm⟩
  · cases h

end Names

section Levels
variable {document : Item ν} {info : NodeInfo} {path : Path} {members : List (Item ν)}

theorem memberName_of_memberOf {key : Bytes} {d : Item ν} (found : memberOf members key = some d) :
    d ∈ members ∧ ∃ name, memberName d = some name ∧ fold name = key := by
  have right := List.find?_some found
  rw [decide_eq_true_eq, Option.map_eq_some_iff] at right
  exact ⟨List.mem_of_find?_eq_some found, right⟩

/-- The first member that is filed under a key is found when there is one. -/
theorem exists_memberOf {a : Item ν} {name : Bytes} (mem : a ∈ members)
    (named : memberName a = some name) : ∃ d, memberOf members (fold name) = some d := by
  rw [← Option.isSome_iff_exists, memberOf, List.find?_isSome]
  exact ⟨a, mem, by rw [named]; exact decide_eq_true rfl⟩

theorem getAt_single (n : Node) (s : Step) : n.getAt [s] = n.follow s := by
  rw [Node.getAt]
  cases n.follow s <;> rfl

variable [DoubleText ν]

/-- The node and the member at a step below a level. -/
theorem holds_down {n : Node} (holds : Holds n.nextScope members) {key : Bytes} {d : Item ν}
    (found : memberOf members key = some d) :
    ∃ c, n.follow (.scope key) = some c ∧ Shows c d ∧ Mirrors c d := by
  rcases holds key with ⟨_, none⟩ | ⟨c, d', hc, hd, shown, mirrors⟩
  · rw [found] at none
    cases none
  · obtain rfl := Option.some.inj (hd.symm.trans found)
    exact ⟨c, hc, shown, mirrors⟩

/-- The tree has a node for every level, and it holds the members. -/
theorem level_holds {root : Node} (top : Holds root.nextScope (topMembers document))
    (level : Level document path members) :
    ∃ n, root.getAt path = some n ∧ Holds n.nextScope members := by
  induction level with
  | top => exact ⟨root, rfl, top⟩
  | scope _ found object ih =>
    obtain ⟨n, there, holds⟩ := ih
    obtain ⟨c, hc, _, mirrors⟩ := holds_down holds found
    refine ⟨c, ?_, mirrors.holds object⟩
    rw [getAt_append, there, Option.bind_some, getAt_single, hc]
  | @item path members key d e i _ found array place object ih =>
    obtain ⟨n, there, holds⟩ := ih
    obtain ⟨c, hc, _, mirrors⟩ := holds_down holds found
    obtain ⟨_, name, named, _⟩ := memberName_of_memberOf found
    obtain ⟨string, hasName, _⟩ := memberName_cases named
    have step : DocTree.follow d (.item i) = some e := by
      rw [DocTree.follow, array, hasName]
      exact place
    obtain ⟨c', hc', _, mirrors'⟩ := mirrors.up step
    refine ⟨c', ?_, mirrors'.holds object⟩
    rw [getAt_append, there, Option.bind_some, Node.getAt, hc, Option.bind_some, getAt_single, hc']

omit [DoubleText ν] in
/-- The members that are read are as the parser makes them. -/
theorem level_producible (shape : Producible document) (level : Level document path members) :
    ∀ c ∈ members, Producible c := by
  have below : ∀ {d : Item ν}, Producible d → ∀ c ∈ d.child, Producible c := by
    intro d shape
    cases shape with
    | object _ below => exact below
    | array _ below => exact below
    | leaf _ _ =>
      intro c mem
      cases mem
  induction level with
  | top =>
    rw [topMembers]
    cases top : topObject document with
    | none =>
      intro c mem
      cases mem
    | some object => exact below (topObject_spec document shape object top).2
  | scope _ found _ ih => exact below (ih _ (memberName_of_memberOf found).1)
  | item _ found _ place _ ih =>
    exact below (below (ih _ (memberName_of_memberOf found).1) _ (List.mem_of_getElem? place))

/-- Below a node whose item leads nowhere there is no node. -/
theorem getAt_nowhere {n : Node} {j : Item ν} (mirrors : Mirrors n j)
    (nowhere : ∀ s, DocTree.follow j s = none) (back : Path) (s : Step) :
    n.getAt (back ++ [s]) = none := by
  have none : ∀ s, n.follow s = none := fun s => (mirrors.none_iff s).mpr (nowhere s)
  cases back with
  | nil => rw [List.nil_append, getAt_single, none]
  | cons t rest => rw [List.cons_append, Node.getAt, none, Option.bind_none]

theorem array_of_mirrors {n : Node} {j : Item ν} (mirrors : Mirrors n j)
    (object : j.kind = .cjsonObject) : n.array = [] := by
  have none : n.follow (.item 0) = none :=
    (mirrors.none_iff (.item 0)).mpr (by rw [DocTree.follow, object])
  exact List.eq_nil_of_length_eq_zero (by simpa [Node.follow] using none)

/-- Every node but those of array items is the node of a member at some level. -/
theorem level_of_getAt (shape : Producible document) {n m : Node} {key : Bytes} {back : Path}
    (level : Level document path members) (holds : Holds n.nextScope members)
    (noItems : n.array = []) (there : n.getAt (back ++ [.scope key]) = some m) :
    ∃ path' members' d, Level document path' members' ∧ memberOf members' key = some d ∧
      m.scopeKey = key := by
  induction size : back.length using Nat.strong_induction_on generalizing n path members back with
  | _ count ih =>
    have finds : ∀ {k : Bytes} {c : Node}, n.follow (.scope k) = some c →
        ∃ d, memberOf members k = some d ∧ Mirrors c d := by
      intro k c hc
      rcases holds k with ⟨none, _⟩ | ⟨c', d, hc', hd, _, mirrors⟩
      · rw [Node.follow, none] at hc
        cases hc
      · obtain rfl := Option.some.inj (hc'.symm.trans hc)
        exact ⟨d, hd, mirrors⟩
    rcases back with _ | ⟨k | i, rest⟩
    · rw [List.nil_append, getAt_single] at there
      obtain ⟨d, hd, _⟩ := finds there
      exact ⟨path, members, d, level, hd, key_of_avlsearch Node.scopeKey there⟩
    swap
    · rw [List.cons_append, Node.getAt, Node.follow, noItems] at there
      cases there
    rw [List.cons_append, Node.getAt] at there
    obtain ⟨c, hc, there⟩ := Option.bind_eq_some_iff.mp there
    obtain ⟨d, hd, mirrors⟩ := finds hc
    by_cases object : d.kind = .cjsonObject
    · exact ih rest.length (by rw [← size, List.length_cons]; omega) (level.scope hd object)
        (mirrors.holds object) (array_of_mirrors mirrors object) there rfl
    by_cases array : d.kind = .cjsonArray
    · have noScope : ∀ k', c.follow (.scope k') = none := fun k' =>
        (mirrors.none_iff (.scope k')).mpr (by rw [DocTree.follow, array])
      rcases rest with _ | ⟨k' | i, rest⟩
      · rw [List.nil_append, getAt_single, noScope] at there
        cases there
      · rw [List.cons_append, Node.getAt, noScope] at there
        cases there
      · rw [List.cons_append, Node.getAt] at there
        obtain ⟨c', hc', there⟩ := Option.bind_eq_some_iff.mp there
        obtain ⟨e, step, _, mirrors'⟩ := mirrors.down hc'
        obtain ⟨mem, name, named, _⟩ := memberName_of_memberOf hd
        obtain ⟨string, hasName, _⟩ := memberName_cases named
        rw [DocTree.follow, array, hasName] at step
        by_cases object' : e.kind = .cjsonObject
        · exact ih rest.length (by rw [← size, List.length_cons, List.length_cons]; omega)
            (level.item hd array step object') (mirrors'.holds object')
            (array_of_mirrors mirrors' object') there rfl
        · have unnamed : e.string = none := by
            have shaped := level_producible shape level d mem
            cases shaped with
            | object _ _ => exact absurd rfl object
            | array names _ => exact names e (List.mem_of_getElem? step)
            | leaf _ notArray => exact absurd array notArray
          have nowhere : ∀ s, DocTree.follow e s = none := by
            intro s
            cases s with
            | scope k' =>
              rw [DocTree.follow]
              split
              · exact absurd ‹_› object'
              · rfl
            | item j =>
              rw [DocTree.follow, unnamed]
              split
              · rename_i hasName
                cases hasName
              · rfl
          rw [getAt_nowhere mirrors' nowhere] at there
          cases there
    · rw [getAt_nowhere mirrors (follow_none_of_kind object array)] at there
      cases there

end Levels

section Law
variable {document : Item ν}

/-- When the names of arrays can be spelled, every member is filed under its name or what it
is cut to. -/
theorem filedName_of_memberName {a : Item ν} {name k : Bytes} (named : a.string = some name)
    (spelled : a.kind = .cjsonArray → Addressable name) (h : memberName a = some k) :
    k = filedName name := by
  obtain ⟨name', named', cases⟩ := memberName_cases h
  obtain rfl := Option.some.inj (named.symm.trans named')
  rcases cases with ⟨array, rfl⟩ | ⟨_, filed, _⟩
  · exact (if_neg (Nat.not_le.mpr (spelled array).2.1)).symm
  · exact filed

/-- Names that differ and are filed alike: one of them was cut. -/
theorem cutAlike_of_filedName {name other : Bytes} (differ : fold name ≠ fold other)
    (same : fold (filedName name) = fold (filedName other)) :
    CutAlike name other ∨ CutAlike other name := by
  by_cases long : maxPreSegSize ≤ name.length
  · rw [filedName, if_pos long] at same
    exact .inl ⟨long, same⟩
  · by_cases long' : maxPreSegSize ≤ other.length
    · have filed : filedName other = cut other := if_pos long'
      exact .inr ⟨long', filed ▸ same.symm⟩
    · rw [filedName, if_neg long, filedName, if_neg long'] at same
      exact absurd same differ

variable [DoubleText ν]

theorem wellNamed_of_nameable (shape : Producible document) {root : Node}
    (holds : Holds root.nextScope (topMembers document)) (noItems : root.array = [])
    (nameable : Nameable document) : WellNamed root document where
  legal := by
    intro path key m there
    obtain ⟨path', members, d, level, found, keys⟩ :=
      level_of_getAt shape .top holds noItems there
    obtain ⟨mem, k, named, folded⟩ := memberName_of_memberOf found
    refine addressable_fold (folded.trans keys.symm) ?_
    obtain ⟨name, hasName, ⟨array, rfl⟩ | ⟨_, _, ok⟩⟩ := memberName_cases named
    · exact nameable.arrays path' members level d mem array k hasName
    · exact ok
  apart := by
    intro path members level n there a memA b memB differ k k' namedA namedB same
    obtain ⟨n', there', holds'⟩ := level_holds holds level
    obtain rfl := Option.some.inj (there.symm.trans there')
    obtain ⟨d, found⟩ := exists_memberOf memA namedA
    obtain ⟨c, hc, _⟩ := holds_down holds' found
    have keys : fold k = fold k' :=
      (key_of_avlsearch Node.scopeKey hc).symm.trans
        (key_of_avlsearch Node.scopeKey (same.symm.trans hc))
    obtain ⟨name, hasName, _⟩ := memberName_cases namedA
    obtain ⟨name', hasName', _⟩ := memberName_cases namedB
    rw [filedName_of_memberName hasName
        (fun array => nameable.arrays path members level a memA array name hasName) namedA,
      filedName_of_memberName hasName'
        (fun array => nameable.arrays path members level b memB array name' hasName') namedB]
      at keys
    have differ' : fold name ≠ fold name' := fun same => differ (by
      rw [hasName, hasName', Option.map_some, Option.map_some, same])
    have loadedA : memberName a ≠ none := by rw [namedA]; exact nofun
    have loadedB : memberName b ≠ none := by rw [namedB]; exact nofun
    rcases cutAlike_of_filedName differ' keys with alike | alike
    · exact nameable.cuts path members level a memA b memB loadedA loadedB name hasName name'
        hasName' differ' alike
    · exact nameable.cuts path members level b memB a memA loadedB loadedA name' hasName' name
        hasName differ'.symm alike

theorem nameable_of_wellNamed {root : Node}
    (holds : Holds root.nextScope (topMembers document)) (named : WellNamed root document) :
    Nameable document := by
  have arrays : ∀ path members, Level document path members → ∀ a ∈ members,
      a.kind = .cjsonArray → ∀ name ∈ a.string, Addressable name := by
    intro path members level a mem array name hasName
    have loaded : memberName a = some name := by
      rw [memberName, hasName, Option.bind_some, array]
    obtain ⟨n, there, holds'⟩ := level_holds holds level
    obtain ⟨d, found⟩ := exists_memberOf mem loaded
    obtain ⟨c, hc, _⟩ := holds_down holds' found
    refine addressable_fold (key_of_avlsearch Node.scopeKey hc) (named.legal path (fold name) c ?_)
    rw [getAt_append, there, Option.bind_some, getAt_single, hc]
  refine ⟨arrays, fun path members level a memA b memB loadedA loadedB name hasName name' hasName'
    differ alike => ?_⟩
  obtain ⟨k, namedA⟩ := Option.ne_none_iff_exists'.mp loadedA
  obtain ⟨k', namedB⟩ := Option.ne_none_iff_exists'.mp loadedB
  have filedA := filedName_of_memberName hasName
    (fun array => arrays path members level a memA array name hasName) namedA
  have filedB := filedName_of_memberName hasName'
    (fun array => arrays path members level b memB array name' hasName') namedB
  have keys : fold k = fold k' := by
    rw [filedA, filedB, filedName, if_pos alike.1]
    exact alike.2
  obtain ⟨n, there, _⟩ := level_holds holds level
  refine named.apart path members level n there a memA b memB ?_ k k' namedA namedB
    (congrArg (fun key => n.follow (.scope key)) keys)
  rw [hasName, hasName', Option.map_some, Option.map_some]
  exact fun same => differ (Option.some.inj same)

theorem wellNamed_iff (shape : Producible document) (root : document.string = none)
    (info : NodeInfo) :
    WellNamed (ldrLoadArchive (.mk info .nil []) document) document ↔ Nameable document := by
  have holds : Holds (ldrLoadArchive (.mk info .nil []) document).nextScope
      (topMembers document) := holds_ldrLoadArchive shape root rfl
  have noItems : (ldrLoadArchive (.mk info .nil []) document).array = [] :=
    (kept_ldrNextMisc [document] none (.mk info .nil [])).2.1
  exact ⟨nameable_of_wellNamed holds, wellNamed_of_nameable shape holds noItems⟩

end Law

section Examples

/-- `{"a.b":[]}`: the node of the array has a name that no key can spell. -/
def dottedDocument : Item Nat :=
  .mk 1 none .cjsonObject [.mk 2 (some (ofChars ['a', '.', 'b'])) .cjsonArray []]

def longName (last : Char) : Bytes := List.replicate 191 120 ++ ofChars [last]

def longMember (addr : Addr) (last : Char) : Item Nat :=
  .mk addr (some (longName last)) .cjsonObject []

/-- Two objects with names of 192 bytes that differ in the last one. -/
def longDocument : Item Nat :=
  .mk 1 none .cjsonObject
    [longMember 2 'a', longMember 3 'b']

def archive : NodeInfo := { NodeInfo.blank 7 with jsl := .archive }

theorem not_wellNamed :
    ¬ WellNamed (ldrLoadArchive (.mk archive .nil []) dottedDocument) dottedDocument ∧
      ¬ WellNamed (ldrLoadArchive (.mk archive .nil []) longDocument) longDocument := by
  constructor
  · intro named
    have bad := named.legal [] (ofChars ['a', '.', 'b']) _ rfl
    exact bad.2.2 46 (by decide) (by decide)
  · intro named
    have differ : (longMember 2 'a').string.map fold ≠ (longMember 3 'b').string.map fold := by
      decide +kernel
    have filed : memberName (longMember 2 'a') = some (cut (longName 'a')) := by decide +kernel
    have filed' : memberName (longMember 3 'b') = some (cut (longName 'b')) := by decide +kernel
    have same : cut (longName 'a') = cut (longName 'b') := by decide +kernel
    exact named.apart [] [longMember 2 'a', longMember 3 'b'] .top _ rfl _ List.mem_cons_self _
      (List.mem_cons_of_mem _ List.mem_cons_self) differ _ _ filed filed' (by rw [same])

theorem arrayDocument_wellNamed :
    WellNamed (ldrLoadArchive (.mk archive .nil []) (arrayDocument (ofChars ['a', 'r', 'r'])))
      (arrayDocument (ofChars ['a', 'r', 'r'])) ↔
    Nameable (arrayDocument (ofChars ['a', 'r', 'r'])) :=
  wellNamed_iff (arrayDocument_ok (legalName_iff.mpr (by decide +kernel))).1 rfl archive

end Examples

end LoaderNames
