import Cfgd.ChangeNotice
import Cfgd.DocumentItems
import Cfgd.LoaderNames
import Cfgd.Reload

/-!
# The tree and the documents of it

Every update changes the documents along with the tree. Where the documents are made of
objects, arrays and strings with names that the loader takes, the tree that is loaded from
a document answers every key as the tree that was updated does.
-/

namespace Coherence

open AvlTree CText CJson Item Request ConfigNode Loader FsImage Runtime DocTree DeleteRange
open KeyShape Reach UpdateCases HeapEdit HeapGrowth RegularTree Levels PlainDoc Backing SideBySide
open WriteEffects ChangeNotice DocumentItems Reload

variable {ν : Type}

section Updates
variable [DoubleText ν]
variable {world : World ν} {jrp : Jrp} {v : Bytes} {u : Updated ν} {n c : Node} {p : Path}
    {s : Step}
variable {full : Bytes → Bytes → Prop} {P : Addr → Option Bytes → Kind ν → Prop}

/-- The item of a node below a node that lies in an archive. -/
theorem item_of_node (h : Backed full world) (there : (rootNode world.root).getAt p = some n)
    (deep : 2 ≤ p.length) (found : n.follow s = some c) :
    ∃ z ∈ world.store.heap.roots.flatMap items, c.info.jsonptr = some z.addr ∧
      world.store.heap.deref z.addr = some z ∧
      z.string.map fold = match s with
        | .scope key => some key
        | .item _ => none := by
  obtain ⟨d, a, q, rfl⟩ := below_archive h.regular there deep
  obtain ⟨D, x, stands, _⟩ := h.edit there
  obtain ⟨z, seat, _, overlay⟩ := stands.overlay.down found
  have inHeap := child_inHeap stands seat.child
  refine ⟨z, inHeap, overlay.here.linked.ptr, deref_of_mem h.separate inHeap, ?_⟩
  cases s with
  | scope key => exact seat.2
  | item i => rw [seat.2]; rfl

omit [DoubleText ν] in
/-- Fields and arrays lie below an archive. -/
theorem deep_of_level (regular : Regular 0 (rootNode world.root))
    (there : (rootNode world.root).getAt p = some n)
    (level : n.info.jsl = .field ∨ n.info.jsl = .array) : 3 ≤ p.length := by
  by_contra short
  have stands := (regular_at regular there).here.stands
  match hp : p.length, stands with
  | 0, stands => rcases level with h | h <;> rw [h] at stands <;> cases stands
  | 1, stands => rcases level with h | h <;> rw [h] at stands <;> cases stands
  | 2, stands => rcases level with h | h <;> rw [h] at stands <;> cases stands
  | n + 3, _ => omega

/-- What replaces the item of a value has the property. -/
def Replaceable (P : Addr → Option Bytes → Kind ν → Prop) (heap : Heap ν) (v : Bytes) : Prop :=
  ∀ x ∈ heap.roots.flatMap items, ∀ string kind, string.map fold = x.string.map fold →
    NewKind v x.kind kind → P heap.nextAddr string kind

/-- An update keeps a property that the items have which it makes. -/
theorem each_rtConfigUpdate (h : Backed full world) (each : Each P world.store.heap)
    (accepted : AcceptedKey jrp.segm) (value : jrp.valuestring = some v)
    (admits : v ≠ keywordDeleted → Admits P world.store.heap.nextAddr v jrp.segm)
    (replaceable : v ≠ keywordDeleted → Replaceable P world.store.heap v)
    (done : rtConfigUpdate world jrp = some u) : Each P u.world.store.heap := by
  cases update_cases h.regular.built accepted value done with
  | refused archive => exact each
  | delete walk found target keyword call checkpoints archive => exact each_rtDelete each call
  | @field path passed n c segm walk found level level' keep archive =>
    have there := getAt_of_walks walk
    have deep := deep_of_level h.regular (getAt_member walk found) (Or.inl level)
    rw [List.length_append, List.length_singleton] at deep
    obtain ⟨z, inHeap, ptr, deref, named⟩ := item_of_node h there (by omega) found
    rcases rtFieldUpdate_cases world.store v level with
      ⟨same, _⟩ | ⟨parent, heap, item, _, made, same⟩
    · rw [same]
      exact each
    · rw [ptr] at made
      obtain ⟨kind, new, rfl, rfl⟩ := newOne_spec deref made
      rw [same]
      have each' : Each P { world.store.heap with nextAddr := world.store.heap.nextAddr + 1 } :=
        each
      refine each_cjsonReplaceItemInObject each' parent c.info.scopeName rfl ?_
      refine replaceable keep z inHeap _ kind ?_ new
      rw [named]
      exact congrArg some (key_of_avlsearch Node.scopeKey found)
  | @item path passed n c segm walk found level level' place keep archive =>
    have there := getAt_member walk found
    have deep := deep_of_level h.regular there (Or.inr level)
    rcases place with ⟨k, place⟩ | entire
    · obtain ⟨e, entered⟩ := placeOf_entered (regular_at h.regular there).here.size place
      obtain ⟨z, inHeap, ptr, deref, named⟩ := item_of_node h there (by omega) entered
      rcases rtArrayFieldUpdate_cases world.store v place entered level with
        ⟨same, _⟩ | ⟨array, heap, item, _, made, same⟩
      · rw [same]
        exact each
      · rw [ptr] at made
        obtain ⟨kind, new, rfl, rfl⟩ := newOne_spec deref made
        rw [same]
        have each' : Each P { world.store.heap with nextAddr := world.store.heap.nextAddr + 1 } :=
          each
        exact each_cjsonReplaceItemInArray each' array k rfl
          (replaceable keep z inHeap none kind named.symm new)
    · have order : jaSymLast < jaSymEntire := by decide
      obtain ⟨d, a, q, same⟩ := below_archive h.regular there (by omega)
      rw [same] at there
      obtain ⟨D, x, stands, _⟩ := h.edit there
      have room := stands.overlay.here.room
      rw [entire, rtArrayFieldUpdate_entire world.store v (Int.le_of_lt (room.trans order))]
      exact each
  | missing walk started missing level noFile keep archive =>
    refine each_rtAppend ((admits keep).mono ?_) _ _ (Nat.le_refl _) each
    exact (suffix_of_walks walk).subset
  | extend walk found level level' next keep archive =>
    refine each_rtAppend ((admits keep).mono ?_) _ _ (Nat.le_refl _) each
    exact (suffix_of_walks walk).subset

end Updates

section Words

/-- An object, an array or a string, under a name that the loader takes as it is. -/
def Wordy (_ : Addr) (string : Option Bytes) (kind : Kind ν) : Prop :=
  (kind = .cjsonObject ∨ kind = .cjsonArray ∨ ∃ v, kind = .cjsonString v) ∧
    ∀ name, string = some name → LegalName name

theorem taken_of_wordy {x : Item ν} (h : Wordy x.addr x.string x.kind) : Taken x := by
  intro name named
  have legal : ldrOrganizeScopeName name = some name := h.2 name named
  rcases h.1 with kind | kind | ⟨v, kind⟩ <;> simp [memberName, named, kind, legal]

theorem legalName_fold {name other : Bytes} (same : fold name = fold other)
    (h : LegalName name) : LegalName other :=
  legalName_iff.mpr (LoaderNames.addressable_fold same (legalName_iff.mp h))

/-- A name that is short enough is taken as it is, if it is taken. -/
theorem legalName_of_accepted {name : Bytes} (fits : name.length < maxPreSegSize)
    (accepted : ldrOrganizeScopeName name ≠ none) : LegalName name := by
  rw [LegalName]
  rw [ldrOrganizeScopeName] at accepted ⊢
  split at accepted
  · exact absurd rfl accepted
  · rename_i legal
    rw [if_neg legal, if_neg (Nat.not_le.mpr fits)]
    rw [if_neg (Nat.not_le.mpr fits)] at accepted
    split at accepted
    · exact absurd rfl accepted
    · rename_i filled
      rw [if_neg filled]

variable {world : World ν} {jrp : Jrp} {u : Updated ν}

/-- The loader takes the names of the request. -/
def Accepts (jrp : Jrp) : Prop := ∀ segm ∈ jrp.segm, ldrOrganizeScopeName segm.name ≠ none

variable [DoubleText ν]

/-- A tree over documents that are made of words. -/
structure Worded (world : World ν) : Prop where
  backed : Backed (fun _ _ => True) world
  each : Each Wordy world.store.heap

theorem worded_update (h : Worded world) (received : Catalog.Received jrp) (names : Accepts jrp)
    (done : rtConfigUpdate world jrp = some u) : Worded u.world := by
  refine ⟨backed_update h.backed received done, ?_⟩
  have accepted := received.accepted
  have legal : ∀ segm ∈ jrp.segm, LegalName segm.name := fun segm mem =>
    legalName_of_accepted (ItemNumbers.nameFits_of_accepted accepted segm mem).2 (names segm mem)
  cases value : jrp.valuestring with
  | none =>
    rw [rtConfigUpdate, value] at done
    obtain rfl := Option.some.inj done
    exact h.each
  | some v =>
    have unnamed : ∀ {a : Addr} {kind : Kind ν},
        kind = .cjsonObject ∨ kind = .cjsonArray ∨ (∃ v, kind = .cjsonString v) →
        Wordy a none kind := fun kind => ⟨kind, by simp⟩
    have named : ∀ {a : Addr} {kind : Kind ν}, ∀ segm ∈ jrp.segm,
        kind = .cjsonObject ∨ kind = .cjsonArray ∨ (∃ v, kind = .cjsonString v) →
        Wordy a (some segm.name) kind := by
      intro a kind segm mem type
      refine ⟨type, fun name same => ?_⟩
      obtain rfl := Option.some.inj same
      exact legal segm mem
    refine each_rtConfigUpdate h.backed h.each accepted value (fun _ => ⟨?_, ?_, ?_, ?_⟩) ?_ done
    · exact fun a _ => ⟨unnamed (Or.inl rfl), unnamed (Or.inr (Or.inl rfl)),
        unnamed (Or.inr (Or.inr ⟨v, rfl⟩))⟩
    · exact fun a _ segm mem _ => named segm mem (Or.inr (Or.inr ⟨v, rfl⟩))
    · exact fun a _ segm mem _ => named segm mem (Or.inl rfl)
    · exact fun a _ segm mem _ => named segm mem (Or.inr (Or.inl rfl))
    · rintro _ x mem string kind same new
      obtain ⟨type, legalX⟩ := h.each x mem
      refine ⟨?_, fun name hname => ?_⟩
      · generalize x.kind = old at type new
        cases new with
        | string => exact Or.inr (Or.inr ⟨v, rfl⟩)
        | number => simp at type
      · rw [hname] at same
        obtain ⟨name', hname', same'⟩ := Option.map_eq_some_iff.mp same.symm
        exact legalName_fold same' (legalX name' hname')

/-- Every archive is answered as the tree that `ldr_next_misc` builds from its document. -/
def ReloadsAlike (world : World ν) : Prop :=
  ∀ d a, (rootNode world.root).getAt (archiveAt d a) ≠ none →
    ∃ tree, reloaded world d a = some tree ∧ ∀ jrp, rtSearch tree jrp = rtSearch world.root jrp

theorem reloadsAlike_of_worded (h : Worded world) : ReloadsAlike world := by
  intro d a file
  obtain ⟨archive, there⟩ := Option.ne_none_iff_exists'.mp file
  have wordy : ∀ D, documentOf world d a = some D → ∀ x ∈ D.items, Wordy x.addr x.string x.kind :=
    fun D document x inside => h.each x (inHeap_of_document document inside)
  refine reload_search h.backed there (fun D document x inside =>
    taken_of_wordy (wordy D document x inside)) fun D document x inside r number => ?_
  have type := (wordy D document x inside).1
  rw [number] at type
  simp at type

end Words

open Transition ItemNumbers LoadedTree SearchSound

section Loading
variable {images : List (DirImage ν)} {store : Store ν} {D x c : Item ν}

theorem producible_of_plain (h : Plain D) : Producible D := by
  induction h with
  | object named distinct below ih =>
    refine .object (fun c mem none => ?_) ih
    obtain ⟨name, same, _⟩ := named c mem
    rw [none] at same
    cases same
  | array unnamed flat below ih => exact .array unnamed ih
  | string => exact .leaf nofun nofun

theorem plain_items (h : Plain D) : ∀ x ∈ D.items, Plain x := by
  have inside : ∀ {j : Item ν}, Plain j → (∀ d ∈ j.child, ∀ x ∈ d.items, Plain x) →
      ∀ x ∈ j.items, Plain x := by
    intro j own lower x hx
    rw [items_eq, List.mem_cons] at hx
    rcases hx with rfl | hx
    · exact own
    · obtain ⟨d, hd, hx⟩ := List.mem_flatMap.mp hx
      exact lower d hd x hx
  induction h with
  | object named distinct below ih => exact inside (.object named distinct below) ih
  | array unnamed flat below ih => exact inside (.array unnamed flat below) ih
  | string => exact inside .string nofun

/-- The names of what stands below a plain item. -/
theorem legal_of_plain (h : Plain x) (child : c ∈ x.child) {name : Bytes}
    (named : c.string = some name) : LegalName name := by
  cases h with
  | object members _ _ =>
    obtain ⟨name', same, legal⟩ := members c child
    obtain rfl := Option.some.inj (named.symm.trans same)
    exact legal
  | array unnamed _ _ =>
    rw [unnamed c child] at named
    cases named
  | string => cases child

theorem wordy_of_plain (h : Plain D) (legal : ∀ name, D.string = some name → LegalName name) :
    ∀ x ∈ D.items, Wordy x.addr x.string x.kind := by
  induction D using Item.induct with
  | step j ih =>
    intro x hx
    rw [items_eq, List.mem_cons] at hx
    rcases hx with rfl | hx
    · refine ⟨?_, legal⟩
      cases h with
      | object => exact Or.inl rfl
      | array => exact Or.inr (Or.inl rfl)
      | string => exact Or.inr (Or.inr ⟨_, rfl⟩)
    · obtain ⟨d, hd, hx⟩ := List.mem_flatMap.mp hx
      have below := plain_items h d (mem_items_of_child hd (self_mem_items d))
      exact ih d hd below (fun name named => legal_of_plain h hd named) x hx

/-- The levels of the items in a plain document. -/
theorem known_of_plain (h : Plain x) (child : c ∈ x.child) : itemJsl c ≠ .dir := by
  have below := plain_items h c (mem_items_of_child child (self_mem_items c))
  cases h with
  | object named _ _ =>
    obtain ⟨name, same, _⟩ := named c child
    cases below with
    | object => obtain rfl : _ = some name := same; nofun
    | array => obtain rfl : _ = some name := same; nofun
    | string => obtain rfl : _ = some name := same; nofun
  | array unnamed flat _ =>
    have same := unnamed c child
    have other := flat c child
    cases below with
    | object => obtain rfl : _ = none := same; nofun
    | array => exact absurd rfl other
    | string => obtain rfl : _ = none := same; nofun
  | string => cases child

variable [DoubleText ν]

/-- Documents of a kind in memory, and the tree that is loaded from them. -/
structure StartsWith (ok : Item ν → Prop) (images : List (DirImage ν)) (store : Store ν) :
    Prop where
  loadable : Loadable images store.heap
  documents : ∀ D ∈ store.heap.roots, ok D ∧ D.string = none ∧ Levels.Countable D
  blocks : (rootNode (loadedRoot images)).idents.Nodup
  given : ∀ i ∈ (rootNode (loadedRoot images)).idents, i < store.heap.nextAddr

theorem worded_loaded (h : StartsWith (fun D => D.kind = .cjsonObject ∧ Plain D) images store) :
    Worded ⟨loadedRoot images, store⟩ := by
  have root : ∀ dir ∈ images, ∀ image ∈ dir.archives, (image.document.kind = .cjsonObject ∧
      Plain image.document) ∧ image.document.string = none ∧ Levels.Countable image.document :=
    fun dir hd image hi => h.documents _ (h.loadable.memory dir hd image hi)
  have legible : ∀ {D : Item ν}, Plain D → Levels.Countable D → Legible True D := by
    intro D plain countable
    refine ⟨producible_of_plain plain, countable, ?_, fun _ x inside => ⟨?_, ?_⟩⟩
    · exact fun x inside c child name named =>
        legal_of_plain (plain_items plain x inside) child named
    · exact fun object => ((plain_items plain x inside).members object).distinct
    · exact fun c child => known_of_plain (plain_items plain x inside) child
  constructor
  · exact backed_loaded ⟨h.loadable, fun dir hd image hi => (root dir hd image hi).2.1,
      fun dir hd image hi => (root dir hd image hi).1.1,
      fun dir hd image hi => legible (root dir hd image hi).1.2 (root dir hd image hi).2.2,
      h.blocks, h.given⟩
  · intro x mem
    obtain ⟨D, inRoots, inside⟩ := List.mem_flatMap.mp mem
    obtain ⟨⟨_, plain⟩, unnamed, _⟩ := h.documents D inRoots
    refine wordy_of_plain plain (fun name named => ?_) x inside
    rw [unnamed] at named
    cases named

/-- The world after `rt_config_update`. -/
def update (world : World ν) (jrp : Jrp) : Option (World ν) :=
  (rtConfigUpdate world jrp).map Updated.world

/-- Every archive of a tree that was loaded from plain documents is answered, after any
requests, as the tree that is loaded from its document then. -/
theorem always_reloadsAlike
    (start : StartsWith (fun D => D.kind = .cjsonObject ∧ Plain D) images store)
    (requests : List Jrp) (names : ∀ jrp ∈ requests, Catalog.Received jrp ∧ Accepts jrp) :
    Always update ReloadsAlike ⟨loadedRoot images, store⟩ requests := by
  refine always_mono (fun _ h => reloadsAlike_of_worded h) ?_
  refine always_of_along ?_ (worded_loaded start) (along_of_forall names _)
  intro world jrp world' h ⟨received, accepts⟩ done
  obtain ⟨u, updated, rfl⟩ := Option.map_eq_some_iff.mp done
  exact worded_update h received accepts updated

end Loading

section Counterexamples

/-- Objects, strings and arrays of objects or strings, with names that
`ldr_organize_scope_name` accepts, cut or not, and that differ within an object. -/
inductive Acceptable : Item ν → Prop where
  | object {addr : Addr} {string : Option Bytes} {child : List (Item ν)}
      (named : ∀ c ∈ child, ∃ name, c.string = some name ∧ ldrOrganizeScopeName name ≠ none)
      (distinct : Distinct child) (below : ∀ c ∈ child, Acceptable c) :
      Acceptable (.mk addr string .cjsonObject child)
  | array {addr : Addr} {string : Option Bytes} {child : List (Item ν)}
      (unnamed : ∀ c ∈ child, c.string = none) (flat : ∀ c ∈ child, c.kind ≠ .cjsonArray)
      (below : ∀ c ∈ child, Acceptable c) : Acceptable (.mk addr string .cjsonArray child)
  | string {addr : Addr} {string : Option Bytes} {valuestring : Bytes} :
      Acceptable (.mk addr string (.cjsonString valuestring) [])

/-- `[{}]` -/
def arrayRoot : Item Nat := .mk 1 none .cjsonArray [.mk 2 none .cjsonObject []]

def cutName : Bytes := List.replicate 192 97

/-- An object with one member, of a name that the loader cuts. -/
def cutDocument : Item Nat :=
  .mk 1 none .cjsonObject [.mk 2 (some cutName) (.cjsonString (ofChars ['x'])) []]

/-- `{"arr":["x"]}` -/
def wordsDocument : Item Nat := arrayDocument (ofChars ['a', 'r', 'r'])

abbrev storeOf (document : Item Nat) : Store Nat := ⟨⟨[document], 8⟩, .zero, [], []⟩

/-- A document in memory by itself. -/
theorem startsWith_one {ok : Item Nat → Prop} {document : Item Nat} (kind : ok document)
    (root : document.string = none) (countable : Levels.Countable document)
    (addresses : (document.addrs.Nodup) ∧ ∀ b ∈ document.addrs, b < 8)
    (fit : ArraysFit document)
    (blocks : (rootNode (loadedRoot (oneArchive document))).idents.Nodup ∧
      ∀ i ∈ (rootNode (loadedRoot (oneArchive document))).idents, i < 8) :
    StartsWith ok (oneArchive document) (storeOf document) := by
  have single : ∀ {P : Item Nat → Prop}, P document →
      ∀ dir ∈ oneArchive document, ∀ image ∈ dir.archives, P image.document := by
    intro P h dir hd image hi
    obtain rfl := List.mem_singleton.mp hd
    obtain rfl := List.mem_singleton.mp hi
    exact h
  have own : (storeOf document).heap.roots.flatMap addrs = document.addrs :=
    List.flatMap_singleton ..
  refine ⟨⟨⟨?_, ?_⟩, single (List.mem_singleton.mpr rfl), @single ArraysFit fit⟩, ?_, blocks.1,
    blocks.2⟩
  · rw [own]
    exact addresses.1
  · rw [own]
    exact addresses.2
  · intro D mem
    obtain rfl := List.mem_singleton.mp mem
    exact ⟨kind, root, countable⟩

/-- `d.a.z=1` -/
def zPayload : Bytes := ofChars ['d', '.', 'a', '.', 'z', '=', '1']

def zRequest : Jrp where
  segm := [⟨ofChars ['d'], -1, .dir⟩, ⟨ofChars ['a'], -1, .archive⟩, ⟨ofChars ['z'], -1, .field⟩]
  valuestring := some (ofChars ['1'])
  dupkey := ofChars ['d', '.', 'a', '.', 'z']
  dupvalue := ofChars ['1']

theorem zRequest_received : Catalog.Received zRequest ∧ Accepts zRequest :=
  ⟨⟨zPayload, by decide +kernel⟩, by unfold Accepts; decide +kernel⟩

/-- The name under which the member is filed, as it is deleted. -/
def cutRequest : Jrp where
  segm := [⟨ofChars ['d'], -1, .dir⟩, ⟨ofChars ['a'], -1, .archive⟩,
    ⟨LoaderNames.cut cutName, -1, .field⟩]
  valuestring := some keywordDeleted
  dupkey := ofChars ['d', '.', 'a', '.'] ++ LoaderNames.cut cutName
  dupvalue := keywordDeleted

theorem cutRequest_received : Catalog.Received cutRequest ∧ Accepts cutRequest :=
  ⟨⟨cutRequest.dupkey ++ 61 :: keywordDeleted, by decide +kernel⟩,
    by unfold Accepts; decide +kernel⟩

abbrev worldOf (document : Item Nat) : World Nat :=
  ⟨loadedRoot (oneArchive document), storeOf document⟩

/-- Whether the archive is there after a request, and how its key is answered by the tree and
by the tree that is loaded from the document. -/
def seen (document : Item Nat) (jrp : Jrp) : Option (Bool × Int × Option Int) :=
  (update (worldOf document) jrp).map fun world =>
    (((rootNode world.root).getAt (archiveAt (ofChars ['d']) (ofChars ['a']))).isSome,
      (rtSearch world.root jrp).1,
      (reloaded world (ofChars ['d']) (ofChars ['a'])).map fun tree => (rtSearch tree jrp).1)

theorem not_alike {document : Item Nat} {jrp : Jrp} {live : Int} {fresh : Option Int}
    (shown : seen document jrp = some (true, live, fresh)) (differ : fresh ≠ some live) :
    ¬ Always update ReloadsAlike (worldOf document) [jrp] := by
  rintro ⟨_, always⟩
  obtain ⟨world, done, shown⟩ := Option.map_eq_some_iff.mp shown
  obtain ⟨there, rfl, rfl⟩ : _ ∧ _ ∧ _ := by simpa only [Prod.mk.injEq] using shown
  obtain ⟨tree, loaded, same⟩ := always world done _ _ (Option.isSome_iff_ne_none.mp there)
  rw [loaded, Option.map_some, same jrp] at differ
  exact differ rfl

/-- The document is the array still, in which nothing has a name for the loader. -/
theorem arrayRoot_seen : seen arrayRoot zRequest = some (true, 0, some (-1)) := by decide +kernel

/-- The field is gone from the tree, and its member is in the document still. -/
theorem cutDocument_seen : seen cutDocument cutRequest = some (true, -1, some 0) := by
  decide +kernel

theorem arrayRoot_starts : StartsWith Acceptable (oneArchive arrayRoot) (storeOf arrayRoot) := by
  refine startsWith_one ?_ rfl (by unfold Levels.Countable; decide +kernel) (by decide +kernel)
    (by unfold ArraysFit; decide +kernel) (by decide +kernel)
  refine .array (by simp) (by simp) fun c hc => ?_
  obtain rfl := List.mem_singleton.mp hc
  exact .object nofun List.Pairwise.nil nofun

theorem cutDocument_starts : StartsWith (fun D => D.kind = .cjsonObject ∧ Acceptable D)
    (oneArchive cutDocument) (storeOf cutDocument) := by
  refine startsWith_one ⟨rfl, ?_⟩ rfl (by unfold Levels.Countable; decide +kernel)
    (by decide +kernel)
    (by unfold ArraysFit; decide +kernel) (by decide +kernel)
  refine .object (fun c hc => ?_) (List.pairwise_singleton ..) fun c hc => ?_
  · obtain rfl := List.mem_singleton.mp hc
    exact ⟨cutName, rfl, by decide +kernel⟩
  · obtain rfl := List.mem_singleton.mp hc
    exact .string

/-- What is written to an archive with an array for a document is not in the document as the
loader reads it; and what is deleted under a name that was cut stays in the document. -/
theorem not_always_reloadsAlike :
    (¬ ∀ (images : List (DirImage Nat)) (store : Store Nat) (requests : List Jrp),
      StartsWith Acceptable images store →
      (∀ jrp ∈ requests, Catalog.Received jrp ∧ Accepts jrp) →
      Always update ReloadsAlike ⟨loadedRoot images, store⟩ requests) ∧
    ¬ ∀ (images : List (DirImage Nat)) (store : Store Nat) (requests : List Jrp),
      StartsWith (fun D => D.kind = .cjsonObject ∧ Acceptable D) images store →
      (∀ jrp ∈ requests, Catalog.Received jrp ∧ Accepts jrp) →
      Always update ReloadsAlike ⟨loadedRoot images, store⟩ requests := by
  constructor
  · intro claim
    refine not_alike arrayRoot_seen (by decide) (claim _ _ _ arrayRoot_starts ?_)
    exact List.forall_mem_singleton.mpr zRequest_received
  · intro claim
    refine not_alike cutDocument_seen (by decide) (claim _ _ _ cutDocument_starts ?_)
    exact List.forall_mem_singleton.mpr cutRequest_received

/-- `{"arr":["x"]}`, to which `d.a.z=1` is written. -/
theorem always_reloadsAlike_words :
    Always update ReloadsAlike (worldOf wordsDocument) [zRequest] := by
  have legal : LegalName (ofChars ['a', 'r', 'r']) := legalName_iff.mpr (by decide +kernel)
  refine always_reloadsAlike (startsWith_one ⟨rfl, (arrayDocument_ok legal).2.1⟩ rfl
    (by unfold Levels.Countable; decide +kernel) (by decide +kernel)
    (by unfold ArraysFit; decide +kernel)
    (by decide +kernel)) [zRequest] (List.forall_mem_singleton.mpr zRequest_received)

end Counterexamples

end Coherence
