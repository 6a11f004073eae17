import Cfgd.ItemNumbers
import Cfgd.SideBySide

/-!
# A loaded tree stands over its documents

What the loader builds for documents whose names it takes as they are.
-/

namespace LoadedTree

open AvlTree CText CJson Item Request ConfigNode Loader Runtime DocTree DeleteRange DeleteTargets
open PlainDoc DocSearch SearchSound HeapEdit RegularTree Levels Backing SideBySide ItemNumbers

variable {ν : Type}

section Documents
variable {full : Prop} {next : Nat} {n : Node} {j d : Item ν}

/-- The names of a document that the loader takes as they are. With `full` it loads
everything that is there. -/
structure Legible (full : Prop) (D : Item ν) : Prop where
  shape : Producible D
  countable : Countable D
  names : ∀ x ∈ D.items, ∀ c ∈ x.child, ∀ name, c.string = some name → LegalName name
  whole : full → ∀ x ∈ D.items, (x.kind = .cjsonObject → Distinct x.child) ∧
    ∀ c ∈ x.child, itemJsl c ≠ .dir

theorem Legible.child (h : Legible full j) (child : d ∈ j.child) : Legible full d where
  shape := by
    cases h.shape with
    | object names below => exact below d child
    | array names below => exact below d child
    | leaf => cases child
  countable := countable_child h.countable child
  names x inside := h.names x (mem_items_of_child child inside)
  whole isFull x inside := h.whole isFull x (mem_items_of_child child inside)

theorem memberName_legal {name : Bytes} (named : d.string = some name) (legal : LegalName name) :
    memberName d = if itemJsl d = .dir then none else some name := by
  have loads : ldrOrganizeScopeName name = some name := legal
  cases kind : d.kind <;> simp [memberName, itemJsl, named, kind, loads]

/-- The item that a step leads to in a document has the name of the step. -/
theorem seat_of_follow (h : Legible full j) {s : Step} (step : DocTree.follow j s = some d) :
    Seat j s d := by
  have child := child_of_follow step
  rw [DocTree.follow.eq_def] at step
  cases s with
  | scope key =>
    dsimp only at step
    split at step
    · rename_i object
      have right := List.find?_some step
      obtain ⟨name, named⟩ := named_of_memberOf step
      rw [decide_eq_true_eq, memberName_legal named
        (h.names j (self_mem_items j) d child name named)] at right
      split at right
      · cases right
      · exact ⟨child, by rw [named]; exact right⟩
    · cases step
  | item i =>
    dsimp only at step
    split at step
    · rename_i array _
      exact ⟨step, (h.countable j (self_mem_items j)).2 array d child⟩
    · cases step

variable [DoubleText ν]

theorem tells_of_shows {c : Node} (h : Shows c d) : Tells c d := by
  refine ⟨h.jsl, fun s string => h.value ?_⟩
  rw [h.jsl]
  cases named : d.string <;> simp [itemJsl, isLeaf, named, string]

theorem nodup_of_idents {l : List Node} (h : (l.flatMap Node.idents).Nodup) :
    (l.map fun e => e.info.ident).Nodup := by
  induction l with
  | nil => exact List.nodup_nil
  | cons c rest ih =>
    rw [List.flatMap_cons, List.nodup_append'] at h
    refine List.nodup_cons.mpr ⟨fun mem => ?_, ih h.2.1⟩
    obtain ⟨e, he, same⟩ := List.mem_map.mp mem
    have own : c.info.ident ∈ e.idents := by
      have equal : e.info.ident = c.info.ident := same
      rw [← equal]
      exact ident_mem_idents e
    exact h.2.2 (ident_mem_idents c) (List.mem_flatMap.mpr ⟨e, he, own⟩)

/-- Every member of a document that is loaded as a whole has a node. -/
theorem whole_of_mirrors (h : Mirrors n j) (legible : Legible full j) (isFull : full)
    (entered : j.kind = .cjsonObject ∨ j.child = []) : Distinct j.child ∧
      ∀ d ∈ j.child, ∃ key, d.string.map fold = some key ∧ (n.follow (.scope key)).isSome := by
  rcases entered with object | none
  · obtain ⟨distinct, loaded⟩ := legible.whole isFull j (self_mem_items j)
    refine ⟨distinct object, fun d child => ?_⟩
    have named : ∃ name, d.string = some name := by
      cases legible.shape with
      | object names below => exact Option.ne_none_iff_exists'.mp (names d child)
      | array => cases object
      | leaf => cases child
    obtain ⟨name, named⟩ := named
    have own := memberName_legal named (legible.names j (self_mem_items j) d child name named)
    rw [if_neg (loaded d child)] at own
    refine ⟨fold name, by rw [named]; rfl, ?_⟩
    have found : (DocTree.follow j (.scope (fold name))).isSome := by
      rw [DocTree.follow.eq_def]
      simp only [object]
      refine List.find?_isSome.mpr ⟨d, child, ?_⟩
      rw [own]
      exact decide_eq_true rfl
    obtain ⟨x, hx⟩ := Option.isSome_iff_exists.mp found
    obtain ⟨c, hc, _⟩ := h.up hx
    rw [hc]
    rfl
  · rw [none]
    exact ⟨List.Pairwise.nil, by simp⟩

/-- A node that mirrors its item stands over it. -/
theorem over_of_mirrors (h : Mirrors n j)
    (level : n.info.jsl = itemJsl j ∨ (n.info.jsl = .archive ∧ j.kind = .cjsonObject))
    (entered : full → itemJsl j ≠ .dir) (built : Built n) (legible : Legible full j)
    (nodup : n.idents.Nodup) (given : ∀ i ∈ n.idents, i < next) : Over full next n j := by
  induction h with
  | @mk n j linked both shown below ih =>
    have self : Mirrors n j := .mk linked both shown below
    have isArray : n.info.jsl = .array → itemJsl j = .array := by
      intro array
      rcases level with same | ⟨archive, _⟩
      · exact same ▸ array
      · rw [array] at archive
        cases archive
    have blocks := nodup
    rw [idents_eq, List.nodup_cons, List.nodup_append'] at blocks
    apply over_of_steps
    · refine ⟨linked, ?_, fun array => length_of_mirrors self (isArray array), ?_,
        nodup_of_idents blocks.2.2.1, ?_, ?_, ?_⟩
      · have short := (legible.countable j (self_mem_items j)).1
        by_cases array : n.info.jsl = .array
        · rw [arraysize_of_mirrors self (isArray array)]
          exact short
        · rw [linked.size, built.noItems array]
          decide
      · intro leaf
        have isValue : isLeaf (itemJsl j) = true := by
          rcases level with same | ⟨archive, _⟩
          · rwa [← same]
          · rw [archive] at leaf
            cases leaf
        cases legible.shape with
        | object names => exact absurd isValue (by cases ‹Option Bytes› <;> simp [itemJsl, isLeaf])
        | array names => exact absurd isValue (by cases ‹Option Bytes› <;> simp [itemJsl, isLeaf])
        | leaf => rfl
      · intro e he
        refine given _ ?_
        rw [idents_eq]
        exact List.mem_cons_of_mem _ (List.mem_append_right _
          (List.mem_flatMap.mpr ⟨e, he, ident_mem_idents e⟩))
      · intro isFull other
        refine whole_of_mirrors self legible isFull ?_
        rcases level with same | ⟨_, object⟩
        · have notDir := entered isFull
          rw [same] at other
          cases legible.shape with
          | object => exact Or.inl rfl
          | @array addr string child names =>
            cases string with
            | none => exact absurd rfl notDir
            | some name => exact absurd rfl other
          | leaf => exact Or.inr rfl
        · exact Or.inl object
      · intro isFull
        rcases level with same | ⟨archive, _⟩
        · rw [same]
          exact entered isFull
        · simp [archive]
    · intro s c hc
      obtain ⟨d, hd, shows, _⟩ := self.down hc
      have child := child_of_follow hd
      obtain ⟨builtC, nodupC, subset⟩ := built_getAt built nodup
        (show n.getAt [s] = some c by rw [Catalog.getAt_one, hc])
      refine ⟨d, seat_of_follow legible hd, tells_of_shows shows, ih s c d hc hd (Or.inl shows.jsl)
        (fun isFull => (legible.whole isFull j (self_mem_items j)).2 d child) builtC
        (legible.child child) nodupC fun i hi => given i (subset hi)⟩

end Documents

section Worlds
variable [DoubleText ν]
variable {full : Bytes → Bytes → Prop} {images : List (DirImage ν)} {store : Store ν}

/-- The node of an archive mirrors its document. -/
theorem archive_mirrors {dir : DirImage ν} {image : ArchiveImage ν} {archive : Node}
    (shape : Producible image.document) (root : image.document.string = none)
    (object : image.document.kind = .cjsonObject)
    (made : archiveImageNode (loadedDir dir.ident dir.name) image = some archive) :
    Mirrors archive image.document ∧ archive.info.jsl = .archive ∧
      archive.info.jsonparentptr = none ∧ archive.info.ident = image.document.addr := by
  obtain ⟨empty, accepted, rfl⟩ := Option.map_eq_some_iff.mp made
  rw [archiveNode] at accepted
  split at accepted
  · cases accepted
  · obtain rfl := Option.some.inj accepted
    have top : topObject image.document = some image.document := by
      generalize image.document = document at object
      obtain ⟨addr, string, kind, child⟩ := document
      obtain rfl : kind = .cjsonObject := object
      rw [topObject]
    rw [ldrLoadArchive_eq shape root, top, loadTop]
    have kept := kept_loadChildren image.document
    refine ⟨(loadsWell _ shape).object object _ rfl rfl, ?_, ?_, ?_⟩
    · rw [(kept _).1]
      rfl
    · rw [(kept _).1]
      rfl
    · rw [(kept _).1]
      rfl

/-- A block is reached by one name only. -/
theorem follow_unique {n c c' : Node} {key key' : Bytes} (nodup : n.idents.Nodup)
    (found : n.follow (.scope key) = some c) (found' : n.follow (.scope key') = some c') {i : Nat}
    (inside : i ∈ c.idents) (inside' : i ∈ c'.idents) : key = key' ∧ c = c' := by
  rw [idents_eq, List.nodup_cons, List.nodup_append'] at nodup
  obtain rfl := eq_of_shared nodup.2.1 (mem_of_avlsearch Node.scopeKey found)
    (mem_of_avlsearch Node.scopeKey found') inside inside'
  exact ⟨(key_of_avlsearch Node.scopeKey found).symm.trans
    (key_of_avlsearch Node.scopeKey found'), rfl⟩

/-- What is loaded: documents in memory that are objects, as the loader takes them. -/
structure LoadedFrom (full : Prop) (images : List (DirImage ν)) (store : Store ν) : Prop where
  loadable : Loadable images store.heap
  root : ∀ dir ∈ images, ∀ image ∈ dir.archives, image.document.string = none
  object : ∀ dir ∈ images, ∀ image ∈ dir.archives, image.document.kind = .cjsonObject
  legible : ∀ dir ∈ images, ∀ image ∈ dir.archives, Legible full image.document
  blocks : (rootNode (loadedRoot images)).idents.Nodup
  given : ∀ i ∈ (rootNode (loadedRoot images)).idents, i < store.heap.nextAddr

/-- A loaded tree stands over its documents. -/
theorem backed_loaded {full : Prop} (h : LoadedFrom full images store) :
    Backed (fun _ _ => full) ⟨loadedRoot images, store⟩ := by
  have regular := (fine_loadedRoot h.loadable).regular
  have shapes : ∀ dir ∈ images, ∀ image ∈ dir.archives,
      Producible image.document ∧ image.document.string = none :=
    fun dir hd image hi => ⟨(h.legible dir hd image hi).shape, h.root dir hd image hi⟩
  have built := regular.built
  -- an archive of the tree, with the directory that it lies in
  have found : ∀ d a archive, (rootNode (loadedRoot images)).getAt (archiveAt d a) = some archive →
      ∃ dir, (rootNode (loadedRoot images)).follow (.scope d) = some dir ∧
        dir.follow (.scope a) = some archive ∧ ∃ image ∈ images, ∃ file ∈ image.archives,
          Mirrors archive file.document ∧ archive.info.jsl = .archive ∧
          archive.info.jsonparentptr = none ∧ archive.info.ident = file.document.addr := by
    intro d a archive there
    rw [Node.getAt] at there
    obtain ⟨dir, first, there⟩ := Option.bind_eq_some_iff.mp there
    rw [Catalog.getAt_one] at there
    refine ⟨dir, first, there, ?_⟩
    have mem : dir ∈ (loadedRoot images).toList := mem_of_avlsearch Node.scopeKey first
    have builtDir := built.scopes dir mem
    obtain ⟨image, hi, rfl⟩ := mem_loadedRoot built mem
    obtain ⟨file, hf, made⟩ := mem_dirImageNode builtDir (mem_of_avlsearch Node.scopeKey there)
    exact ⟨image, hi, file, hf,
      archive_mirrors (shapes image hi file hf).1 (shapes image hi file hf).2
        (h.object image hi file hf) made⟩
  refine ⟨regular, h.loadable.separate, ?_, ?_⟩
  · intro d a archive there
    obtain ⟨dir, _, _, image, hi, file, hf, mirrors, level, parentptr, _⟩ := found d a archive there
    obtain ⟨builtA, nodup, subset⟩ := built_getAt built h.blocks there
    have object := h.object image hi file hf
    refine ⟨file.document, h.loadable.memory image hi file hf, ?_, parentptr, object,
      h.root image hi file hf⟩
    refine over_of_mirrors mirrors (Or.inr ⟨level, object⟩) (fun _ => ?_) builtA
      (h.legible image hi file hf) nodup fun i hi => h.given i (subset hi)
    simp [itemJsl, h.root image hi file hf, object]
  · intro d a d' a' archive archive' there there' same
    obtain ⟨dir, first, second, image, hi, file, hf, mirrors, _, _, ident⟩ :=
      found d a archive there
    obtain ⟨dir', first', second', image', hi', file', hf', mirrors', _, _, ident'⟩ :=
      found d' a' archive' there'
    rw [mirrors.linked.ptr, mirrors'.linked.ptr, Option.some.injEq] at same
    have block : archive.info.ident = archive'.info.ident := by rw [ident, ident', same]
    have inside := ident_mem_idents archive
    have inside' := ident_mem_idents archive'
    rw [← block] at inside'
    have below : ∀ {dir archive : Node} {d a : Bytes}, dir.follow (.scope a) = some archive →
        archive.idents ⊆ dir.idents := by
      intro dir archive d a found i hi
      rw [idents_eq]
      exact List.mem_cons_of_mem _ (List.mem_append_left _
        (List.mem_flatMap.mpr ⟨archive, mem_of_avlsearch Node.scopeKey found, hi⟩))
    obtain ⟨rfl, rfl⟩ :=
      follow_unique h.blocks first first' (@below dir archive d a second _ inside)
      (@below dir' archive' d' a' second' _ inside')
    obtain ⟨_, nodup, _⟩ := built_getAt built h.blocks
      (show (rootNode (loadedRoot images)).getAt [.scope d] = some dir by
        rw [Catalog.getAt_one, first])
    exact ⟨rfl, (follow_unique nodup second second' inside inside').1⟩

end Worlds

end LoadedTree
