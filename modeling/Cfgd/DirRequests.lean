import Cfgd.Coherence

/-!
# Directories and the documents under them

A directory is made empty, and it is deleted with the documents of its archives. The other
documents stay where they are, so the tree stands over its documents after these requests
as it does after a write.
-/

namespace DirRequests

open AvlTree CText CJson Item Request ConfigNode Loader FsImage Runtime DeleteRange DeleteDoc
open UpdateCases HeapEdit RegularTree DeleteSteps Orders Catalog Correspondence Saving Backing
open SideBySide WriteEffects DocumentItems Coherence Transition

variable {ν : Type} [DoubleText ν]

section Archives
variable {full : Bytes → Bytes → Prop} {world world' : World ν}

/-- Where no archive is new and the documents of the archives that are left stay, the tree
stands over them. -/
theorem backed_fewer (h : Backed full world) (regular : Regular 0 (rootNode world'.root))
    (separate : Separate world'.store.heap)
    (later : world.store.heap.nextAddr ≤ world'.store.heap.nextAddr)
    (kept : ∀ d a archive, (rootNode world'.root).getAt (archiveAt d a) = some archive →
      (rootNode world.root).getAt (archiveAt d a) = some archive ∧
      ∀ D ∈ world.store.heap.roots, archive.info.jsonptr = some D.addr →
        D ∈ world'.store.heap.roots) : Backed full world' := by
  refine ⟨regular, separate, ?_, ?_⟩
  · intro d a archive there
    obtain ⟨old, stays⟩ := kept d a archive there
    obtain ⟨D, filed⟩ := h.filed d a archive old
    exact ⟨D, stays D filed.root filed.overlay.here.linked.ptr, filed.overlay.mono later,
      filed.parentptr, filed.object, filed.unnamed⟩
  · intro d a d' a' archive archive' there there'
    exact h.apart d a d' a' archive archive' (kept d a archive there).1
      (kept d' a' archive' there').1

/-- The archives are the same beside a new directory that is empty. -/
theorem archives_insertScope {n dir : Node} (ordered : Ordered Node.scopeKey n.nextScope)
    (empty : dir.nextScope = .nil) (d a : Bytes) :
    (insertScope n dir).getAt (archiveAt d a) = n.getAt (archiveAt d a) := by
  rw [Node.getAt, Node.getAt, follow_insertScope ordered]
  by_cases here : (Step.scope d) = .scope dir.scopeKey
  · rw [if_pos here, here]
    cases n.follow (.scope dir.scopeKey) with
    | some c => rfl
    | none =>
      change dir.getAt [.scope a] = none
      rw [Catalog.getAt_one, Node.follow, empty]
      rfl
  · rw [if_neg here]

omit [DoubleText ν] in
/-- An item that is cut down holds no other addresses. -/
theorem addrs_update {a : Addr} {g : List (Item ν) → List (Item ν)} (cuts : ∀ l, (g l).Sublist l)
    (j : Item ν) : (j.update a (setChild g)).addrs.Sublist j.addrs := by
  induction j using Item.induct with
  | step j ih =>
    by_cases here : j.addr = a
    · subst here
      rw [update_here]
      exact addrs_fewer (cuts _)
    · rw [update_below here, addrs_eq, addrs_eq j, addr_setChild, child_setChild, List.flatMap_map]
      exact (List.Sublist.flatMap_right _ ih).cons_cons _

omit [DoubleText ν] in
/-- What is cut out of memory leaves the other addresses apart. -/
theorem separate_cut {heap : Heap ν} (separate : Separate heap) (a : Addr)
    {g : List (Item ν) → List (Item ν)} (cuts : ∀ l, (g l).Sublist l) :
    Separate (heap.update a (setChild g)) := by
  have fewer : ((heap.roots.map (Item.update a (setChild g))).flatMap addrs).Sublist
      (heap.roots.flatMap addrs) := by
    rw [List.flatMap_map]
    exact List.Sublist.flatMap_right _ fun j _ => addrs_update cuts j
  exact ⟨separate.apart.sublist fewer, fun b hb => separate.below b (fewer.subset hb)⟩

omit [DoubleText ν] in
theorem separate_cjsonDelete {heap : Heap ν} (separate : Separate heap) (a : Addr) :
    Separate (cjsonDelete heap a) := by
  have fewer : ((heap.roots.filter fun c => c.addr ≠ a).flatMap addrs).Sublist
      (heap.roots.flatMap addrs) := List.filter_sublist.flatMap addrs
  exact ⟨separate.apart.sublist fewer, fun b hb => separate.below b (fewer.subset hb)⟩

omit [DoubleText ν] in
/-- A deletion takes addresses away and gives none out. -/
theorem stepwise_separate : Stepwise (ν := ν) fun store store' =>
    store'.heap.nextAddr = store.heap.nextAddr ∧ (Separate store.heap → Separate store'.heap) where
  refl store := ⟨rfl, id⟩
  trans first second := ⟨second.1.trans first.1, fun h => second.2 (first.2 h)⟩
  scope deep store n parent := by
    rw [unlinkScope.eq_def]
    dsimp only [Store.free]
    split
    · exact ⟨rfl, fun h => separate_cut h _ fun _ => List.eraseP_sublist⟩
    · exact ⟨rfl, fun h => separate_cjsonDelete h _⟩
    · exact ⟨rfl, id⟩
  array deep store n parent := by
    rw [unlinkArray.eq_def]
    dsimp only [Store.free]
    split
    · exact ⟨rfl, fun h => separate_cut h _ fun _ => List.eraseP_sublist⟩
    · exact ⟨rfl, id⟩
  item deep store n parent := by
    rw [rtDeleteArrayItem.eq_def]
    dsimp only [Store.free]
    split
    · exact ⟨rfl, fun h => separate_cut h _ fun _ => List.filter_sublist⟩
    · exact ⟨rfl, id⟩

/-- The loop over the archives of a directory deletes their documents, and no others. -/
theorem drainArchives {fuel k : Nat} {store store' : Store ν} {cur cur' : Node}
    (separate : Separate store.heap) (ordered : Ordered Node.scopeKey cur.nextScope)
    (files : ∀ c ∈ cur.nextScope.toList, c.info.jsl = .archive ∧ ∃ D, Filed True store.heap c D)
    (apart : ∀ c ∈ cur.nextScope.toList, ∀ c' ∈ cur.nextScope.toList,
      c.info.jsonptr = c'.info.jsonptr → c.scopeKey = c'.scopeKey)
    (done : drainScopes (rtDeleteRange true fuel) k store cur = some (store', cur')) :
    ∀ D ∈ store.heap.roots, (∀ c ∈ cur.nextScope.toList, c.info.jsonptr ≠ some D.addr) →
      D ∈ store'.heap.roots := by
  induction k generalizing store cur with
  | zero => cases done
  | succ k ih =>
    rw [drainScopes] at done
    split at done
    · obtain ⟨rfl, rfl⟩ := Prod.mk.inj (Option.some.inj done)
      exact fun D root _ => root
    · rename_i l child r height tree
      have mem : child ∈ cur.nextScope.toList := by
        rw [tree]
        simp [Avl.toList]
      split at done
      · cases done
      · rename_i store₁ cur₁ tree₁ call
        have unlinked := rtDeleteRange_unlinks true fuel _ _ _ _ _ _ call
        obtain ⟨level, D₁, filed⟩ := files child mem
        obtain ⟨mid, touched, last⟩ := rtDeleteRange_archive call
          (inside_of_over filed.overlay (List.Subset.refl _)) level filed.overlay.here.linked.ptr
          filed.parentptr
        have roots : store₁.heap.roots = store.heap.roots.filter fun c => c.addr ≠ D₁.addr := by
          rw [last]
          exact touched_filter separate.apart filed.root touched.1
        have noItem : ¬ IsItem child := by
          rw [IsItem, level]
          rintro (item | item) <;> cases item
        have left : (parentAfter child cur).setNextScope (fun _ => treeAfter child cur) =
            removeScope cur child.info.scopeName := by
          rw [treeAfter, if_neg noItem, parentAfter, if_neg noItem]
          cases removeScope cur child.info.scopeName
          rfl
        have fewer : ∀ c ∈ (removeScope cur child.info.scopeName).nextScope.toList,
            c ∈ cur.nextScope.toList ∧ c.scopeKey ≠ child.scopeKey := by
          intro c hc
          rw [removeScope, Node.nextScope_setNextScope,
            toList_avlremove Node.scopeKey ordered, List.mem_filter] at hc
          exact ⟨hc.1, of_decide_eq_true hc.2⟩
        have stays : ∀ D ∈ store.heap.roots, child.info.jsonptr ≠ some D.addr →
            D ∈ store₁.heap.roots := by
          intro D root other
          rw [roots, List.mem_filter]
          refine ⟨root, decide_eq_true fun same => other ?_⟩
          rw [filed.overlay.here.linked.ptr, same]
        have kept := (rtDeleteRange_keeps stepwise_separate true fuel) _ _ _ _ _ _ call
        rw [unlinked.above, unlinked.returned, left] at done
        intro D root elsewhere
        refine ih (kept.2 separate) (ordered_removeScope ordered _) ?_ ?_ done D
          (stays D root (elsewhere child mem)) fun c hc => elsewhere c (fewer c hc).1
        · intro c hc
          obtain ⟨old, other⟩ := fewer c hc
          obtain ⟨level', D', filed'⟩ := files c old
          refine ⟨level', D', stays D' filed'.root ?_,
            filed'.overlay.mono (Nat.le_of_eq kept.1.symm),
            filed'.parentptr, filed'.object, filed'.unnamed⟩
          intro same
          exact other (apart c old child mem (filed'.overlay.here.linked.ptr.trans same.symm))
        · exact fun c hc c' hc' => apart c (fewer c hc).1 c' (fewer c' hc').1

end Archives

section Requests
variable {world world' : World ν} {full : Bytes → Bytes → Prop}

theorem backed_rtCreateDir {jrp : Jrp} {result : World ν × Int} (h : Backed full world)
    (regular : Regular 0 (rootNode result.1.root)) (done : rtCreateDir world jrp = some result) :
    Backed full result.1 ∧ result.1.store.heap.roots = world.store.heap.roots := by
  rw [rtCreateDir] at done
  split at done
  · rename_i segm one _
    obtain ⟨⟨fs, id⟩, call, rfl⟩ := Option.map_eq_some_iff.mp done
    dsimp only at regular ⊢
    split at regular
    · rename_i negative
      rw [if_pos negative]
      exact ⟨⟨h.regular, h.separate, h.filed, h.apart⟩, rfl⟩
    · rename_i made
      rw [if_neg made]
      refine ⟨backed_fewer h regular ?_ (Nat.le_succ _) ?_, rfl⟩
      · exact ⟨h.separate.apart, fun b hb => Nat.lt_succ_of_lt (h.separate.below b hb)⟩
      · intro d a archive there
        have same := archives_insertScope h.regular.here.ordered
          (show (ldrCreateDir world.store.heap.nextAddr segm.name).nextScope = .nil from rfl) d a
        exact ⟨same.symm.trans there, fun D root _ => root⟩
  · obtain rfl := Option.some.inj done
    exact ⟨h, rfl⟩

/-- A directory is deleted with the documents of its archives. -/
theorem backed_rtDeleteDir {key : Bytes} {dir : Node} {tree : Avl Node}
    (h : Backed (fun _ _ => True) world)
    (found : (rootNode world.root).follow (.scope key) = some dir)
    (done : rtDeleteDir world dir = some (world', tree)) : Backed (fun _ _ => True) world' := by
  have regularDir := h.regular.follow found
  have level : dir.info.jsl = .dir := regularDir.here.stands
  have regular := (effect_rtDeleteDir h.regular found done).1
  obtain ⟨_, whole, store, last, freed, next, separate⟩ :=
    rtDeleteDir_spec stepwise_separate level done
  have heap : world'.store.heap = store.heap := by rw [freed]; rfl
  have name : fold dir.info.scopeName = key := key_of_avlsearch Node.scopeKey found
  rw [rtDeleteDir, if_neg (not_not.mpr level)] at done
  obtain ⟨⟨store', root⟩, call, same⟩ := Option.map_eq_some_iff.mp done
  obtain ⟨rfl, rfl⟩ := Prod.mk.inj same
  rw [rtDeleteRangeOfDir] at call
  split at call
  · cases call
  split at call
  · cases call
  rename_i drained
  obtain ⟨rfl, _⟩ := Prod.mk.inj (Option.some.inj call)
  -- an archive of this directory, as the whole tree knows it
  have file : ∀ c ∈ dir.nextScope.toList,
      (rootNode world.root).getAt (archiveAt key c.scopeKey) = some c := by
    intro c hc
    rw [Node.getAt, found, Option.bind_some, Catalog.getAt_one]
    exact (mem_toList_iff Node.scopeKey regularDir.here.ordered).mp hc
  have before : Separate ({ world.store with
      fs := fsDeleteDir world.store.fs dir.info.scopeName } : Store ν).heap := h.separate
  have stays := drainArchives before regularDir.here.ordered
    (fun c hc => ⟨(regular_at h.regular (file c hc)).here.stands, h.filed _ _ c (file c hc)⟩)
    (fun c hc c' hc' same => (h.apart _ _ _ _ c c' (file c hc) (file c' hc') same).2) drained
  refine backed_fewer h regular (heap ▸ separate h.separate) (Nat.le_of_eq (heap ▸ next.symm)) ?_
  intro d a archive there
  rw [Node.getAt, whole, follow_removeScope h.regular.here.ordered, name] at there
  split at there
  · cases there
  · rename_i other
    refine ⟨there, fun D root ptr => stays D root fun c hc same => other ?_⟩
    rw [(h.apart _ _ _ _ archive c there (file c hc) (ptr.trans same.symm)).1]

theorem backed_rtRemoveDir {jrp : Jrp} {result : World ν × Int}
    (h : Backed (fun _ _ => True) world) (done : rtRemoveDir world jrp = some result) :
    Backed (fun _ _ => True) result.1 := by
  have removed := rtRemoveDir_cases h.regular done
  generalize result.1 = world' at removed
  cases removed with
  | refused => exact h
  | removed found call => exact backed_rtDeleteDir h found call
  | @cleared fuel world₁ loop =>
    have keeps : ∀ {w : World ν} {dir : Node} {w' : World ν} {tree : Avl Node},
        dir.info.jsl = .dir →
        Separate w.store.heap → rtDeleteDir w dir = some (w', tree) → Separate w'.store.heap := by
      intro w dir w' tree level separate call
      obtain ⟨_, _, store, last, freed, _, kept⟩ := rtDeleteDir_spec stepwise_separate level call
      rw [freed]
      exact kept separate
    obtain ⟨empty, separate⟩ := removeDirs_keeps keeps h.regular h.separate loop
    have none : ∀ d a, (rootNode world₁.root).getAt (archiveAt d a) = none := by
      intro d a
      rw [empty]
      rfl
    refine ⟨empty ▸ regular_nil, separate, ?_, ?_⟩
    · intro d a archive there
      rw [none] at there
      cases there
    · intro d a d' a' archive archive' there
      rw [none] at there
      cases there

omit [DoubleText ν] in
/-- What the items in memory have is had by those that a deletion leaves. -/
theorem each_rtRemoveDir {P : Addr → Option Bytes → Kind ν → Prop} {jrp : Jrp}
    {result : World ν × Int} (regular : Regular 0 (rootNode world.root))
    (each : Each P world.store.heap) (done : rtRemoveDir world jrp = some result) :
    Each P result.1.store.heap := by
  have keeps : ∀ {w : World ν} {dir : Node} {w' : World ν} {tree : Avl Node}, dir.info.jsl = .dir →
      Each P w.store.heap → rtDeleteDir w dir = some (w', tree) → Each P w'.store.heap := by
    intro w dir w' tree level each call
    obtain ⟨_, _, store, last, freed, kept⟩ := rtDeleteDir_spec stepwise_each level call
    rw [freed]
    exact kept each
  have removed := rtRemoveDir_cases regular done
  generalize result.1 = world' at removed
  cases removed with
  | refused => exact each
  | cleared loop => exact (removeDirs_keeps keeps regular each loop).2
  | removed found call => exact keeps (regular.follow found).here.stands each call

end Requests

end DirRequests
