import Cfgd.Correspondence

/-!
# What a write leaves in the slot of its archive

`pro_variable_write` hands the document of the archive to `fs_override_file` after the
request is answered. The text goes into the slot when it fits.
-/

namespace Saving

open AvlTree CText CJson Request ConfigNode Loader FsImage SlotTables Runtime KeyShape Reach
open UpdateCases AppendSteps RegularTree Orders Catalog Correspondence Transition

variable {ν : Type}

section Archive

/-- Only a segment for an archive makes one. -/
theorem rtAppend_noArchive (v : Bytes) (store : Store ν) (node : Node) {segms : List Segment}
    (plain : ∀ segm ∈ segms, segm.jsl ≠ .archive) :
    (rtAppend v store node segms).archive = none := by
  have appending : Appending fun (_ : Store ν) r => r.archive = none :=
    { stops := fun _ _ _ _ _ => rfl
      allocates := fun _ none => none }
  exact rtAppend_keeps appending v (fun ⟨segm, mem, archive⟩ => absurd archive (plain segm mem))
    store node

/-- From an archive on the loop finds no other archive, and goes on below this one. -/
theorem rtReachLoop_inside {depth : Nat} {n : Node} {above : Path}
    {node previous archive : Option Path}
    {before segms : List Segment} {r : Reached} (h : Regular depth n) (deep : 2 ≤ depth)
    (long : 2 ≤ above.length) (prev : ∀ p, previous = some p → 2 ≤ p.length)
    (last : segms = [] → ∀ p, node = some p → 3 ≤ p.length)
    (plain : ∀ segm ∈ segms, segm.jsl ≠ .archive)
    (done : rtReachLoop n.nextScope above node previous archive before segms = some r) :
    r.archive = archive ∧ (∀ p, r.last = some p → 3 ≤ p.length) ∧
      (∀ p, r.previous = some p → 2 ≤ p.length) ∧
        ∀ segm ∈ r.segm.drop r.offset, segm.jsl ≠ .archive := by
  induction segms generalizing n depth above node previous before with
  | nil =>
    rw [rtReachLoop] at done
    obtain rfl := Option.some.inj done
    refine ⟨rfl, last rfl, prev, ?_⟩
    rw [List.drop_length]
    simp
  | cons segm rest ih =>
    obtain ⟨_, later⟩ := List.forall_mem_cons.mp plain
    have longer : 3 ≤ (above ++ [Step.scope (fold segm.name)]).length := by
      simp only [List.length_append, List.length_singleton]
      omega
    have here : ∀ p, some (above ++ [Step.scope (fold segm.name)]) = some p → 3 ≤ p.length := by
      rintro p ⟨⟩
      exact longer
    have further : ∀ p, some (above ++ [Step.scope (fold segm.name)]) = some p → 2 ≤ p.length :=
      fun p hp => Nat.le_of_succ_le (here p hp)
    have left : ∀ s ∈ (before ++ segm :: rest).drop before.length, s.jsl ≠ .archive := by
      rw [List.drop_left]
      exact plain
    obtain ⟨k, rfl⟩ := Nat.exists_eq_add_of_le' deep
    cases rtReachLoop_turn done with
    | missing => exact ⟨rfl, by simp, prev, left⟩
    | extend => exact ⟨rfl, by simp, further, left⟩
    | entire => exact ⟨rfl, here, further, left⟩
    | item found level level' place entered inside =>
      have regular := (h.follow found).items _ (List.mem_of_getElem? entered)
      refine ih regular (by omega) (by simp) ?_ (fun _ => here) later inside
      rintro p ⟨⟩
      simp
    | nowhere _ _ _ _ _ inside => exact ih h deep long (by simp) (fun _ => here) later inside
    | scope found level level' inside =>
      have regular := h.follow found
      rw [if_neg regular.here.stands] at inside
      exact ih regular (by omega) (Nat.le_of_succ_le longer) further (fun _ => here) later inside

variable {world : World ν} {jrp : Jrp} {u : Updated ν} {d a : Bytes} {rest : List Segment}

/-- The way of a key to its archive. -/
abbrev fileAt (d a : Bytes) : Path := [.scope (fold d), .scope (fold a)]

/-- How the loop passes the first two names of a key. -/
theorem reach_archive (h : Regular 0 (rootNode world.root)) {r : Reached} (inner : rest ≠ [])
    (plain : ∀ segm ∈ rest, segm.jsl ≠ .archive)
    (done : rtReachLastMatchScope world.root (⟨d, -1, .dir⟩ :: ⟨a, -1, .archive⟩ :: rest) =
      some r) : r.last = none ∧ r.previous = none ∨
        (∃ dir, (rootNode world.root).follow (.scope (fold d)) = some dir ∧
          r = ⟨1, none, some [.scope (fold d)], none,
            [⟨d, -1, .dir⟩] ++ ⟨a, -1, .archive⟩ :: rest⟩) ∨
        (r.archive = some (fileAt d a) ∧ (∀ p, r.last = some p → 3 ≤ p.length) ∧
          (∀ p, r.previous = some p → 2 ≤ p.length) ∧
            ∀ segm ∈ r.segm.drop r.offset, segm.jsl ≠ .archive) := by
  rw [rtReachLastMatchScope, rtReachLoop] at done
  have top : searchScope world.root d = (rootNode world.root).follow (.scope (fold d)) := rfl
  rw [top] at done
  cases found : (rootNode world.root).follow (.scope (fold d)) with
  | none =>
    simp only [found] at done
    obtain rfl := Option.some.inj done
    exact Or.inl ⟨rfl, rfl⟩
  | some dir =>
    have regular := h.follow found
    have level : dir.info.jsl = .dir := regular.here.stands
    have notArray : ¬ ((dir.info.jsl = .array ∨ Jsl.dir = .array) ∧ dir.info.jsl ≠ .dir) := by
      rintro ⟨_, other⟩
      exact other level
    simp only [found, if_neg notArray] at done
    rw [if_neg (by simp [level]), rtReachLoop, searchScope_eq_follow] at done
    rw [if_neg (by simp [level])] at done
    cases found' : dir.follow (.scope (fold a)) with
    | none =>
      simp only [found'] at done
      obtain rfl := Option.some.inj done
      refine Or.inr (Or.inl ⟨dir, rfl, ?_⟩)
      simp [level]
    | some archive =>
      have regular' := regular.follow found'
      have level' : archive.info.jsl = .archive := regular'.here.stands
      have notArray' : ¬ ((archive.info.jsl = .array ∨ Jsl.archive = .array) ∧
          archive.info.jsl ≠ .archive) := by
        rintro ⟨_, other⟩
        exact other level'
      simp only [found', if_neg notArray'] at done
      rw [if_neg (by simp [level']), if_pos level'] at done
      refine Or.inr (Or.inr (rtReachLoop_inside regular' (Nat.le_refl 2) ?_ ?_
        (fun none => absurd none inner) plain done))
      · simp
      · rintro p ⟨⟩
        simp

variable [DoubleText ν]

/-- An update that is answered with success hands back the archive of its key. -/
theorem archive_update (h : Regular 0 (rootNode world.root))
    (key : jrp.segm = ⟨d, -1, .dir⟩ :: ⟨a, -1, .archive⟩ :: rest) (inner : rest ≠ [])
    (plain : ∀ segm ∈ rest, segm.jsl ≠ .archive) (noDot : dot ∉ a)
    (done : rtConfigUpdate world jrp = some u) (ok : 0 ≤ u.retval) :
    u.archive = some (fileAt d a) := by
  rw [rtConfigUpdate] at done
  cases value : jrp.valuestring with
  | none =>
    simp only [value] at done
    obtain rfl := Option.some.inj done
    cases ok
  | some v =>
    simp only [value, key] at done
    split at done
    · obtain rfl := Option.some.inj done
      cases ok
    · cases reach : rtReachLastMatchScope world.root
        (⟨d, -1, .dir⟩ :: ⟨a, -1, .archive⟩ :: rest) with
      | none =>
        simp only [reach] at done
        obtain rfl := Option.some.inj done
        cases ok
      | some r =>
        simp only [reach] at done
        rcases reach_archive h inner plain reach with ⟨last, previous⟩ | ⟨dir, found, rfl⟩ |
          ⟨archive, long, _, left⟩
        · simp only [last, previous] at done
          obtain rfl := Option.some.inj done
          cases ok
        · -- the archive is made by this update
          simp only at done
          obtain rfl := Option.some.inj done
          have there : (rootNode world.root).getAt [.scope (fold d)] = some dir := by
            rw [getAt_one, found]
          have left : ([(⟨d, -1, .dir⟩ : Segment)] ++ ⟨a, -1, .archive⟩ :: rest).drop 1 =
              ⟨a, -1, .archive⟩ :: rest := rfl
          rw [updateMissing, there] at ok ⊢
          simp only [left] at ok ⊢
          split
          · rw [if_pos ‹_›] at ok
            cases ok
          · rw [if_neg ‹_›] at ok
            split
            · rw [if_pos ‹_›] at ok
              cases ok
            · rw [if_neg ‹_›] at ok
              split
              · rw [if_pos ‹_›] at ok
                cases ok
              · rw [if_neg ‹_›, rtAppend_archive] at ok
                rw [rtAppend_archive]
                dsimp only at ok ⊢
                split at ok
                · cases ok
                · rename_i slot
                  clear slot
                  split at ok
                  · cases ok
                  · rename_i file made
                    have named := (archiveNode_spec noDot made).1
                    simp [makeArchive, fileAt, Node.scopeKey, named]
        · cases last : r.last with
          | some here =>
            simp only [last] at done
            have deep := long here last
            have whole : ∀ n, (rootNode world.root).getAt here = some n →
                n.info.jsl ≠ .archive := by
              intro n there
              obtain ⟨k, size⟩ := Nat.exists_eq_add_of_le' deep
              have regular := regular_at h there
              rw [size] at regular
              exact regular.here.stands
            rw [updateFound] at done
            split at done
            · rename_i node _ _ there _ _
              split at done
              · obtain ⟨deleted, _, rfl⟩ := Option.map_eq_some_iff.mp done
                dsimp only
                rw [if_neg (whole _ there), archive]
              · split at done
                · obtain rfl := Option.some.inj done
                  exact archive
                · split at done
                  · obtain rfl := Option.some.inj done
                    exact archive
                  · obtain rfl := Option.some.inj done
                    exact archive
            · obtain rfl := Option.some.inj done
              exact archive
          | none =>
            cases previous : r.previous with
            | none =>
              simp only [last, previous] at done
              obtain rfl := Option.some.inj done
              exact archive
            | some place =>
              simp only [last, previous] at done
              obtain rfl := Option.some.inj done
              rw [updateMissing]
              split
              · exact archive
              · rename_i node there
                split
                · exact archive
                · split
                  · exact archive
                  · split
                    · exact archive
                    · dsimp only
                      rw [rtAppend_noArchive v world.store _ left]
                      exact archive

end Archive

section Answers

theorem rtAppend_retval (v : Bytes) (store : Store ν) (node : Node) (segms : List Segment) :
    (rtAppend v store node segms).retval = 0 ∨ (rtAppend v store node segms).retval = -1 := by
  have appending : Appending fun (_ : Store ν) r => r.retval = 0 ∨ r.retval = -1 :=
    { stops := fun _ _ _ _ done => done
      allocates := fun _ done => done }
  have archiving : Archiving fun (_ : Store ν) r => r.retval = 0 ∨ r.retval = -1 :=
    { refused := fun _ _ => Or.inr rfl
      unmade := fun _ _ => Or.inr rfl
      made := fun _ _ _ done => done }
  exact rtAppend_keeps appending v (fun _ => archiving) store node

theorem rtDelete_retval {fuel : Nat} {store : Store ν} {n parent : Node} {segm : Segment}
    {deleted : Deleted ν} (h : rtDelete fuel store n parent segm = some deleted) :
    deleted.retval = 0 ∨ deleted.retval = -1 := by
  cases rtDelete_cases h with
  | refused => exact Or.inr rfl
  | whole => exact Or.inl rfl
  | archive => exact Or.inl rfl
  | item => exact Or.inl rfl
  | entire => exact Or.inl rfl

variable [DoubleText ν]

theorem rtArrayFieldUpdate_settled (store : Store ν) (node : Node) (which : Int) (v : Bytes)
    (other : (rtArrayFieldUpdate store node which v).2.2 ≠ 0) :
    (rtArrayFieldUpdate store node which v).1 = store ∧
      (rtArrayFieldUpdate store node which v).2.1 = node := by
  rw [rtArrayFieldUpdate] at other ⊢
  split
  · exact ⟨rfl, rfl⟩
  · rename_i array ptr
    rw [ptr] at other
    dsimp only at other ⊢
    split
    · exact ⟨rfl, rfl⟩
    · rename_i inside
      rw [if_neg inside] at other
      split
      · exact ⟨rfl, rfl⟩
      · rename_i item seek
        rw [seek] at other
        dsimp only at other
        split
        · exact ⟨rfl, rfl⟩
        · rename_i changed
          rw [if_neg changed] at other
          split
          · exact ⟨rfl, rfl⟩
          · rename_i made
            rw [made] at other
            exact absurd rfl other

variable {world : World ν} {jrp : Jrp} {u : Updated ν} {d a : Bytes}

/-- The document of an archive. -/
def documentAt (world : World ν) (d a : Bytes) : Option (Item ν) :=
  ((rootNode world.root).getAt (fileAt d a)).bind fun archive =>
    archive.info.jsonptr.bind world.store.heap.deref

/-- What is answered with success and is no change leaves everything as it is. -/
theorem settled (h : Regular 0 (rootNode world.root)) (accepted : AcceptedKey jrp.segm)
    (done : rtConfigUpdate world jrp = some u) (ok : 0 ≤ u.retval) (other : u.retval ≠ 0) :
    rootNode u.world.root = rootNode world.root ∧ u.world.store = world.store := by
  cases value : jrp.valuestring with
  | none =>
    rw [rtConfigUpdate, value] at done
    obtain rfl := Option.some.inj done
    cases ok
  | some v =>
    have appended : ∀ (node : Node) (segms : List Segment),
        0 ≤ (rtAppend v world.store node segms).retval →
          (rtAppend v world.store node segms).retval = 0 := by
      intro node segms ok
      rcases rtAppend_retval v world.store node segms with zero | failed
      · exact zero
      · omega
    have same : ∀ {path : Path} {m : Node}, (rootNode world.root).getAt path = some m → path ≠ [] →
        rootNode (world.modifyAt (fun _ => m) path world.store).root = rootNode world.root := by
      intro path m there started
      rw [rootNode_modifyAt world _ started, modifyAt_self there]
    cases update_cases h.built accepted value done with
    | refused => cases ok
    | delete walk found target keyword call =>
      rcases rtDelete_retval call with zero | failed
      · exact absurd zero other
      · dsimp only at ok
        omega
    | @field path passed n c segm walk found level =>
      have there := getAt_member walk found
      rcases rtFieldUpdate_cases world.store v level with ⟨store, node, _⟩ |
        ⟨_, _, _, _, _, made⟩
      · dsimp only
        rw [store, node]
        exact ⟨same there (by simp), rfl⟩
      · dsimp only at other
        rw [made] at other
        exact absurd rfl other
    | @item path passed n c segm walk found level level' place =>
      have there := getAt_member walk found
      obtain ⟨store, node⟩ := rtArrayFieldUpdate_settled world.store c segm.index v other
      dsimp only
      rw [store, node]
      exact ⟨same there (by simp), rfl⟩
    | missing => exact absurd (appended _ _ ok) other
    | extend => exact absurd (appended _ _ ok) other

end Answers

section Slots
variable {fs : FsLayout}

/-- No slot holds more than it has room for. -/
def Within (fs : FsLayout) : Prop := ∀ s, (fs.archive s).data.length ≤ fsMaxFileSize

theorem within_zero : Within .zero := fun _ => Nat.zero_le _

theorem within_update (within : Within fs) {n : Fin fsMaxArch} {archive : FsArchive}
    (short : archive.data.length ≤ fsMaxFileSize) (s : Fin fsMaxArch) :
    (Function.update fs.archive n archive s).data.length ≤ fsMaxFileSize := by
  rw [Function.update_apply]
  split
  · exact short
  · exact within s

theorem within_effect {l l' : Listing} {fs' : FsLayout} (tables : Tables fs) (within : Within fs)
    (effect : Effect l fs l' fs') : Within fs' := by
  have allocated : ∀ {dirName name : Bytes} {result : Option Int} {fs' : FsLayout}, Roomy name →
      allocateSection fs dirName name = (fs', result) → Within fs' := by
    intro dirName name result fs' fits call
    rcases allocateSection_cases tables fits call with
      ⟨_, rfl, _⟩ | ⟨d, _, _, ⟨rfl, _⟩ | ⟨n, _, _, rfl, _⟩⟩
    · exact within
    · exact within
    · exact within_update within (Nat.zero_le _)
  have dropped : ∀ {fs' : FsLayout}, (∀ s, fs'.archive s = fs.archive s ∨ fs'.archive s = .zero) →
      Within fs' := by
    intro fs' each s
    rcases each s with same | zero
    · rw [same]
      exact within s
    · rw [zero]
      exact Nat.zero_le _
  cases effect with
  | none => exact within
  | save fsSection text =>
    unfold fsOverrideFile
    split
    · split
      · exact within_update within ‹_›
      · exact within
    · exact within
  | mkdir fits call =>
    rcases allocateDir_cases call with ⟨rfl, _⟩ | ⟨d, _, _, _, _, rfl⟩
    · exact within
    · exact within
  | rmdir there =>
    rename_i info
    rcases deleteDir_cases tables.filed info.scopeName with ⟨_, same⟩ | ⟨d, _, _, gone⟩
    · rw [same]
      exact within
    · rw [gone]
      refine dropped fun s => ?_
      by_cases inside : InDir fs (fs.dir d).id s
      · exact Or.inr (if_pos inside)
      · exact Or.inl (if_neg inside)
  | clear => exact within_zero
  | create there missing noDot fits call => exact allocated fits call
  | refuse there fits call => exact allocated fits call
  | undo there fits call =>
    rw [undone tables fits call]
    exact within
  | delete there found =>
    rename_i dir info
    rcases deleteFile_cases tables.filed info.fsSection with ⟨_, same⟩ | ⟨n, _, _, gone⟩
    · rw [same]
      exact within
    · rw [gone]
      refine dropped fun s => ?_
      by_cases here : s = n
      · exact Or.inr (by simp [setFile, here])
      · exact Or.inl (by simp [setFile, here])

/-- `fs_override_file` on a slot in use puts the text there if and only if it is not longer
than the slot. -/
theorem overrideFile_iff (within : Within fs) {s : Fin fsMaxArch} (active : FileActive fs s)
    (text : Bytes) : ((fsOverrideFile fs s (some text)).1.archive s).data = text ↔
      text.length ≤ fsMaxFileSize := by
  have found : fsSearchFileBysect fs (s : Int) = some s := by
    cases found : fsSearchFileBysect fs (s : Int) with
    | none => exact absurd active (fileBysect_none.mp found s rfl)
    | some n => exact congrArg some (Fin.ext (by have same := (fileBysect_some found).1; omega))
  simp only [fsOverrideFile, found]
  split
  · rename_i short
    simp [short]
  · rename_i long
    refine iff_of_false ?_ long
    rintro same
    exact long (same ▸ within s)

end Slots

section Writes
variable [DoubleText ν]
variable {print : Item ν → Bytes} {world : World ν} {jrp : Jrp} {u : Updated ν} {d a : Bytes}

/-- The only request for an archive itself that is answered with success deletes it. -/
theorem gone_archive (h : Regular 0 (rootNode world.root)) (accepted : AcceptedKey jrp.segm)
    (key : jrp.segm = [⟨d, -1, .dir⟩, ⟨a, -1, .archive⟩])
    (done : rtConfigUpdate world jrp = some u) (ok : 0 ≤ u.retval) :
    (rootNode u.world.root).getAt (fileAt d a) = none := by
  cases value : jrp.valuestring with
  | none =>
    rw [rtConfigUpdate, value] at done
    obtain rfl := Option.some.inj done
    cases ok
  | some v =>
    -- a way that leaves one segment ends at the directory
    have atDir : ∀ {path : Path} {passed : List Segment} {n : Node} {segm : Segment},
        Walks (rootNode world.root) jrp.segm path passed n [segm] →
          path = [.scope (fold d)] ∧ (rootNode world.root).follow (.scope (fold d)) = some n ∧
            segm = ⟨a, -1, .archive⟩ := by
      intro path passed n segm walk
      rw [key] at walk
      cases walk with
      | item _ _ level' => cases level'
      | scope found _ _ further =>
        cases further with
        | stop => exact ⟨rfl, found, rfl⟩
        | item _ _ level' => cases level'
        | scope _ _ _ further => cases further
    have noArray : ∀ segm ∈ jrp.segm, segm.jsl ≠ .array := by
      rw [key]
      simp
    have regularAt : ∀ {n c : Node}, (rootNode world.root).follow (.scope (fold d)) = some n →
        n.follow (.scope (fold a)) = some c → c.info.jsl = .archive := by
      intro n c found found'
      exact ((h.follow found).follow found').here.stands
    cases update_cases h.built accepted value done with
    | refused => cases ok
    | @delete path passed n c segm walk found target keyword deleted call =>
      obtain ⟨rfl, found', rfl⟩ := atDir walk
      have removed := rtDelete_archive (regularAt found' found) call
      have named : fold c.info.scopeName = fold a := key_of_avlsearch Node.scopeKey found
      have regular := h.follow found'
      have keeps : ∀ m', (rootNode world.root).getAt [.scope (fold d)] = some m' →
          deleted.parentnode.scopeKey = m'.scopeKey := by
        intro m' there
        rw [getAt_one, found'] at there
        obtain rfl := Option.some.inj there
        rw [removed, Node.scopeKey, removeScope_info, Node.scopeKey]
      dsimp only
      rw [rootNode_modifyAt world _ (by simp), Node.getAt,
        @follow_modifyAt _ (fun _ => deleted.parentnode) _ [] keeps, if_pos rfl, found',
        Option.map_some, Option.bind_some, getAt_one, Node.modifyAt, removed,
        follow_removeScope regular.here.ordered, if_pos (by rw [named])]
    | field walk found level =>
      obtain ⟨_, found', rfl⟩ := atDir walk
      rw [regularAt found' found] at level
      cases level
    | item walk found level level' =>
      exact absurd level' (noArray _ ((suffix_of_walks walk).subset (List.mem_cons_self ..)))
    | missing walk started missing level noFile =>
      rw [key] at walk
      cases walk with
      | stop => exact absurd rfl started
      | item _ _ level' => cases level'
      | scope found _ _ further =>
        cases further with
        | stop =>
          have isDir := noFile (h.follow found).here.stands
          rw [key] at isDir
          simp at isDir
        | item _ _ level' => cases level'
        | scope _ _ _ further => cases further
    | extend walk found level level' =>
      exact absurd level' (noArray _ ((suffix_of_walks walk).subset (List.mem_cons_self ..)))

/-- What the server's state keeps to between two requests. -/
structure Steady (world : World ν) : Prop where
  sound : Sound world
  corresponds : Corresponds world.root world.store.fs
  within : Within world.store.fs

/-- A write or a deletion, answered with `JESS_OK`, that leaves the archive of its key outside
of `proc` with another document. -/
structure Changes (print : Item ν → Bytes) (world : World ν) (jrp : Jrp) (d a : Bytes)
    (document : Item ν) (after : Answered ν) : Prop where
  names : (jrp.segm.map Segment.name).take 2 = [d, a]
  outside : fold d ≠ fold procName
  answered : proVariableWrite print world jrp = some after
  ok : after.ok = true
  left : documentAt after.world d a = some document
  other : documentAt world d a ≠ some document

/-- The slot of the archive holds the text of the document. -/
def InSlot (print : Item ν → Bytes) (world : World ν) (d a : Bytes) (document : Item ν) : Prop :=
  ∃ archive, (rootNode world.root).getAt (fileAt d a) = some archive ∧
    ∃ s : Fin fsMaxArch, archive.info.fsSection = s ∧
      (world.store.fs.archive s).data = print document

omit [DoubleText ν] in
/-- The archive of a document outside of `proc` has a slot. -/
theorem slot_of_archive (m : Matches (listing world.root) world.store.fs) {archive : Node}
    (outside : fold d ≠ fold procName)
    (there : (rootNode world.root).getAt (fileAt d a) = some archive) :
    ∃ s, FileActive world.store.fs s ∧ archive.info.fsSection = s := by
  rw [fileAt, Node.getAt] at there
  obtain ⟨dir, found, below⟩ := Option.bind_eq_some_iff.mp there
  rw [getAt_one] at below
  obtain ⟨named, entry⟩ := listing_dir found
  rw [← named] at entry
  obtain ⟨e, active, same⟩ := m.dirs _ _ entry outside
  have inside : (listing world.root).archive (fold (world.store.fs.dir e).name) (fold a) =
      some archive.info := by
    rw [same, ← named, listing_archive found, below]
    rfl
  obtain ⟨s, mine, own, _⟩ := m.archives e active _ _ inside
  exact ⟨s, mine.1, own⟩

omit [DoubleText ν] in
theorem documentAt_saveArchive (world : World ν) (archive : Option Path) :
    documentAt (saveArchive print world archive).world d a = documentAt world d a := by
  rw [saveArchive]
  split <;> rfl

/-- The request hands back the archive of its key, unless it deletes it. -/
theorem archive_of_names (h : Regular 0 (rootNode world.root)) (received : Received jrp)
    (names : (jrp.segm.map Segment.name).take 2 = [d, a]) (done : rtConfigUpdate world jrp = some u)
    (ok : 0 ≤ u.retval) {archive : Node}
    (there : (rootNode u.world.root).getAt (fileAt d a) = some archive) :
    u.archive = some (fileAt d a) := by
  have accepted := received.accepted
  have noDot := received.noDot
  generalize key : jrp.segm = segms at accepted names noDot
  cases accepted with
  | dir fits => cases names
  | archive fits fits' =>
    obtain ⟨rfl, rfl⟩ : _ = d ∧ _ = a := by simpa using names
    rw [gone_archive h received.accepted key done ok] at there
    cases there
  | below fits fits' below =>
    obtain ⟨rfl, rfl⟩ : _ = d ∧ _ = a := by simpa using names
    have plain := noDot _ (List.mem_cons_of_mem _ (List.mem_cons_self ..))
    exact archive_update h key below.ne_nil (noArchive_below below) plain done ok

/-- A change of a document is in the slot if and only if the text of the document fits. -/
theorem inSlot_iff {document : Item ν} {after : Answered ν} (steady : Steady world)
    (received : Received jrp) (roomy : NamesRoomy jrp)
    (changes : Changes print world jrp d a document after) :
    InSlot print after.world d a document ↔ (print document).length ≤ fsMaxFileSize := by
  obtain ⟨⟨regular, tables, proc⟩, c, within⟩ := steady
  obtain ⟨names, outside, answered, ok, left, other⟩ := changes
  have m := matches_of_corresponds regular c proc
  rw [proVariableWrite] at answered
  split at answered
  · obtain rfl := Option.some.inj answered
    cases ok
  obtain ⟨u, done, rfl⟩ := Option.map_eq_some_iff.mp answered
  have regular' := regular_update regular received.accepted done
  have effect := effect_update regular received.accepted received.noDot roomy done
  obtain ⟨tables', m'⟩ := matches_effect tables (named_listing _) m effect
  have within' := within_effect tables within effect
  by_cases failed : u.retval < 0
  · rw [if_pos failed] at ok
    cases ok
  rw [if_neg failed] at left ⊢
  have done' := Int.not_lt.mp failed
  by_cases changed : u.retval = 0 ∧ ¬ inProc jrp
  · rw [if_pos changed] at left ⊢
    rw [documentAt_saveArchive] at left
    obtain ⟨archive, there, pointed⟩ := Option.bind_eq_some_iff.mp left
    have place := archive_of_names regular received names done done' there
    obtain ⟨s, active, own⟩ := slot_of_archive m' outside there
    have text : documentText print u.world.store archive = some (print document) := by
      rw [documentText, pointed]
      rfl
    rw [← overrideFile_iff within' active (print document), saveArchive, place, Option.bind_some,
      there]
    dsimp only
    rw [text, own, InSlot]
    constructor
    · rintro ⟨archive', there', s', own', data⟩
      obtain rfl := Option.some.inj (there.symm.trans there')
      obtain rfl : s' = s := Fin.ext (by omega)
      exact data
    · exact fun data => ⟨archive, there, s, own, data⟩
  · rw [if_neg changed] at left
    exfalso
    have inside : ¬ inProc jrp := by
      intro isProc
      rw [inProc] at isProc
      cases key : jrp.segm with
      | nil => simp [key] at isProc
      | cons segm rest =>
        rw [key] at names isProc
        obtain ⟨rfl, _⟩ := List.cons.inj names
        rw [List.head?_cons, Option.any_some, decide_eq_true_eq, strcasecmp_eq_iff] at isProc
        exact outside isProc.symm
    obtain ⟨tree, store⟩ := settled regular received.accepted done done'
      fun zero => changed ⟨zero, inside⟩
    refine other ?_
    rw [← left, documentAt, documentAt, tree, store]

/-- A request keeps the server steady. -/
theorem steady_step {world' : World ν} {order : Order} (steady : Steady world)
    (received : Received order.jrp) (roomy : NamesRoomy order.jrp)
    (done : step print world order = some world') : Steady world' := by
  obtain ⟨sound, c, within⟩ := steady
  obtain ⟨sound', c'⟩ := sound_step sound c received roomy done
  have m := matches_of_corresponds sound.regular c sound.proc
  obtain ⟨_, fs, first, second⟩ := effects_step sound.regular m received roomy done
  obtain ⟨tables, _⟩ := matches_effect sound.tables (named_listing _) m first
  exact ⟨sound', c', within_effect tables (within_effect sound.tables within first) second⟩

theorem steady_always {orders : List Order} (steady : Steady world)
    (received : ∀ order ∈ orders, Received order.jrp)
    (roomy : ∀ order ∈ orders, NamesRoomy order.jrp) :
    Always (step print) Steady world orders := by
  have along : Along (step print) (fun _ order => Received order.jrp ∧ NamesRoomy order.jrp)
      world orders :=
    along_of_forall (fun order mem => ⟨received order mem, roomy order mem⟩) world
  exact always_of_along (fun _ _ _ steady both done => steady_step steady both.1 both.2 done)
    steady along

/-- In every run the changes whose text fits are in the slot after they are answered, and no
others are. -/
theorem saved_along {orders : List Order} (steady : Steady world)
    (received : ∀ order ∈ orders, Received order.jrp)
    (roomy : ∀ order ∈ orders, NamesRoomy order.jrp) :
    Along (step print) (fun w order => ∀ jrp d a document after, order = .write jrp →
      Changes print w jrp d a document after →
        (InSlot print after.world d a document ↔ (print document).length ≤ fsMaxFileSize))
      world orders := by
  have along : Along (step print) (fun _ order => Received order.jrp ∧ NamesRoomy order.jrp)
      world orders :=
    along_of_forall (fun order mem => ⟨received order mem, roomy order mem⟩) world
  have always : Along (step print) (fun w _ => Steady w) world orders :=
    along_of_always (fun _ _ steady => steady) (steady_always steady received roomy)
  refine along_mono ?_ (along_and along always)
  rintro w order ⟨⟨received, roomy⟩, steady⟩ jrp d a document after rfl changes
  exact inSlot_iff steady received roomy changes

end Writes

section Overflow

/-- A name of a key that has no room for another byte. -/
def longName (c : UInt8) : Bytes := List.replicate 191 c

/-- A request of the greatest depth below `d.a`, all its names and its value made of `c`. -/
def longRequest (c : UInt8) : Jrp where
  segm := [⟨ofChars ['d'], -1, .dir⟩, ⟨ofChars ['a'], -1, .archive⟩] ++
    List.replicate 7 ⟨longName c, -1, .logicScope⟩ ++ [⟨longName c, -1, .field⟩]
  valuestring := some (List.replicate 255 c)
  dupkey := [dot].intercalate (ofChars ['d'] :: ofChars ['a'] :: List.replicate 8 (longName c))
  dupvalue := List.replicate 255 c

/-- Four such requests after `d` is made. -/
def longRun : List Order :=
  .mkdir dirRequest :: ([97, 98, 99, 100] : List UInt8).map fun c => .write (longRequest c)

/-- The text of a whole number. -/
abbrev printText : Item Nat → Bytes := cjsonPrintUnformatted fun n => printInt n

theorem longRequest_received : ∀ c ∈ ([97, 98, 99, 100, 101] : List UInt8),
    rtCreateJrp ((longRequest c).dupkey ++ equalSign :: (longRequest c).dupvalue) =
      some (longRequest c) := by
  decide +kernel

/-- The length of the text of the document `d.a`. -/
def textLength (world : World Nat) : Option Nat :=
  (documentAt world (ofChars ['d']) (ofChars ['a'])).map fun document =>
    (printText document).length

/-- The fifth request is answered with `JESS_OK`, and the text is too long after it. -/
theorem longRun_sizes : ((run (step printText) emptyServer longRun).bind fun w =>
    (proVariableWrite printText w (longRequest 101)).map fun after =>
      (after.ok, textLength w, textLength after.world)) = some (true, some 7297, some 9121) := by
  decide +kernel

theorem emptyServer_steady : Steady (emptyServer : World ν) :=
  ⟨emptyServer_sound, emptyServer_corresponds, within_zero⟩

theorem received_longRequest {c : UInt8} (known : c ∈ ([97, 98, 99, 100, 101] : List UInt8)) :
    Received (longRequest c) := ⟨_, longRequest_received c known⟩

theorem longRequest_fits (c : UInt8) : NamesFit (longRequest c) := by
  have name : ∀ letter : Char, Fits (ofChars [letter]) :=
    fun letter => ⟨by rintro ⟨⟩, by simp [ofChars]⟩
  have two : (longRequest c).segm.take 2 =
      [⟨ofChars ['d'], -1, .dir⟩, ⟨ofChars ['a'], -1, .archive⟩] := rfl
  rw [NamesFit, two]
  simp only [List.forall_mem_cons]
  exact ⟨name 'd', name 'a', by simp⟩

theorem longRun_received : ∀ order ∈ longRun, Received order.jrp := by
  rw [longRun, List.forall_mem_cons]
  refine ⟨smallRun_received _ (List.mem_cons_self ..), fun order mem => ?_⟩
  obtain ⟨c, known, rfl⟩ := List.mem_map.mp mem
  exact received_longRequest (List.mem_append_left [101] known)

theorem longRun_fits : ∀ order ∈ longRun, NamesFit order.jrp := by
  rw [longRun, List.forall_mem_cons]
  refine ⟨smallRun_fits _ (List.mem_cons_self ..), fun order mem => ?_⟩
  obtain ⟨c, _, rfl⟩ := List.mem_map.mp mem
  exact longRequest_fits c

/-- The fifth long value is accepted, and its document is not in the slot. -/
theorem not_always_saved : ¬ ∀ (orders : List Order) (world : World Nat) (jrp : Jrp) (d a : Bytes)
    (document : Item Nat) (after : Answered Nat),
    (∀ order ∈ orders, Received order.jrp ∧ NamesFit order.jrp) →
    run (step printText) emptyServer orders = some world → Received jrp → NamesFit jrp →
    Changes printText world jrp d a document after →
    InSlot printText after.world d a document := by
  intro claim
  obtain ⟨world, reached, rest⟩ := Option.bind_eq_some_iff.mp longRun_sizes
  obtain ⟨after, answered, sizes⟩ := Option.map_eq_some_iff.mp rest
  obtain ⟨ok, sizes⟩ := Prod.mk.inj sizes
  obtain ⟨before, left⟩ := Prod.mk.inj sizes
  obtain ⟨document, there, long⟩ := Option.map_eq_some_iff.mp left
  have other : documentAt world (ofChars ['d']) (ofChars ['a']) ≠ some document := by
    intro same
    rw [textLength, same, Option.map_some, long] at before
    cases before
  have changes : Changes printText world (longRequest 101) (ofChars ['d']) (ofChars ['a'])
      document after := ⟨rfl, by decide, answered, ok, there, other⟩
  have received := received_longRequest (c := 101) (by simp)
  have fits := longRequest_fits 101
  have steady : Steady world := always_end (steady_always emptyServer_steady longRun_received
    fun order mem => (longRun_fits order mem).roomy) reached
  have kept := claim longRun world _ _ _ document after
    (fun order mem => ⟨longRun_received order mem, longRun_fits order mem⟩) reached received fits
    changes
  have short := (inSlot_iff steady received fits.roomy changes).mp kept
  rw [long] at short
  exact absurd short (by decide)

/-- The four requests that fit, on a server without a configuration. -/
theorem saved_along_longRun : Along (step printText) (fun w order => ∀ jrp d a document after,
    order = .write jrp → Changes printText w jrp d a document after →
      (InSlot printText after.world d a document ↔
        (printText document).length ≤ fsMaxFileSize)) emptyServer longRun :=
  saved_along emptyServer_steady longRun_received fun order mem => (longRun_fits order mem).roomy

end Overflow

end Saving
