import Cfgd.AvlCalls

/-!
# The object table

The hash table of `object.c`: 256 search trees, each with the objects of one remainder of
the handle. What an operation does is said through `_objtabsrch`, so that the trees do
not show outside this module.
-/

namespace ObjectTable

open AvlTree AvlTree.Avl

inductive ObjStat where
  | normal
  | closewait
  deriving DecidableEq, Repr

/-- `object_t`. `number` is history: it tells the objects apart, as their bodies do. -/
structure Object where
  number : Nat
  hld : Int
  status : ObjStat
  refcnt : Int
  size : Nat
  unloader : Bool
  deriving DecidableEq, Repr

def objHashtableSize : Nat := 256
def invalidObjhld : Int := -1

abbrev Root := Fin objHashtableSize

/-- `struct _object_manager` without its lock. -/
structure ObjectManager where
  roottab : Root → Avl Object
  atoid : Int

/-- `_avl_compare_routine`. -/
def avlCompareRoutine (lobj robj : Object) : Int :=
  if lobj.hld > robj.hld then 1 else if lobj.hld < robj.hld then -1 else 0

theorem compares_avlCompareRoutine : AvlCalls.Compares avlCompareRoutine Object.hld := by
  intro lobj robj
  rw [avlCompareRoutine]
  rcases Int.lt_trichotomy lobj.hld robj.hld with lt | eq | gt
  · rw [if_neg (by omega), if_pos lt]
    exact Int.compare_eq_lt.mpr lt
  · rw [if_neg (by omega), if_neg (by omega)]
    exact Int.compare_eq_eq.mpr eq
  · rw [if_pos gt]
    exact Int.compare_eq_gt.mpr gt

/-- `_hld2root`: the low bits of a positive handle. -/
def hld2root (hld : Int) : Option Root :=
  if 0 < hld then some ⟨hld.toNat % objHashtableSize, Nat.mod_lt _ (by decide)⟩ else none

/-- `object_t node; node.hld = hld;` -/
def nodeOf (hld : Int) : Object := ⟨0, hld, .normal, 0, 0, false⟩

namespace ObjectManager

def setRoot (m : ObjectManager) (root : Root) (tree : Avl Object) : ObjectManager :=
  { m with roottab := fun i => if i = root then tree else m.roottab i }

end ObjectManager

def objtabsrch (m : ObjectManager) (hld : Int) : Option Object :=
  match hld2root hld with
  | none => none
  | some root => AvlCalls.avlsearch avlCompareRoutine (m.roottab root) (nodeOf hld)

/-- The table without the object, and the object that was taken out. -/
def objtabrmve (m : ObjectManager) (hld : Int) : ObjectManager × Option Object :=
  match hld2root hld with
  | none => (m, none)
  | some root =>
    let (tree, rmnode) := AvlCalls.avlremove avlCompareRoutine (m.roottab root) (nodeOf hld) none
    (m.setRoot root tree, rmnode)

/-- The last line of the locked section of `_objtabinst`. -/
def insertAt (m : ObjectManager) (root : Root) (obj : Object) : ObjectManager :=
  m.setRoot root (AvlCalls.avlinsert avlCompareRoutine (m.roottab root) obj)

/-- A write through the pointer that `_objtabsrch` returned. -/
def objwrite (m : ObjectManager) (hld : Int) (f : Object → Object) : ObjectManager :=
  match hld2root hld with
  | none => m
  | some root => m.setRoot root (modify Object.hld f (m.roottab root) hld)

def enodev : Int := 19
def eexist : Int := 17

/-- `_objtabinst`: the status, the table, and the object with its handle. -/
def objtabinst (m : ObjectManager) (obj : Object) : Int × ObjectManager × Object :=
  if obj.hld ≠ invalidObjhld ∨ obj.hld = 0 then
    match hld2root obj.hld with
    | none => (-enodev, m, obj)
    | some root =>
      match AvlCalls.avlsearch avlCompareRoutine (m.roottab root) (nodeOf obj.hld) with
      | some _ => (-eexist, m, obj)
      | none => (0, insertAt m root obj, obj)
  else
    let m := { m with atoid := m.atoid + 1 }
    let obj := { obj with hld := m.atoid }
    match hld2root obj.hld with
    | none => (-enodev, m, obj)
    | some root => (0, insertAt m root obj, obj)

/-- Each object is in the tree of its handle, and each tree in the order of the handles. -/
structure WellFormed (m : ObjectManager) : Prop where
  ordered : ∀ root, Ordered Object.hld (m.roottab root)
  placed : ∀ root, ∀ obj ∈ (m.roottab root).toList, hld2root obj.hld = some root

def InTable (m : ObjectManager) (obj : Object) : Prop :=
  ∃ root, obj ∈ (m.roottab root).toList

section Search
variable {m : ObjectManager} {hld : Int} {root : Root}

theorem objtabsrch_eq (m : ObjectManager) (hld : Int) :
    objtabsrch m hld = (hld2root hld).bind fun root =>
      avlsearch Object.hld (m.roottab root) hld := by
  rw [objtabsrch]
  cases hld2root hld with
  | none => rfl
  | some root => exact AvlCalls.avlsearch_eq compares_avlCompareRoutine _ _

theorem objtabsrch_of_root (found : hld2root hld = some root) :
    objtabsrch m hld = avlsearch Object.hld (m.roottab root) hld := by
  rw [objtabsrch_eq, found]
  rfl

theorem objtabsrch_hld {obj : Object} (found : objtabsrch m hld = some obj) :
    obj.hld = hld ∧ InTable m obj := by
  rw [objtabsrch_eq] at found
  obtain ⟨root, -, got⟩ := Option.bind_eq_some_iff.mp found
  exact ⟨key_of_avlsearch _ got, root, mem_of_avlsearch _ got⟩

theorem inTable_iff (wf : WellFormed m) {obj : Object} :
    InTable m obj ↔ objtabsrch m obj.hld = some obj := by
  constructor
  · rintro ⟨root, mem⟩
    rw [objtabsrch_of_root (wf.placed root obj mem)]
    exact (mem_toList_iff _ (wf.ordered root)).mp mem
  · intro found
    exact (objtabsrch_hld found).2

/-- Another tree under one root. -/
theorem objtabsrch_setRoot (root : Root) (tree : Avl Object) (k : Int) :
    objtabsrch (m.setRoot root tree) k =
      if hld2root k = some root then avlsearch Object.hld tree k else objtabsrch m k := by
  rw [objtabsrch_eq, objtabsrch_eq]
  cases there : hld2root k with
  | none => rfl
  | some other =>
    by_cases same : other = root
    · rw [if_pos (congrArg some same)]
      simp only [Option.bind_some, ObjectManager.setRoot, same, if_true]
    · rw [if_neg fun h => same (Option.some.inj h)]
      simp only [Option.bind_some, ObjectManager.setRoot, same, if_false]

end Search

section Changes
variable {m : ObjectManager} {hld : Int}

theorem wellFormed_setRoot (wf : WellFormed m) {root : Root} {tree : Avl Object}
    (ord : Ordered Object.hld tree)
    (placed : ∀ obj ∈ tree.toList, hld2root obj.hld = some root) :
    WellFormed (m.setRoot root tree) := by
  constructor
  · intro i
    rw [ObjectManager.setRoot]
    dsimp only
    split
    · exact ord
    · exact wf.ordered i
  · intro i obj
    rw [ObjectManager.setRoot]
    dsimp only
    split
    · rename_i same
      rw [same]
      exact placed obj
    · exact wf.placed i obj

theorem objtabrmve_none (absent : hld2root hld = none) : objtabrmve m hld = (m, none) := by
  rw [objtabrmve, absent]

theorem objtabrmve_some {root : Root} (found : hld2root hld = some root) :
    objtabrmve m hld = (m.setRoot root (AvlTree.avlremove Object.hld (m.roottab root) hld),
      objtabsrch m hld) := by
  rw [objtabrmve, found, objtabsrch_of_root found]
  dsimp only
  rw [AvlCalls.avlremove_eq compares_avlCompareRoutine]
  rfl

theorem objtabrmve_snd (m : ObjectManager) (hld : Int) :
    (objtabrmve m hld).2 = objtabsrch m hld := by
  cases found : hld2root hld with
  | none =>
    rw [objtabrmve_none found, objtabsrch_eq, found]
    rfl
  | some root => rw [objtabrmve_some found]

theorem objtabsrch_objtabrmve (wf : WellFormed m) (hld k : Int) :
    objtabsrch (objtabrmve m hld).1 k = if k = hld then none else objtabsrch m k := by
  cases found : hld2root hld with
  | none =>
    rw [objtabrmve_none found]
    split
    · rename_i same
      rw [objtabsrch_eq, same, found]
      rfl
    · rfl
  | some root =>
    rw [objtabrmve_some found, objtabsrch_setRoot]
    split
    · rename_i here
      rw [avlsearch_avlremove _ (wf.ordered root), objtabsrch_of_root here]
    · rename_i elsewhere
      have other : k ≠ hld := fun same => elsewhere (same ▸ found)
      rw [if_neg other]

theorem wellFormed_objtabrmve (wf : WellFormed m) (hld : Int) :
    WellFormed (objtabrmve m hld).1 := by
  cases found : hld2root hld with
  | none => rwa [objtabrmve_none found]
  | some root =>
    rw [objtabrmve_some found]
    refine wellFormed_setRoot wf (ordered_avlremove _ (wf.ordered root) hld) fun obj mem => ?_
    rw [toList_avlremove _ (wf.ordered root)] at mem
    exact wf.placed root obj (List.mem_of_mem_filter mem)

theorem objtabsrch_insertAt (wf : WellFormed m) {root : Root} {obj : Object}
    (found : hld2root obj.hld = some root) (k : Int) :
    objtabsrch (insertAt m root obj) k =
      if k = obj.hld then some ((objtabsrch m k).getD obj) else objtabsrch m k := by
  rw [insertAt, objtabsrch_setRoot, AvlCalls.avlinsert_eq compares_avlCompareRoutine]
  split
  · rename_i here
    rw [avlsearch_avlinsert _ (wf.ordered root), objtabsrch_of_root here]
    by_cases same : k = obj.hld
    · rw [if_pos same.symm, if_pos same]
    · rw [if_neg fun h => same h.symm, if_neg same]
  · rename_i elsewhere
    have other : k ≠ obj.hld := fun same => elsewhere (same ▸ found)
    rw [if_neg other]

theorem wellFormed_insertAt (wf : WellFormed m) {root : Root} {obj : Object}
    (found : hld2root obj.hld = some root) : WellFormed (insertAt m root obj) := by
  rw [insertAt, AvlCalls.avlinsert_eq compares_avlCompareRoutine]
  refine wellFormed_setRoot wf (ordered_avlinsert _ (wf.ordered root) obj) fun o mem => ?_
  rw [toList_avlinsert _ (wf.ordered root)] at mem
  rcases mem_insertOrd _ mem with rfl | old
  · exact found
  · exact wf.placed root o old

theorem objtabsrch_objwrite {f : Object → Object} (keeps : ∀ obj, (f obj).hld = obj.hld) (k : Int) :
    objtabsrch (objwrite m hld f) k =
      if k = hld then (objtabsrch m k).map f else objtabsrch m k := by
  rw [objwrite]
  cases found : hld2root hld with
  | none =>
    dsimp only
    split
    · rename_i same
      rw [objtabsrch_eq, same, found]
      rfl
    · rfl
  | some root =>
    dsimp only
    rw [objtabsrch_setRoot]
    split
    · rename_i here
      rw [avlsearch_modify _ (fun obj _ => keeps obj), objtabsrch_of_root here]
      split
      · rename_i same
        rw [same]
      · rfl
    · rename_i elsewhere
      have other : k ≠ hld := fun same => elsewhere (same ▸ found)
      rw [if_neg other]

theorem wellFormed_objwrite (wf : WellFormed m) {f : Object → Object}
    (keeps : ∀ obj, (f obj).hld = obj.hld) (hld : Int) : WellFormed (objwrite m hld f) := by
  rw [objwrite]
  cases found : hld2root hld with
  | none => exact wf
  | some root =>
    refine wellFormed_setRoot wf (ordered_modify _ (fun obj _ => keeps obj) (wf.ordered root))
      fun o mem => ?_
    rw [toList_modify _ (wf.ordered root)] at mem
    obtain ⟨old, stored, rfl⟩ := List.mem_map.mp mem
    split
    · rw [keeps]
      exact wf.placed root old stored
    · exact wf.placed root old stored

/-- The table after a change of one handle. -/
structure Put (m m' : ObjectManager) (hld : Int) (entry : Option Object) : Prop where
  wellFormed : WellFormed m'
  search : ∀ k, objtabsrch m' k = if k = hld then entry else objtabsrch m k

theorem put_objwrite (wf : WellFormed m) {obj : Object} (found : objtabsrch m hld = some obj)
    {f : Object → Object} (keeps : ∀ obj, (f obj).hld = obj.hld) :
    Put m (objwrite m hld f) hld (some (f obj)) := by
  refine ⟨wellFormed_objwrite wf keeps hld, fun k => ?_⟩
  rw [objtabsrch_objwrite keeps]
  split
  · rename_i same
    rw [same, found]
    rfl
  · rfl

theorem put_objtabrmve (wf : WellFormed m) (hld : Int) : Put m (objtabrmve m hld).1 hld none :=
  ⟨wellFormed_objtabrmve wf hld, objtabsrch_objtabrmve wf hld⟩

/-- A new handle. -/
theorem put_insertAt (wf : WellFormed m) {root : Root} {obj : Object}
    (found : hld2root obj.hld = some root) (free : objtabsrch m obj.hld = none) :
    Put m (insertAt m root obj) obj.hld (some obj) := by
  refine ⟨wellFormed_insertAt wf found, fun k => ?_⟩
  rw [objtabsrch_insertAt wf found]
  split
  · rename_i same
    rw [same, free]
    rfl
  · rfl

/-- A handle that is taken: the object does not get into the table. -/
theorem objtabsrch_insertAt_taken (wf : WellFormed m) {root : Root} {obj old : Object}
    (found : hld2root obj.hld = some root) (taken : objtabsrch m obj.hld = some old) (k : Int) :
    objtabsrch (insertAt m root obj) k = objtabsrch m k := by
  rw [objtabsrch_insertAt wf found]
  split
  · rename_i same
    rw [same, taken]
    rfl
  · rfl

/-- How `_objtabinst` ends: with an error and the table as it was, with the object under a
handle that was free, or with success though the number drawn is the handle of another
object, which stays where it is. -/
inductive Entered (m : ObjectManager) (obj : Object) : Int → ObjectManager → Object → Prop where
  | rejected {status : Int} {m' : ObjectManager} {obj' : Object} (error : status < 0)
      (wellFormed : WellFormed m') (same : ∀ k, objtabsrch m' k = objtabsrch m k)
      (known : obj.hld = invalidObjhld → objtabsrch m (m.atoid + 1) = none) :
      Entered m obj status m' obj'
  | placed {m' : ObjectManager} {hld : Int} (free : objtabsrch m hld = none)
      (put : Put m m' hld (some { obj with hld := hld }))
      (known : obj.hld = invalidObjhld → hld = m.atoid + 1) :
      Entered m obj 0 m' { obj with hld := hld }
  | lost {m' : ObjectManager} {old : Object} (drawn : obj.hld = invalidObjhld)
      (taken : objtabsrch m (m.atoid + 1) = some old) (wellFormed : WellFormed m')
      (same : ∀ k, objtabsrch m' k = objtabsrch m k) :
      Entered m obj 0 m' { obj with hld := m.atoid + 1 }

theorem entered_objtabinst (wf : WellFormed m) (obj : Object) :
    Entered m obj (objtabinst m obj).1 (objtabinst m obj).2.1 (objtabinst m obj).2.2 := by
  have errors : -enodev < 0 ∧ -eexist < 0 := by decide
  rw [objtabinst]
  by_cases known : obj.hld ≠ invalidObjhld ∨ obj.hld = 0
  · have chosen : obj.hld ≠ invalidObjhld := by
      rcases known with chosen | zero
      · exact chosen
      · rw [zero]
        decide
    rw [if_pos known]
    cases found : hld2root obj.hld with
    | none => exact .rejected errors.1 wf (fun _ => rfl) fun auto => absurd auto chosen
    | some root =>
      have searched : objtabsrch m obj.hld =
          AvlCalls.avlsearch avlCompareRoutine (m.roottab root) (nodeOf obj.hld) := by
        rw [objtabsrch, found]
      dsimp only
      cases target : AvlCalls.avlsearch avlCompareRoutine (m.roottab root) (nodeOf obj.hld) with
      | some old => exact .rejected errors.2 wf (fun _ => rfl) fun auto => absurd auto chosen
      | none =>
        have free := searched.trans target
        exact .placed free (put_insertAt wf found free) fun auto => absurd auto chosen
  · have auto := not_not.mp (not_or.mp known).1
    have counted : WellFormed { m with atoid := m.atoid + 1 } := ⟨wf.ordered, wf.placed⟩
    rw [if_neg known]
    dsimp only
    cases found : hld2root (m.atoid + 1) with
    | none =>
      refine .rejected errors.1 counted (fun _ => rfl) fun _ => ?_
      rw [objtabsrch, found]
    | some root =>
      cases target : objtabsrch m (m.atoid + 1) with
      | none =>
        have put := @put_insertAt _ counted root { obj with hld := m.atoid + 1 } found target
        exact .placed target ⟨put.wellFormed, put.search⟩ fun _ => rfl
      | some old =>
        refine .lost auto target (wellFormed_insertAt counted found) fun k => ?_
        exact @objtabsrch_insertAt_taken _ counted root { obj with hld := m.atoid + 1 } old
          found target k

end Changes

end ObjectTable
