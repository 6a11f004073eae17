import Cfgd.ObjectCalls

/-!
# Closing an object

Along every run an object is unloaded once at most, after a close was requested and with
no reference left; from the request on nobody gets a reference to it.
-/

namespace ObjectClosing

open ObjectTable ObjectCalls

/-- The objects that left the table, unloaded or about to be. -/
def past (s : State) : List Nat := s.removed.map Object.number ++ s.unloaded

/-- The table and the history agree. -/
structure Kept (s : State) : Prop where
  wellFormed : WellFormed s.m
  made : ∀ {hld obj}, objtabsrch s.m hld = some obj → obj.number < s.created
  pastMade : ∀ number ∈ past s, number < s.created
  closingMade : ∀ number ∈ s.closing, number < s.created
  distinct : ∀ {hld hld' obj obj'}, objtabsrch s.m hld = some obj →
    objtabsrch s.m hld' = some obj' → obj.number = obj'.number → hld = hld'
  apart : ∀ {hld obj}, objtabsrch s.m hld = some obj → obj.number ∉ past s
  once : (past s).Nodup
  removedClosed : ∀ obj ∈ s.removed, obj.refcnt = 0 ∧ obj.number ∈ s.closing
  counted : ∀ {hld obj}, objtabsrch s.m hld = some obj →
    obj.refcnt = (s.held.count (obj.number, hld) : Nat)
  present : ∀ number hld, (number, hld) ∈ s.held →
    ∃ obj, objtabsrch s.m hld = some obj ∧ obj.number = number
  waits : ∀ {hld obj}, objtabsrch s.m hld = some obj →
    (obj.status = .closewait ↔ obj.number ∈ s.closing)
  positive : ∀ {hld obj}, objtabsrch s.m hld = some obj → obj.status = .closewait →
    0 < obj.refcnt

theorem kept_initial : Kept initial := by
  have empty : ∀ hld, objtabsrch initial.m hld = none := by
    intro hld
    rw [objtabsrch_eq]
    cases hld2root hld <;> rfl
  constructor
  case wellFormed =>
    exact ⟨fun _ => List.Pairwise.nil, fun _ _ mem => absurd mem List.not_mem_nil⟩
  case pastMade => exact fun _ mem => absurd mem List.not_mem_nil
  case closingMade => exact fun _ mem => absurd mem List.not_mem_nil
  case once => exact List.nodup_nil
  case removedClosed => exact fun _ mem => absurd mem List.not_mem_nil
  case present => exact fun _ _ mem => absurd mem List.not_mem_nil
  all_goals
    intros
    simp_all

section Changes
variable {s : State} (kept : Kept s) {m : ObjectManager}
include kept

/-- A step that makes an object without a place in the table. -/
theorem kept_made (wf : WellFormed m) (same : ∀ k, objtabsrch m k = objtabsrch s.m k)
    (granted : List Ref) :
    Kept { s with m := m, created := s.created + 1, granted := granted } := by
  obtain ⟨_, made, pastMade, closingMade, distinct, apart, once, removedClosed, counted, present,
    waits, positive⟩ := kept
  simp only [← same] at made distinct apart counted present waits positive
  exact ⟨wf, fun found => Nat.lt_succ_of_lt (made found),
    fun number mem => Nat.lt_succ_of_lt (pastMade number mem),
    fun number mem => Nat.lt_succ_of_lt (closingMade number mem),
    distinct, apart, once, removedClosed, counted, present, waits, positive⟩

/-- An initializer that fails: the object is unloaded without having been in the table. -/
theorem kept_failed :
    Kept { s with created := s.created + 1, unloaded := s.created :: s.unloaded } := by
  have members : ∀ number, number ∈ s.removed.map Object.number ++ s.created :: s.unloaded ↔
      number = s.created ∨ number ∈ past s := by
    intro number
    rw [past]
    simp only [List.mem_append, List.mem_cons]
    exact or_left_comm
  constructor
  case wellFormed => exact kept.wellFormed
  case made => exact fun found => Nat.lt_succ_of_lt (kept.made found)
  case pastMade =>
    intro number mem
    rcases (members number).mp mem with rfl | old
    · exact Nat.lt_succ_self _
    · exact Nat.lt_succ_of_lt (kept.pastMade number old)
  case closingMade => exact fun number mem => Nat.lt_succ_of_lt (kept.closingMade number mem)
  case distinct => exact kept.distinct
  case apart =>
    intro hld obj found mem
    rcases (members _).mp mem with new | old
    · have made := kept.made found
      omega
    · exact kept.apart found old
  case once =>
    have new : s.created ∉ past s := fun mem => absurd (kept.pastMade _ mem) (lt_irrefl _)
    have perm : List.Perm (s.removed.map Object.number ++ s.created :: s.unloaded)
        (s.created :: past s) := List.perm_middle
    exact perm.nodup_iff.mpr (List.nodup_cons.mpr ⟨new, kept.once⟩)
  case removedClosed => exact kept.removedClosed
  case counted => exact kept.counted
  case present => exact kept.present
  case waits => exact kept.waits
  case positive => exact kept.positive

theorem kept_entered {obj : Object} (put : Put s.m m obj.hld (some obj))
    (free : objtabsrch s.m obj.hld = none) (number : obj.number = s.created)
    (refcnt : obj.refcnt = 0) (normal : obj.status = .normal) (granted : List Ref) :
    Kept { s with m := m, created := s.created + 1, granted := granted } := by
  have old : ∀ {hld o}, objtabsrch m hld = some o →
      hld = obj.hld ∧ o = obj ∨ hld ≠ obj.hld ∧ objtabsrch s.m hld = some o := by
    intro hld o found
    rw [put.search] at found
    split at found
    · rename_i same
      exact Or.inl ⟨same, (Option.some.inj found).symm⟩
    · rename_i other
      exact Or.inr ⟨other, found⟩
  constructor
  case wellFormed => exact put.wellFormed
  case made =>
    intro hld o found
    rcases old found with ⟨-, rfl⟩ | ⟨-, before⟩
    · exact number ▸ Nat.lt_succ_self _
    · exact Nat.lt_succ_of_lt (kept.made before)
  case pastMade => exact fun number mem => Nat.lt_succ_of_lt (kept.pastMade number mem)
  case closingMade => exact fun number mem => Nat.lt_succ_of_lt (kept.closingMade number mem)
  case distinct =>
    intro hld hld' o o' found found' same
    rcases old found with ⟨here, rfl⟩ | ⟨-, before⟩
    · rcases old found' with ⟨here', rfl⟩ | ⟨-, before'⟩
      · rw [here, here']
      · have made := kept.made before'
        omega
    · rcases old found' with ⟨here', rfl⟩ | ⟨-, before'⟩
      · have made := kept.made before
        omega
      · exact kept.distinct before before' same
  case apart =>
    intro hld o found mem
    rcases old found with ⟨-, rfl⟩ | ⟨-, before⟩
    · have made := kept.pastMade _ mem
      omega
    · exact kept.apart before mem
  case once => exact kept.once
  case removedClosed => exact kept.removedClosed
  case counted =>
    intro hld o found
    rcases old found with ⟨rfl, rfl⟩ | ⟨-, before⟩
    · have none : (o.number, o.hld) ∉ s.held := by
        intro mem
        obtain ⟨o', found', -⟩ := kept.present _ _ mem
        rw [free] at found'
        cases found'
      rw [refcnt, List.count_eq_zero_of_not_mem none]
      rfl
    · exact kept.counted before
  case present =>
    intro n hld mem
    obtain ⟨o, found, same⟩ := kept.present n hld mem
    refine ⟨o, ?_, same⟩
    rw [put.search, if_neg, found]
    rintro rfl
    rw [free] at found
    cases found
  case waits =>
    intro hld o found
    rcases old found with ⟨-, rfl⟩ | ⟨-, before⟩
    · rw [normal]
      refine ⟨nofun, fun mem => ?_⟩
      have made := kept.closingMade _ mem
      omega
    · exact kept.waits before
  case positive =>
    intro hld o found waiting
    rcases old found with ⟨-, rfl⟩ | ⟨-, before⟩
    · rw [normal] at waiting
      cases waiting
    · exact kept.positive before waiting

variable {hld : Int} {obj : Object} (found : objtabsrch s.m hld = some obj)
include found

/-- A write to an object: its count follows the references, and its status the requests. -/
theorem kept_written {obj' : Object} {held : List Ref} {closing : List Nat}
    (put : Put s.m m hld (some obj')) (number : obj'.number = obj.number)
    (counted : obj'.refcnt = (held.count (obj.number, hld) : Nat))
    (others : ∀ ref, ref ≠ (obj.number, hld) → held.count ref = s.held.count ref)
    (requests : ∀ n, n ≠ obj.number → (n ∈ closing ↔ n ∈ s.closing))
    (monotone : ∀ n ∈ s.closing, n ∈ closing)
    (waits : obj'.status = .closewait ↔ obj.number ∈ closing)
    (positive : obj'.status = .closewait → 0 < obj'.refcnt) :
    Kept { s with m := m, held := held, closing := closing } := by
  have old : ∀ {k o}, objtabsrch m k = some o →
      k = hld ∧ o = obj' ∨ k ≠ hld ∧ objtabsrch s.m k = some o := by
    intro k o got
    rw [put.search] at got
    split at got
    · rename_i same
      exact Or.inl ⟨same, (Option.some.inj got).symm⟩
    · rename_i other
      exact Or.inr ⟨other, got⟩
  have elsewhere : ∀ {k o}, objtabsrch s.m k = some o → k ≠ hld → o.number ≠ obj.number :=
    fun before other same => other (kept.distinct before found same)
  constructor
  case wellFormed => exact put.wellFormed
  case made =>
    intro k o got
    rcases old got with ⟨-, rfl⟩ | ⟨-, before⟩
    · rw [number]
      exact kept.made found
    · exact kept.made before
  case pastMade => exact kept.pastMade
  case closingMade =>
    intro n mem
    by_cases same : n = obj.number
    · rw [same]
      exact kept.made found
    · exact kept.closingMade n ((requests n same).mp mem)
  case distinct =>
    intro k k' o o' got got' same
    rcases old got with ⟨here, rfl⟩ | ⟨other, before⟩
    · rcases old got' with ⟨here', rfl⟩ | ⟨other', before'⟩
      · rw [here, here']
      · exact absurd (same.symm.trans number) (elsewhere before' other')
    · rcases old got' with ⟨here', rfl⟩ | ⟨other', before'⟩
      · exact absurd (same.trans number) (elsewhere before other)
      · exact kept.distinct before before' same
  case apart =>
    intro k o got
    rcases old got with ⟨-, rfl⟩ | ⟨-, before⟩
    · rw [number]
      exact kept.apart found
    · exact kept.apart before
  case once => exact kept.once
  case removedClosed =>
    intro o mem
    obtain ⟨zero, closed⟩ := kept.removedClosed o mem
    exact ⟨zero, monotone _ closed⟩
  case counted =>
    intro k o got
    rcases old got with ⟨rfl, rfl⟩ | ⟨other, before⟩
    · rw [number]
      exact counted
    · rw [others _ fun same => other (Prod.mk.inj same).2]
      exact kept.counted before
  case present =>
    intro n k mem
    by_cases here : k = hld
    · refine ⟨obj', by rw [put.search, if_pos here], number.trans ?_⟩
      by_contra other
      have before : (n, k) ∈ s.held := by
        rw [← List.count_pos_iff] at mem ⊢
        rwa [others _ fun same => other (Prod.mk.inj same).1.symm] at mem
      obtain ⟨o, got, same⟩ := kept.present n k before
      rw [here, found] at got
      obtain rfl := Option.some.inj got
      exact other same
    · have before : (n, k) ∈ s.held := by
        rw [← List.count_pos_iff] at mem ⊢
        rwa [others _ fun same => here (Prod.mk.inj same).2] at mem
      obtain ⟨o, got, same⟩ := kept.present n k before
      exact ⟨o, by rw [put.search, if_neg here, got], same⟩
  case waits =>
    intro k o got
    rcases old got with ⟨-, rfl⟩ | ⟨other, before⟩
    · rw [number]
      exact waits
    · rw [requests _ (elsewhere before other)]
      exact kept.waits before
  case positive =>
    intro k o got
    rcases old got with ⟨-, rfl⟩ | ⟨-, before⟩
    · exact positive
    · exact kept.positive before

/-- A removal: nobody holds a reference, and a close was requested. -/
theorem kept_removed {gone : Object} {held : List Ref} {closing : List Nat}
    (put : Put s.m m hld none) (number : gone.number = obj.number) (refcnt : gone.refcnt = 0)
    (free : (obj.number, hld) ∉ held)
    (others : ∀ ref, ref ≠ (obj.number, hld) → held.count ref = s.held.count ref)
    (requests : ∀ n, n ≠ obj.number → (n ∈ closing ↔ n ∈ s.closing))
    (monotone : ∀ n ∈ s.closing, n ∈ closing) (closed : obj.number ∈ closing) :
    Kept { s with m := m, removed := gone :: s.removed, held := held, closing := closing } := by
  have old : ∀ {k o}, objtabsrch m k = some o → k ≠ hld ∧ objtabsrch s.m k = some o := by
    intro k o got
    rw [put.search] at got
    split at got
    · cases got
    · rename_i other
      exact ⟨other, got⟩
  have elsewhere : ∀ {k o}, objtabsrch s.m k = some o → k ≠ hld → o.number ≠ obj.number :=
    fun before other same => other (kept.distinct before found same)
  constructor
  case wellFormed => exact put.wellFormed
  case made => exact fun got => kept.made (old got).2
  case pastMade =>
    intro n mem
    rcases List.mem_cons.mp mem with rfl | before
    · rw [number]
      exact kept.made found
    · exact kept.pastMade n before
  case closingMade =>
    intro n mem
    by_cases same : n = obj.number
    · rw [same]
      exact kept.made found
    · exact kept.closingMade n ((requests n same).mp mem)
  case distinct => exact fun got got' => kept.distinct (old got).2 (old got').2
  case apart =>
    intro k o got mem
    obtain ⟨other, before⟩ := old got
    rcases List.mem_cons.mp mem with same | earlier
    · exact elsewhere before other (same.trans number)
    · exact kept.apart before earlier
  case once =>
    refine List.nodup_cons.mpr ⟨?_, kept.once⟩
    rw [number]
    exact kept.apart found
  case removedClosed =>
    intro o mem
    rcases List.mem_cons.mp mem with rfl | before
    · exact ⟨refcnt, number ▸ closed⟩
    · obtain ⟨zero, requested⟩ := kept.removedClosed o before
      exact ⟨zero, monotone _ requested⟩
  case counted =>
    intro k o got
    obtain ⟨other, before⟩ := old got
    rw [others _ fun same => other (Prod.mk.inj same).2]
    exact kept.counted before
  case present =>
    intro n k mem
    have notThis : (n, k) ≠ (obj.number, hld) := fun same => free (same ▸ mem)
    have before : (n, k) ∈ s.held := by
      rw [← List.count_pos_iff] at mem ⊢
      rwa [others _ notThis] at mem
    obtain ⟨o, got, same⟩ := kept.present n k before
    refine ⟨o, ?_, same⟩
    rw [put.search, if_neg, got]
    rintro rfl
    rw [found] at got
    obtain rfl := Option.some.inj got
    exact notThis (by rw [same])
  case waits =>
    intro k o got
    obtain ⟨other, before⟩ := old got
    rw [requests _ (elsewhere before other)]
    exact kept.waits before
  case positive => exact fun got => kept.positive (old got).2

omit found in
/-- The end of a removal. -/
theorem kept_freed {i : Nat} {target : Object} (here : s.removed[i]? = some target) :
    Kept { s with
      removed := s.removed.eraseIdx i
      unloaded := if target.unloader then target.number :: s.unloaded else s.unloaded } := by
  obtain ⟨inside, rfl⟩ := List.getElem?_eq_some_iff.mp here
  have parts : List.Perm s.removed (s.removed[i] :: s.removed.eraseIdx i) :=
    (List.getElem_cons_eraseIdx_perm inside).symm
  have before : List.Perm (past s)
      (s.removed[i].number :: ((s.removed.eraseIdx i).map Object.number ++ s.unloaded)) :=
    (parts.map Object.number).append_right _
  have after : ∃ rest, List.Perm (past s) (rest ++ ((s.removed.eraseIdx i).map Object.number ++
      if s.removed[i].unloader then s.removed[i].number :: s.unloaded else s.unloaded)) := by
    split
    · exact ⟨[], before.trans List.perm_middle.symm⟩
    · exact ⟨[s.removed[i].number], before⟩
  obtain ⟨rest, split⟩ := after
  constructor
  case wellFormed => exact kept.wellFormed
  case made => exact kept.made
  case pastMade =>
    intro n mem
    exact kept.pastMade n (split.mem_iff.mpr (List.mem_append_right rest mem))
  case closingMade => exact kept.closingMade
  case distinct => exact kept.distinct
  case apart =>
    intro k o got mem
    exact kept.apart got (split.mem_iff.mpr (List.mem_append_right rest mem))
  case once => exact (List.nodup_append.mp (split.nodup_iff.mp kept.once)).2.1
  case removedClosed => exact fun o mem => kept.removedClosed o (List.mem_of_mem_eraseIdx mem)
  case counted => exact kept.counted
  case present => exact kept.present
  case waits => exact kept.waits
  case positive => exact kept.positive

end Changes

section Steps
variable {s : State} (kept : Kept s)
include kept

theorem kept_enter {obj : Object} (number : obj.number = s.created) (refcnt : obj.refcnt = 0)
    (normal : obj.status = .normal) {t : State}
    (made : s.allocated (enter s.m obj) = some t) : Kept t := by
  rw [enter] at made
  split at made
  · cases made
  · have entered := entered_objtabinst kept.wellFormed obj
    dsimp only [State.allocated] at made
    obtain rfl := Option.some.inj made
    generalize (objtabinst s.m obj).1 = status, (objtabinst s.m obj).2.1 = m',
      (objtabinst s.m obj).2.2 = obj' at entered
    cases entered with
    | rejected _ wf same _ => exact kept_made kept wf same _
    | @placed m' hld free put _ =>
      exact @kept_entered _ kept m' { obj with hld := hld } put free number refcnt normal _
    | lost _ _ wf same => exact kept_made kept wf same _

/-- What an allocation comes to. -/
theorem kept_allocate {memory : Bool} {creator : Option Creator} {t : State}
    (made : s.allocated (allocate s.m s.created memory creator) = some t) : Kept t := by
  cases creator with
  | none => exact Option.some.inj made ▸ kept
  | some creator =>
    rw [allocate] at made
    split at made
    · exact Option.some.inj made ▸ kept
    · split at made
      · exact Option.some.inj made ▸ kept
      · cases initializer : creator.initializer with
        | none =>
          rw [initializer] at made
          exact kept_enter kept rfl rfl rfl made
        | some retval =>
          rw [initializer] at made
          dsimp only at made
          split at made
          · rw [State.allocated] at made
            split at made
            · exact Option.some.inj made ▸ kept_failed kept
            · cases made
          · exact kept_enter kept rfl rfl rfl made

end Steps

section Inversion

/-- What a call on an object can do, and the end of a removal. -/
inductive Change (s : State) : State → Prop where
  | idle : Change s s
  | taken {m : ObjectManager} {hld : Int} {obj : Object} (final : Bool)
      (found : objtabsrch s.m hld = some obj) (normal : obj.status = .normal)
      (put : Put s.m m hld (some (takeRef final obj))) :
      Change s { s with
        m := m
        held := (obj.number, hld) :: s.held
        closing := if final then obj.number :: s.closing else s.closing }
  | dropped {m : ObjectManager} {hld : Int} {obj : Object} (found : objtabsrch s.m hld = some obj)
      (mem : (obj.number, hld) ∈ s.held) (put : Put s.m m hld (some (dropRef obj)))
      (used : obj.status = .closewait → (dropRef obj).refcnt ≠ 0) :
      Change s { s with m := m, held := s.held.erase (obj.number, hld) }
  | droppedLast {m : ObjectManager} {hld : Int} {obj : Object}
      (found : objtabsrch s.m hld = some obj) (mem : (obj.number, hld) ∈ s.held)
      (put : Put s.m m hld none) (last : (dropRef obj).refcnt = 0)
      (waiting : obj.status = .closewait) :
      Change s { s with
        m := m
        removed := dropRef obj :: s.removed
        held := s.held.erase (obj.number, hld) }
  | marked {m : ObjectManager} {hld : Int} {obj : Object} (found : objtabsrch s.m hld = some obj)
      (put : Put s.m m hld (some (markClose obj)))
      (busy : obj.status = .normal → obj.refcnt ≠ 0) :
      Change s { s with m := m, closing := obj.number :: s.closing }
  | closed {m : ObjectManager} {hld : Int} {obj : Object} (found : objtabsrch s.m hld = some obj)
      (put : Put s.m m hld none) (idle : obj.refcnt = 0) :
      Change s { s with
        m := m
        removed := obj :: s.removed
        closing := obj.number :: s.closing }
  | freed {i : Nat} {target : Object} (here : s.removed[i]? = some target) :
      Change s { s with
        removed := s.removed.eraseIdx i
        unloaded := if target.unloader then target.number :: s.unloaded else s.unloaded }

variable {s : State} (kept : Kept s)
include kept

/-- A reference, with or without the request of a close. -/
theorem change_refer {final : Bool} {hld : Int} {m : ObjectManager} {got : Option Object}
    (made : refer final s.m hld = some (m, got)) :
    Change s (if final ∧ got ≠ none then (s.requested hld).referred hld m got
      else s.referred hld m got) := by
  rw [refer] at made
  cases found : objtabsrch s.m hld with
  | none =>
    simp only [found, Option.some.injEq, Prod.mk.injEq] at made
    obtain ⟨rfl, rfl⟩ := made
    rw [if_neg (by simp)]
    exact .idle
  | some obj =>
    simp only [found] at made
    split at made
    · obtain ⟨rfl, rfl⟩ := Prod.mk.inj (Option.some.inj made)
      rw [if_neg (by simp)]
      exact .idle
    · rename_i normal
      split at made
      · cases made
      · obtain ⟨rfl, rfl⟩ := Prod.mk.inj (Option.some.inj made)
        have put := put_objwrite kept.wellFormed found (f := takeRef final) fun _ => rfl
        have change := Change.taken final found (not_not.mp normal) put
        have request : s.requested hld = { s with closing := obj.number :: s.closing } := by
          rw [State.requested, found]
          rfl
        cases final with
        | false =>
          rw [if_neg (by simp)]
          exact change
        | true =>
          rw [if_pos (by simp), request]
          exact change

theorem change_objdefr {ref : Ref} (mem : ref ∈ s.held) {m : ObjectManager}
    {removed : Option Object} (made : objdefr s.m ref.2 = some (m, removed)) :
    Change s ({ s with held := s.held.erase ref }.taken m removed) := by
  obtain ⟨number, hld⟩ := ref
  obtain ⟨obj, found, rfl⟩ := kept.present number hld mem
  have key := (objtabsrch_hld found).1
  have put := put_objwrite kept.wellFormed found (f := dropRef) fun _ => rfl
  simp only [objdefr, found] at made
  split at made
  · split at made
    · -- the last reference to an object that waits to be closed
      rename_i last
      rw [key] at made
      have table : m = (objtabrmve (objwrite s.m hld dropRef) hld).1 := by
        rw [Option.some.inj made]
      have gone : removed = some (dropRef obj) := by
        have taken := objtabrmve_snd (objwrite s.m hld dropRef) hld
        rwa [Option.some.inj made, put.search, if_pos rfl] at taken
      have cleared := put_objtabrmve put.wellFormed hld
      have whole : Put s.m (objtabrmve (objwrite s.m hld dropRef) hld).1 hld none := by
        refine ⟨cleared.wellFormed, fun k => ?_⟩
        rw [cleared.search, put.search]
        split <;> rfl
      rw [table, gone]
      exact .droppedLast found mem whole last.1 last.2
    · rename_i notLast
      obtain ⟨rfl, rfl⟩ := Prod.mk.inj (Option.some.inj made)
      exact .dropped found mem put fun waiting zero => notLast ⟨zero, waiting⟩
  · cases made

theorem change_objclos (hld : Int) :
    Change s ((s.requested hld).taken (objclos s.m hld).1 (objclos s.m hld).2) := by
  rw [objclos, State.requested]
  cases found : objtabsrch s.m hld with
  | none => exact .idle
  | some obj =>
    have key := (objtabsrch_hld found).1
    dsimp only
    split
    · rename_i idle
      rw [key, objtabrmve_snd, found]
      exact .closed found (put_objtabrmve kept.wellFormed hld) idle.1
    · rename_i busy
      have put := put_objwrite kept.wellFormed found (f := markClose) fun _ => rfl
      exact .marked found put fun normal zero => busy ⟨zero, normal⟩

/-- The memory and the creator of an allocation. -/
def asks : Act → Option (Bool × Option Creator)
  | .objallo3 memory creator => some (memory, creator)
  | .objallo4 memory creator true => some (memory, creator)
  | _ => none

/-- A step is an allocation, or it changes what a call on an object can change. -/
theorem step_cases {a : Act} {t : State} (made : step s a = some t) :
    (∃ memory creator, asks a = some (memory, creator) ∧
      s.allocated (allocate s.m s.created memory creator) = some t) ∨
    asks a = none ∧ Change s t := by
  cases a with
  | objallo3 memory creator => exact Or.inl ⟨memory, creator, rfl, made⟩
  | objallo4 memory creator out =>
    rw [step, objallo4] at made
    cases out with
    | true => exact Or.inl ⟨memory, creator, rfl, made⟩
    | false => exact Or.inr ⟨rfl, Option.some.inj made ▸ .idle⟩
  | objrefr hld =>
    obtain ⟨⟨m, got⟩, referred, rfl⟩ := Option.map_eq_some_iff.mp made
    exact Or.inr ⟨rfl, change_refer kept referred⟩
  | objrefr2 hld out =>
    obtain ⟨⟨m, got, size⟩, referred, rfl⟩ := Option.map_eq_some_iff.mp made
    rw [objrefr2] at referred
    split at referred
    · obtain ⟨⟨m', got'⟩, first, same⟩ := Option.map_eq_some_iff.mp referred
      obtain ⟨rfl, rfl, -⟩ := same
      exact Or.inr ⟨rfl, change_refer kept first⟩
    · obtain ⟨rfl, rfl, -⟩ := Option.some.inj referred
      exact Or.inr ⟨rfl, .idle⟩
  | objreff hld =>
    obtain ⟨⟨m, got⟩, referred, rfl⟩ := Option.map_eq_some_iff.mp made
    have result := change_refer kept referred
    cases got with
    | none => exact Or.inr ⟨rfl, by simpa using result⟩
    | some obj => exact Or.inr ⟨rfl, by simpa using result⟩
  | objdefr ref =>
    rw [step] at made
    split at made
    · rename_i mem
      obtain ⟨⟨m, removed⟩, released, rfl⟩ := Option.map_eq_some_iff.mp made
      exact Or.inr ⟨rfl, change_objdefr kept mem released⟩
    · cases made
  | objclos hld => exact Or.inr ⟨rfl, Option.some.inj made ▸ change_objclos kept hld⟩
  | objtagfree i =>
    rw [step] at made
    split at made
    · cases made
    · rename_i target here
      exact Or.inr ⟨rfl, Option.some.inj made ▸ .freed here⟩

end Inversion

section Preservation
variable {s t : State} (kept : Kept s)
include kept

theorem kept_change (change : Change s t) : Kept t := by
  cases change with
  | idle => exact kept
  | freed here => exact kept_freed kept here
  | @taken m hld obj final found normal put =>
    have counted : (takeRef final obj).refcnt =
        (((obj.number, hld) :: s.held).count (obj.number, hld) : Nat) := by
      rw [List.count_cons_self, takeRef]
      have before := kept.counted found
      dsimp only
      omega
    have others : ∀ ref, ref ≠ (obj.number, hld) →
        ((obj.number, hld) :: s.held).count ref = s.held.count ref :=
      fun ref other => List.count_cons_of_ne other.symm
    have notClosing : obj.number ∉ s.closing := by
      rw [← kept.waits found, normal]
      decide
    have count : 0 < (takeRef final obj).refcnt := by
      rw [counted, List.count_cons_self]
      omega
    cases final with
    | false =>
      have status : (takeRef false obj).status = .normal := normal
      refine kept_written kept found put rfl counted others (fun _ _ => Iff.rfl)
        (fun _ mem => mem) ?_ fun _ => count
      rw [status]
      exact ⟨nofun, fun mem => absurd mem notClosing⟩
    | true =>
      exact kept_written kept found put rfl counted others
        (fun n other => by simp [other]) (fun _ mem => List.mem_cons_of_mem _ mem)
        ⟨fun _ => List.mem_cons_self, fun _ => rfl⟩ fun _ => count
  | @dropped m hld obj found mem put used =>
    have before := kept.counted found
    have pos := List.count_pos_iff.mpr mem
    have counted : (dropRef obj).refcnt =
        ((s.held.erase (obj.number, hld)).count (obj.number, hld) : Nat) := by
      rw [List.count_erase_self, dropRef]
      dsimp only
      omega
    have waits := kept.waits found
    refine kept_written kept found put rfl counted
      (fun ref other => List.count_erase_of_ne other) (fun _ _ => Iff.rfl) (fun _ mem => mem)
      waits fun waiting => ?_
    have nonzero := used waiting
    omega
  | @droppedLast m hld obj found mem put last waiting =>
    have before := kept.counted found
    have pos := List.count_pos_iff.mpr mem
    have count : (dropRef obj).refcnt = obj.refcnt - 1 := rfl
    have none : (s.held.erase (obj.number, hld)).count (obj.number, hld) = 0 := by
      rw [List.count_erase_self]
      omega
    exact @kept_removed _ kept m hld obj found (dropRef obj) _ _ put rfl last
      (List.count_eq_zero.mp none) (fun ref other => List.count_erase_of_ne other)
      (fun _ _ => Iff.rfl) (fun _ mem => mem) ((kept.waits found).mp waiting)
  | @marked m hld obj found put busy =>
    have counted := kept.counted found
    refine kept_written kept found put rfl counted (fun _ _ => rfl)
      (fun n other => by simp [other]) (fun _ mem => List.mem_cons_of_mem _ mem)
      ⟨fun _ => List.mem_cons_self, fun _ => rfl⟩ fun _ => ?_
    -- an object that is not closed at once has a reference, by the state it was in
    have count : (markClose obj).refcnt = obj.refcnt := rfl
    rw [count]
    cases status : obj.status with
    | closewait => exact kept.positive found status
    | normal =>
      have nonzero := busy status
      omega
  | @closed m hld obj found put idle =>
    have counted := kept.counted found
    have none : s.held.count (obj.number, hld) = 0 := by omega
    exact kept_removed kept found put rfl idle (List.count_eq_zero.mp none) (fun _ _ => rfl)
      (fun n other => by simp [other]) (fun _ mem => List.mem_cons_of_mem _ mem)
      List.mem_cons_self

theorem kept_step {a : Act} (made : step s a = some t) : Kept t := by
  rcases step_cases kept made with ⟨memory, creator, -, allocated⟩ | ⟨-, change⟩
  · exact kept_allocate kept allocated
  · exact kept_change kept change

end Preservation

section Laws

/-- The step is an allocation whose initializer fails. -/
def InitializerFails (s : State) (a : Act) (obj : Object) : Prop :=
  ∃ memory creator, asks a = some (memory, creator) ∧
    allocate s.m s.created memory creator = .failed obj

/-- What holds of a step: whom the unloader meets, and who gets a reference. -/
structure Lawful (s : State) (a : Act) : Prop where
  unloads : ∀ obj, unloads s a = some obj → obj.refcnt = 0 ∧ obj.number ∉ s.unloaded ∧
    (obj.number ∈ s.closing ∨ obj.number = s.created ∧ InitializerFails s a obj)
  handsOut : ∀ obj, handsOut s a = some obj → obj.number ∉ s.closing

/-- What holds of a state. The last line says that the assertion of `objdefr` holds. -/
structure Sound (s : State) : Prop where
  once : s.unloaded.Nodup
  waiting : ∀ obj, InTable s.m obj → obj.status = .closewait → 0 < obj.refcnt
  gone : ∀ number ∈ s.closing, (∀ hld, (number, hld) ∉ s.held) →
    ∀ obj, InTable s.m obj → obj.number ≠ number
  asserted : ∀ ref ∈ s.held, step s (.objdefr ref) ≠ none

variable {s : State} (kept : Kept s)
include kept

theorem sound_of_kept : Sound s := by
  constructor
  · exact (List.nodup_append.mp kept.once).2.1
  · intro obj stored waiting
    exact kept.positive ((inTable_iff kept.wellFormed).mp stored) waiting
  · rintro number closing free obj stored rfl
    have found := (inTable_iff kept.wellFormed).mp stored
    have positive := kept.positive found ((kept.waits found).mpr closing)
    rw [kept.counted found, List.count_eq_zero_of_not_mem (free obj.hld)] at positive
    exact absurd positive (lt_irrefl _)
  · rintro ⟨number, hld⟩ mem stuck
    obtain ⟨obj, found, rfl⟩ := kept.present number hld mem
    have counted := kept.counted found
    have some_ : 0 < s.held.count (obj.number, hld) := List.count_pos_iff.mpr mem
    have positive : 0 < obj.refcnt := by omega
    simp only [step, if_pos mem, objdefr, found, if_pos positive, Option.map_eq_none_iff] at stuck
    split at stuck <;> cases stuck

theorem unloads_allocate {memory : Bool} {creator : Option Creator} {obj : Object}
    (failed : allocate s.m s.created memory creator = .failed obj) :
    obj.refcnt = 0 ∧ obj.number ∉ s.unloaded ∧ obj.number = s.created := by
  have new : s.created ∉ s.unloaded := by
    intro mem
    exact absurd (kept.pastMade _ (List.mem_append_right _ mem)) (lt_irrefl _)
  have entering : ∀ o : Object, enter s.m o ≠ .failed obj := by
    intro o
    rw [enter]
    split <;> nofun
  cases creator with
  | none => cases failed
  | some creator =>
    rw [allocate] at failed
    split at failed
    · cases failed
    · split at failed
      · cases failed
      · dsimp only at failed
        split at failed
        · exact absurd failed (entering _)
        · split at failed
          · obtain rfl := Outcome.failed.inj failed
            exact ⟨rfl, new, rfl⟩
          · exact absurd failed (entering _)

theorem handsOut_refer {final : Bool} {hld : Int} {obj : Object}
    (got : (refer final s.m hld).bind Prod.snd = some obj) : obj.number ∉ s.closing := by
  rw [refer] at got
  cases found : objtabsrch s.m hld with
  | none => simp [found] at got
  | some o =>
    simp only [found] at got
    split at got
    · cases got
    · rename_i normal
      split at got
      · cases got
      · obtain rfl := Option.some.inj got
        intro closing
        have waiting := (kept.waits found).mpr closing
        apply normal
        rw [waiting]
        decide

theorem lawful_of_kept (a : Act) : Lawful s a := by
  constructor
  · intro obj runs
    have failing : ∀ memory creator, asks a = some (memory, creator) →
        allocate s.m s.created memory creator = .failed obj →
        obj.refcnt = 0 ∧ obj.number ∉ s.unloaded ∧
          (obj.number ∈ s.closing ∨ obj.number = s.created ∧ InitializerFails s a obj) := by
      intro memory creator call failed
      obtain ⟨zero, new, number⟩ := unloads_allocate kept failed
      exact ⟨zero, new, Or.inr ⟨number, memory, creator, call, failed⟩⟩
    cases a with
    | objallo3 memory creator =>
      simp only [unloads, objallo3] at runs
      split at runs
      · rename_i o failed
        obtain rfl := Option.some.inj runs
        exact failing memory creator rfl failed
      · cases runs
    | objallo4 memory creator out =>
      cases out with
      | false => cases runs
      | true =>
        simp only [unloads, objallo4, if_true] at runs
        split at runs
        · rename_i o failed
          obtain rfl := Option.some.inj runs
          exact failing memory creator rfl failed
        · cases runs
    | objtagfree i =>
      obtain ⟨here, -⟩ := Option.filter_eq_some_iff.mp runs
      have stored := List.mem_of_getElem? here
      obtain ⟨zero, closed⟩ := kept.removedClosed obj stored
      refine ⟨zero, fun again => ?_, Or.inl closed⟩
      have parts := (List.nodup_append.mp kept.once).2.2
      exact parts _ (List.mem_map_of_mem stored) _ again rfl
    | objrefr hld => cases runs
    | objrefr2 hld out => cases runs
    | objreff hld => cases runs
    | objdefr ref => cases runs
    | objclos hld => cases runs
  · intro obj got
    cases a with
    | objrefr hld => exact handsOut_refer kept got
    | objreff hld => exact handsOut_refer kept got
    | objrefr2 hld out =>
      obtain ⟨⟨m, given, size⟩, called, rfl⟩ := Option.bind_eq_some_iff.mp got
      rw [objrefr2] at called
      split at called
      · obtain ⟨⟨m', given'⟩, first, same⟩ := Option.map_eq_some_iff.mp called
        obtain ⟨rfl, rfl, -⟩ := same
        exact handsOut_refer kept (by rw [first]; rfl)
      · cases called
    | objallo3 memory creator => cases got
    | objallo4 memory creator out => cases got
    | objdefr ref => cases got
    | objclos hld => cases got
    | objtagfree i => cases got

end Laws

section Runs

/-- Along every run each object is unloaded once at most, after the request of a close and
with no reference left, but for an object whose initializer fails; nobody gets a reference
after the request; and an object that waits to be closed has a reference and is out of the
table when it has none. -/
theorem lawful_run (run : List Act) :
    Transition.Along step Lawful initial run ∧ Transition.Always step Sound initial run := by
  have always : Transition.Always step Kept initial run :=
    Transition.always_of_kept (fun s a t kept made => kept_step kept made) kept_initial run
  exact ⟨Transition.along_of_always (fun s a kept => lawful_of_kept kept a) always,
    Transition.always_mono (fun s kept => sound_of_kept kept) always⟩

/-- The promise without the exception. -/
def ClosedFirst (s : State) (a : Act) : Prop :=
  ∀ obj, unloads s a = some obj → obj.refcnt = 0 ∧ obj.number ∈ s.closing

/-- A creator whose initializer fails. -/
def failingCreator : Creator := ⟨invalidObjhld, 8, some (-1), true, false, 0⟩

theorem closedFirst_not_always :
    ¬ Transition.Along step ClosedFirst initial [.objallo3 true (some failingCreator)] := by
  intro along
  obtain ⟨-, closed⟩ := along.1 (failingCreator.object 0) rfl
  exact absurd closed List.not_mem_nil

end Runs

end ObjectClosing
