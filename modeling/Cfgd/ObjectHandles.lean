import Cfgd.ObjectClosing

/-!
# Handles of live objects

A handle that an allocation returned leads to its object until a close is requested, and
no two live objects have the same one, exactly as long as the counter never arrives at a
handle that a creator chose and that is still in use.
-/

namespace ObjectHandles

open ObjectTable ObjectCalls ObjectClosing

/-- Not yet asked to close, or still in the table. -/
def Live (s : State) (number : Nat) : Prop :=
  number ∉ s.closing ∨ ∃ obj, InTable s.m obj ∧ obj.number = number

/-- A reference through the handle yields the body of the object, unless its count is at
the end of its type. -/
def Yields (s : State) (hld : Int) (number : Nat) : Prop :=
  ∃ obj, objtabsrch s.m hld = some obj ∧ obj.number = number ∧
    (intMax ≤ obj.refcnt ∨ ∃ m, objrefr s.m hld = some (m, some obj))

structure Unique (s : State) : Prop where
  apart : ∀ number hld number' hld', (number, hld) ∈ s.granted → (number', hld') ∈ s.granted →
    Live s number → Live s number' → number ≠ number' → hld ≠ hld'
  yields : ∀ number hld, (number, hld) ∈ s.granted → number ∉ s.closing → Yields s hld number

/-- The creator gets as far as the table, and asks for a number. -/
structure Draws (memory : Bool) (creator : Creator) : Prop where
  fit : ¬ creator.unfit
  memory : memory = true
  initialized : ∀ retval, creator.initializer = some retval → 0 ≤ retval
  automatic : creator.known = 0 ∨ creator.known = invalidObjhld

/-- An allocation draws the number of an object that is in the table. -/
def Collides (s : State) (a : Act) : Prop :=
  (∃ memory creator, asks a = some (memory, some creator) ∧ Draws memory creator) ∧
  ∃ obj, InTable s.m obj ∧ obj.hld = s.m.atoid + 1

/-- What the table says about the handles that were returned. -/
structure Tabled (s : State) : Prop where
  kept : Kept s
  made : ∀ number hld, (number, hld) ∈ s.granted → number < s.created
  own : ∀ number hld, (number, hld) ∈ s.granted → ∀ k obj, objtabsrch s.m k = some obj →
    obj.number = number → k = hld

/-- The handle of an object that is not asked to close leads to it. -/
def Reaches (s : State) : Prop :=
  ∀ number hld, (number, hld) ∈ s.granted → number ∉ s.closing →
    ∃ obj, objtabsrch s.m hld = some obj ∧ obj.number = number

theorem unique_iff {s : State} (tabled : Tabled s) : Unique s ↔ Reaches s := by
  constructor
  · intro unique number hld granted open_
    obtain ⟨obj, found, same, -⟩ := unique.yields number hld granted open_
    exact ⟨obj, found, same⟩
  · intro reaches
    have place : ∀ number hld, (number, hld) ∈ s.granted → Live s number →
        ∃ obj, objtabsrch s.m hld = some obj ∧ obj.number = number := by
      rintro number hld granted (open_ | ⟨obj, stored, rfl⟩)
      · exact reaches number hld granted open_
      · have found := (inTable_iff tabled.kept.wellFormed).mp stored
        exact ⟨obj, by rwa [← tabled.own _ _ granted _ obj found rfl], rfl⟩
    constructor
    · rintro number hld number' hld' granted granted' live live' other rfl
      obtain ⟨obj, found, rfl⟩ := place number hld granted live
      obtain ⟨obj', found', rfl⟩ := place number' hld granted' live'
      obtain rfl := Option.some.inj (found.symm.trans found')
      exact other rfl
    · intro number hld granted open_
      obtain ⟨obj, found, rfl⟩ := reaches number hld granted open_
      refine ⟨obj, found, rfl, ?_⟩
      have normal : obj.status = .normal := by
        cases status : obj.status with
        | normal => rfl
        | closewait => exact absurd ((tabled.kept.waits found).mp status) open_
      by_cases full : intMax ≤ obj.refcnt
      · exact Or.inl full
      · refine Or.inr ⟨objwrite s.m hld (takeRef false), ?_⟩
        simp only [objrefr, refer, found, normal, ne_eq, not_true_eq_false, if_false, if_neg full]

theorem known_object (creator : Creator) (number : Nat) :
    (creator.object number).hld = invalidObjhld ↔
      creator.known = 0 ∨ creator.known = invalidObjhld := by
  rw [Creator.object]
  dsimp only
  split
  · simp [*]
  · simp [*]

section Steps
variable {s t : State} (tabled : Tabled s)
include tabled

/-- One entry of the table changes: the object under it stays the same, or is asked to
close. -/
theorem tabled_put {hld : Int} {obj : Object} {entry : Option Object}
    (put : Put s.m t.m hld entry) (found : objtabsrch s.m hld = some obj)
    (same : ∀ obj', entry = some obj' → obj'.number = obj.number)
    (closed : entry = none → obj.number ∈ t.closing) (granted : t.granted = s.granted)
    (created : t.created = s.created) (more : ∀ n ∈ s.closing, n ∈ t.closing)
    (keptT : Kept t) : Tabled t ∧ (Reaches s → Reaches t) := by
  refine ⟨⟨keptT, ?_, ?_⟩, ?_⟩
  · rw [granted, created]
    exact tabled.made
  · rw [granted]
    intro number k given k' o got number_
    rw [put.search] at got
    split at got
    · rename_i here
      rw [here]
      exact tabled.own number k given hld obj found ((same o got).symm.trans number_)
    · exact tabled.own number k given k' o got number_
  · intro reaches number k given open_
    rw [granted] at given
    obtain ⟨o, got, rfl⟩ := reaches number k given fun mem => open_ (more _ mem)
    rw [put.search]
    split
    · rename_i here
      rw [here, found] at got
      obtain rfl := Option.some.inj got
      cases value : entry with
      | none => exact absurd (closed value) open_
      | some obj' => exact ⟨obj', rfl, same obj' value⟩
    · exact ⟨o, got, rfl⟩

theorem tabled_change (change : Change s t) : Tabled t ∧ (Reaches s → Reaches t) := by
  have keptT := kept_change tabled.kept change
  cases change with
  | idle => exact ⟨tabled, id⟩
  | freed here => exact ⟨⟨keptT, tabled.made, tabled.own⟩, id⟩
  | taken final found normal put =>
    refine tabled_put tabled put found ?_ nofun rfl rfl ?_ keptT
    · rintro _ ⟨⟩
      rfl
    · intro n mem
      dsimp only
      split
      · exact List.mem_cons_of_mem _ mem
      · exact mem
  | dropped found mem put used =>
    refine tabled_put tabled put found ?_ nofun rfl rfl (fun _ mem => mem) keptT
    rintro _ ⟨⟩
    rfl
  | droppedLast found mem put last waiting =>
    have closing := (tabled.kept.waits found).mp waiting
    exact tabled_put tabled put found nofun (fun _ => closing) rfl rfl (fun _ mem => mem) keptT
  | marked found put busy =>
    refine tabled_put tabled put found ?_ nofun rfl rfl
      (fun _ mem => List.mem_cons_of_mem _ mem) keptT
    rintro _ ⟨⟩
    rfl
  | closed found put idle =>
    exact tabled_put tabled put found nofun (fun _ => List.mem_cons_self) rfl rfl
      (fun _ mem => List.mem_cons_of_mem _ mem) keptT

/-- An allocation keeps every handle leading to its object, unless it draws a number that
is taken: then the new object is not in the table. -/
theorem tabled_enter {obj : Object} (number : obj.number = s.created) (refcnt : obj.refcnt = 0)
    (normal : obj.status = .normal) (entered : s.allocated (enter s.m obj) = some t) :
    Tabled t ∧ (Reaches s → (Reaches t ↔ ¬ (obj.hld = invalidObjhld ∧
      ∃ old, InTable s.m old ∧ old.hld = s.m.atoid + 1))) := by
  have keptT := kept_enter tabled.kept number refcnt normal entered
  have searched : (∃ old, InTable s.m old ∧ old.hld = s.m.atoid + 1) ↔
      ∃ old, objtabsrch s.m (s.m.atoid + 1) = some old := by
    constructor
    · rintro ⟨old, stored, key⟩
      exact ⟨old, key ▸ (inTable_iff tabled.kept.wellFormed).mp stored⟩
    · rintro ⟨old, found⟩
      exact ⟨old, (objtabsrch_hld found).2, (objtabsrch_hld found).1⟩
  rw [searched]
  rw [enter] at entered
  split at entered
  · cases entered
  have outcome := entered_objtabinst tabled.kept.wellFormed obj
  dsimp only [State.allocated] at entered
  obtain rfl := Option.some.inj entered
  generalize (objtabinst s.m obj).1 = status, (objtabinst s.m obj).2.1 = m',
    (objtabinst s.m obj).2.2 = obj' at outcome keptT
  cases outcome with
  | rejected error _ same known =>
    rw [if_pos error] at keptT ⊢
    refine ⟨⟨keptT, fun n k given => Nat.lt_succ_of_lt (tabled.made n k given), ?_⟩, ?_⟩
    · intro n k given k' o got
      exact tabled.own n k given k' o ((same k').symm.trans got)
    · intro reaches
      refine ⟨fun _ => ?_, fun _ n k given open_ => ?_⟩
      · rintro ⟨automatic, old, found⟩
        rw [known automatic] at found
        cases found
      · obtain ⟨o, got, own⟩ := reaches n k given open_
        exact ⟨o, (same k).trans got, own⟩
  | @placed m' hld free put known =>
    rw [if_neg (by decide)] at keptT ⊢
    refine ⟨⟨keptT, ?_, ?_⟩, ?_⟩
    · intro n k given
      rcases List.mem_cons.mp given with new | before
      · obtain ⟨rfl, rfl⟩ := Prod.mk.inj new
        exact number ▸ Nat.lt_succ_self _
      · exact Nat.lt_succ_of_lt (tabled.made n k before)
    · intro n k given k' o got own
      rw [put.search] at got
      rcases List.mem_cons.mp given with new | before
      · obtain ⟨rfl, rfl⟩ := Prod.mk.inj new
        split at got
        · assumption
        · have made := tabled.kept.made got
          dsimp only at own
          omega
      · have made := tabled.made n k before
        split at got
        · obtain rfl := Option.some.inj got
          dsimp only at own
          omega
        · exact tabled.own n k before k' o got own
    · intro reaches
      refine ⟨fun _ => ?_, fun _ n k given open_ => ?_⟩
      · rintro ⟨automatic, old, found⟩
        rw [← known automatic, free] at found
        cases found
      · rcases List.mem_cons.mp given with new | before
        · obtain ⟨rfl, rfl⟩ := Prod.mk.inj new
          exact ⟨_, by rw [put.search, if_pos rfl], rfl⟩
        · obtain ⟨o, got, own⟩ := reaches n k before open_
          refine ⟨o, ?_, own⟩
          rw [put.search, if_neg, got]
          rintro rfl
          rw [free] at got
          cases got
  | @lost m' old drawn taken _ same =>
    rw [if_neg (by decide)] at keptT ⊢
    refine ⟨⟨keptT, ?_, ?_⟩, fun _ => ⟨fun reaches => ?_, fun avoided => ?_⟩⟩
    · intro n k given
      rcases List.mem_cons.mp given with new | before
      · obtain ⟨rfl, rfl⟩ := Prod.mk.inj new
        exact number ▸ Nat.lt_succ_self _
      · exact Nat.lt_succ_of_lt (tabled.made n k before)
    · intro n k given k' o got own
      rw [same] at got
      have made := tabled.kept.made got
      rcases List.mem_cons.mp given with new | before
      · obtain ⟨rfl, rfl⟩ := Prod.mk.inj new
        dsimp only at own
        omega
      · exact tabled.own n k before k' o got own
    · -- the new object was to be found under the number, where the old one is
      have new : obj.number ∉ s.closing := by
        intro closing
        have made := tabled.kept.closingMade _ closing
        omega
      obtain ⟨o, got, own⟩ := reaches obj.number (s.m.atoid + 1) List.mem_cons_self new
      have made := tabled.kept.made ((same _).symm.trans got)
      omega
    · exact absurd ⟨drawn, old, taken⟩ avoided

theorem tabled_step {a : Act} (made : step s a = some t) :
    Tabled t ∧ (Reaches s → (Reaches t ↔ ¬ Collides s a)) := by
  rcases step_cases tabled.kept made with ⟨memory, creator, asked, allocated⟩ | ⟨asked, change⟩
  · have only : ∀ memory' creator', asks a = some (memory', some creator') →
        memory' = memory ∧ some creator' = creator := by
      intro memory' creator' asked'
      exact Prod.mk.inj (Option.some.inj (asked'.symm.trans asked))
    have keeps : ∀ {t}, s = t → (∀ c, creator = some c → ¬ Draws memory c) →
        Tabled t ∧ (Reaches s → (Reaches t ↔ ¬ Collides s a)) := by
      rintro t rfl undrawn
      refine ⟨tabled, fun reaches => ⟨fun _ => ?_, fun _ => reaches⟩⟩
      rintro ⟨⟨memory', creator', asked', draws⟩, _⟩
      obtain ⟨rfl, same⟩ := only memory' creator' asked'
      exact undrawn creator' same.symm draws
    cases creator with
    | none => exact keeps (Option.some.inj allocated) nofun
    | some creator =>
      rw [allocate] at allocated
      have drawn : ∀ memory' creator', asks a = some (memory', some creator') →
          memory' = memory ∧ creator' = creator := by
        intro memory' creator' asked'
        obtain ⟨first, second⟩ := only memory' creator' asked'
        exact ⟨first, Option.some.inj second⟩
      split at allocated
      · rename_i unfit
        exact keeps (Option.some.inj allocated) fun c same draws =>
          draws.fit (Option.some.inj same ▸ unfit)
      · rename_i fit
        split at allocated
        · rename_i nomem
          exact keeps (Option.some.inj allocated) fun c _ draws => nomem draws.memory
        · rename_i hasMemory
          have entering : (∀ retval, creator.initializer = some retval → 0 ≤ retval) →
              s.allocated (enter s.m (creator.object s.created)) = some t →
              Tabled t ∧ (Reaches s → (Reaches t ↔ ¬ Collides s a)) := by
            intro initialized entered
            obtain ⟨tabledT, exactly⟩ := tabled_enter tabled rfl rfl rfl entered
            refine ⟨tabledT, fun reaches => (exactly reaches).trans (not_congr ?_)⟩
            rw [known_object]
            constructor
            · rintro ⟨automatic, taken⟩
              exact ⟨⟨memory, creator, asked, fit, not_not.mp hasMemory, initialized, automatic⟩,
                taken⟩
            · rintro ⟨⟨memory', creator', asked', draws⟩, taken⟩
              obtain ⟨rfl, rfl⟩ := drawn memory' creator' asked'
              exact ⟨draws.automatic, taken⟩
          dsimp only at allocated
          split at allocated
          · rename_i none_
            exact entering (fun retval some_ => by rw [none_] at some_; cases some_) allocated
          · rename_i retval returned
            split at allocated
            · rename_i negative
              rw [State.allocated] at allocated
              split at allocated
              · obtain rfl := Option.some.inj allocated
                refine ⟨⟨kept_failed tabled.kept,
                  fun n k given => Nat.lt_succ_of_lt (tabled.made n k given), tabled.own⟩,
                  fun reaches => ⟨fun _ => ?_, fun _ => reaches⟩⟩
                rintro ⟨⟨memory', creator', asked', draws⟩, _⟩
                obtain ⟨rfl, rfl⟩ := drawn memory' creator' asked'
                have nonneg := draws.initialized retval returned
                omega
              · cases allocated
            · rename_i nonneg
              refine entering (fun value some_ => ?_) allocated
              obtain rfl := Option.some.inj (some_.symm.trans returned)
              omega
  · obtain ⟨tabledT, kept⟩ := tabled_change tabled change
    refine ⟨tabledT, fun reaches => ⟨fun _ => ?_, fun _ => kept reaches⟩⟩
    rintro ⟨⟨memory, creator, asked', _⟩, _⟩
    rw [asked] at asked'
    cases asked'

end Steps

section Runs

theorem tabled_initial : Tabled initial :=
  ⟨kept_initial, fun _ _ given => absurd given List.not_mem_nil,
    fun _ _ given => absurd given List.not_mem_nil⟩

theorem reaches_initial : Reaches initial := fun _ _ given => absurd given List.not_mem_nil

/-- Along a run the handles of live objects stay apart and lead to their objects exactly as
long as no allocation draws a number that is in use. -/
theorem unique_iff_not_collides {run : List Act} {t : State}
    (ran : Transition.run step initial run = some t) :
    Transition.Always step Unique initial run ↔
      Transition.Along step (fun s a => ¬ Collides s a) initial run := by
  have always : Transition.Always step Tabled initial run :=
    Transition.always_of_kept (fun s a t tabled made => (tabled_step tabled made).1)
      tabled_initial run
  rw [Transition.always_congr (fun s tabled => unique_iff tabled) always]
  exact Transition.always_iff_along_within
    (fun s a t tabled made => (tabled_step tabled made).1)
    (fun s a t tabled reaches made => (tabled_step tabled made).2 reaches)
    tabled_initial reaches_initial ran

/-- An allocation with a handle of the creator's choice, or with an automatic one. -/
def plainAllocation (known : Int) : Act := .objallo3 true (some ⟨known, 8, none, false, false, 0⟩)

theorem unique_iff_not_collides_closed :
    Transition.Always step Unique initial [plainAllocation 0, .objclos 1, plainAllocation 0] ↔
      Transition.Along step (fun s a => ¬ Collides s a) initial
        [plainAllocation 0, .objclos 1, plainAllocation 0] :=
  unique_iff_not_collides rfl

/-- A creator takes the handle 1, and the counter arrives there. -/
theorem unique_not_always :
    ¬ Transition.Always step Unique initial [plainAllocation 1, plainAllocation 0] := by
  intro always
  have unique := Transition.always_end always rfl
  obtain ⟨obj, found, number, -⟩ := unique.yields 1 1 (by decide) (by decide)
  have first : some obj = some ⟨0, 1, .normal, 0, 8, false⟩ := found.symm.trans rfl
  obtain rfl := Option.some.inj first
  cases number

end Runs

end ObjectHandles
