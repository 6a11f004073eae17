import Mathlib.Data.List.Basic

/-!
# Partial machines and what holds along their runs

A machine is a partial step function: `step s a = none` when the action `a` is
not enabled in `s`. A run is a list of actions. `Along` asks something of every
step of a run, `Always` of every state of it. The rules below are the only
inductions over runs that the protocol modules use.
-/

namespace Transition

universe u v
variable {State : Type u} {Act : Type v}

/-- The state after a whole run, if every action of it was enabled in turn. -/
def run (step : State → Act → Option State) : State → List Act → Option State
  | s, [] => some s
  | s, a :: rest => match step s a with
    | none => none
    | some t => run step t rest

/-- Every step of the run meets `ok` in the state where it is taken. -/
def Along (step : State → Act → Option State) (ok : State → Act → Prop) :
    State → List Act → Prop
  | _, [] => True
  | s, a :: rest => ok s a ∧ ∀ t, step s a = some t → Along step ok t rest

/-- Every state of the run, the first and the last included, satisfies `good`. -/
def Always (step : State → Act → Option State) (good : State → Prop) :
    State → List Act → Prop
  | s, [] => good s
  | s, a :: rest => good s ∧ ∀ t, step s a = some t → Always step good t rest

variable {step : State → Act → Option State}

theorem run_cons {s u : State} {a : Act} {rest : List Act}
    (h : run step s (a :: rest) = some u) :
    ∃ t, step s a = some t ∧ run step t rest = some u := by
  rw [run] at h
  cases hs : step s a with
  | none => rw [hs] at h; cases h
  | some t => exact ⟨t, rfl, by simpa only [hs] using h⟩

theorem run_append {s t u : State} {acts more : List Act} (first : run step s acts = some t)
    (last : run step t more = some u) : run step s (acts ++ more) = some u := by
  induction acts generalizing s with
  | nil =>
    obtain rfl := Option.some.inj first
    exact last
  | cons a rest ih =>
    obtain ⟨v, next, later⟩ := run_cons first
    rw [List.cons_append, run, next]
    exact ih later

theorem along_cons {ok : State → Act → Prop} {s t : State} {a : Act} {rest : List Act}
    (here : ok s a) (next : step s a = some t) (later : Along step ok t rest) :
    Along step ok s (a :: rest) := by
  refine ⟨here, fun u hu => ?_⟩
  obtain rfl := Option.some.inj (next.symm.trans hu)
  exact later

theorem along_of_forall {ok : Act → Prop} {acts : List Act} (all : ∀ a ∈ acts, ok a) (s : State) :
    Along step (fun _ a => ok a) s acts := by
  induction acts generalizing s with
  | nil => trivial
  | cons a rest ih =>
    obtain ⟨here, later⟩ := List.forall_mem_cons.1 all
    exact ⟨here, fun t _ => ih later t⟩

theorem along_mono {ok ok' : State → Act → Prop} (weaker : ∀ s a, ok s a → ok' s a)
    {s : State} {acts : List Act} (h : Along step ok s acts) : Along step ok' s acts := by
  induction acts generalizing s with
  | nil => trivial
  | cons a rest ih => exact ⟨weaker s a h.1, fun t ht => ih (h.2 t ht)⟩

theorem along_and {ok ok' : State → Act → Prop} {s : State} {acts : List Act}
    (h : Along step ok s acts) (h' : Along step ok' s acts) :
    Along step (fun s a => ok s a ∧ ok' s a) s acts := by
  induction acts generalizing s with
  | nil => trivial
  | cons a rest ih => exact ⟨⟨h.1, h'.1⟩, fun t ht => ih (h.2 t ht) (h'.2 t ht)⟩

theorem always_of_along {ok : State → Act → Prop} {inv : State → Prop}
    (preserved : ∀ s a t, inv s → ok s a → step s a = some t → inv t)
    {s : State} {acts : List Act} (start : inv s) (along : Along step ok s acts) :
    Always step inv s acts := by
  induction acts generalizing s with
  | nil => exact start
  | cons a rest ih =>
    exact ⟨start, fun t ht => ih (preserved s a t start along.1 ht) (along.2 t ht)⟩

/-- What every step keeps holds in every state of a run. -/
theorem always_of_kept {inv : State → Prop}
    (keeps : ∀ s a t, inv s → step s a = some t → inv t) {s : State} (start : inv s)
    (acts : List Act) : Always step inv s acts := by
  induction acts generalizing s with
  | nil => exact start
  | cons a rest ih => exact ⟨start, fun t ht => ih (keeps s a t start ht)⟩

theorem always_mono {good good' : State → Prop} (weaker : ∀ s, good s → good' s)
    {s : State} {acts : List Act} (h : Always step good s acts) :
    Always step good' s acts := by
  induction acts generalizing s with
  | nil => exact weaker s h
  | cons a rest ih => exact ⟨weaker s h.1, fun t ht => ih (h.2 t ht)⟩

theorem always_start {good : State → Prop} {s : State} {acts : List Act}
    (h : Always step good s acts) : good s := by
  cases acts with
  | nil => exact h
  | cons a rest => exact h.1

theorem always_end {good : State → Prop} {s t : State} {acts : List Act}
    (h : Always step good s acts) (ends : run step s acts = some t) : good t := by
  induction acts generalizing s with
  | nil => exact Option.some.inj ends ▸ h
  | cons a rest ih =>
    obtain ⟨u, hu, hrest⟩ := run_cons ends
    exact ih (h.2 u hu) hrest

/-- What every step can only make more of is in every state less than at the end. -/
theorem always_before {rel : State → State → Prop} (refl : ∀ s, rel s s)
    (trans : ∀ {s t u}, rel s t → rel t u → rel s u)
    (grows : ∀ s a t, step s a = some t → rel s t) {s t : State} {acts : List Act}
    (ends : run step s acts = some t) : rel s t ∧ Always step (fun u => rel u t) s acts := by
  induction acts generalizing s with
  | nil =>
    obtain rfl : s = t := Option.some.inj ends
    exact ⟨refl s, refl s⟩
  | cons a rest ih =>
    obtain ⟨u, hu, hrest⟩ := run_cons ends
    obtain ⟨later, always⟩ := ih hrest
    have here := trans (grows s a u hu) later
    refine ⟨here, here, fun v hv => ?_⟩
    obtain rfl := Option.some.inj (hu.symm.trans hv)
    exact always

instance decidableAlong (ok : State → Act → Prop) [∀ s a, Decidable (ok s a)] :
    ∀ (s : State) (acts : List Act), Decidable (Along step ok s acts)
  | _, [] => .isTrue trivial
  | s, a :: rest =>
    match hs : step s a with
    | none => decidable_of_iff (ok s a)
        ⟨fun h => ⟨h, fun _ ht => nomatch hs.symm.trans ht⟩, fun h => h.1⟩
    | some t =>
      have := decidableAlong ok t rest
      decidable_of_iff (ok s a ∧ Along step ok t rest)
        ⟨fun h => ⟨h.1, fun _ hu => Option.some.inj (hs.symm.trans hu) ▸ h.2⟩,
          fun h => ⟨h.1, h.2 t hs⟩⟩

/-- On a concrete run a decidable state property can be checked by evaluation. -/
instance decidableAlways (good : State → Prop) [DecidablePred good] :
    ∀ (s : State) (acts : List Act), Decidable (Always step good s acts)
  | s, [] => inferInstanceAs (Decidable (good s))
  | s, a :: rest =>
    match hs : step s a with
    | none => decidable_of_iff (good s)
        ⟨fun h => ⟨h, fun _ ht => nomatch hs.symm.trans ht⟩, fun h => h.1⟩
    | some t =>
      have := decidableAlways good t rest
      decidable_of_iff (good s ∧ Always step good t rest)
        ⟨fun h => ⟨h.1, fun _ hu => Option.some.inj (hs.symm.trans hu) ▸ h.2⟩,
          fun h => ⟨h.1, h.2 t hs⟩⟩

/-- What a state property gives for the step taken there holds along the run. -/
theorem along_of_always {ok : State → Act → Prop} {good : State → Prop}
    (gives : ∀ s a, good s → ok s a) {s : State} {acts : List Act}
    (h : Always step good s acts) : Along step ok s acts := by
  induction acts generalizing s with
  | nil => trivial
  | cons a rest ih => exact ⟨gives s a h.1, fun t ht => ih (h.2 t ht)⟩

/-- Two properties that agree in every state of the run. -/
theorem always_congr {within good good' : State → Prop}
    (same : ∀ s, within s → (good s ↔ good' s)) {s : State} {acts : List Act}
    (h : Always step within s acts) : Always step good s acts ↔ Always step good' s acts := by
  induction acts generalizing s with
  | nil => exact same s h
  | cons a rest ih =>
    have tail := fun t ht => ih (h.2 t ht)
    exact ⟨fun all => ⟨(same s h.1).mp all.1, fun t ht => (tail t ht).mp (all.2 t ht)⟩,
      fun all => ⟨(same s h.1).mpr all.1, fun t ht => (tail t ht).mpr (all.2 t ht)⟩⟩

/-- A step condition that is exact for one step is exact for whole runs. -/
theorem always_iff_along {ok : State → Act → Prop} {good : State → Prop}
    (exact_step : ∀ s a t, good s → step s a = some t → (good t ↔ ok s a))
    {s t : State} {acts : List Act} (start : good s)
    (h : run step s acts = some t) : Always step good s acts ↔ Along step ok s acts := by
  induction acts generalizing s with
  | nil => exact ⟨fun _ => trivial, fun _ => start⟩
  | cons a rest ih =>
    obtain ⟨u, hu, hrest⟩ := run_cons h
    have only : ∀ v, step s a = some v → v = u := by
      intro v hv
      exact Option.some.inj (hv.symm.trans hu)
    constructor
    · intro always
      have gu := always_start (always.2 u hu)
      refine ⟨(exact_step s a u start hu).mp gu, fun v hv => ?_⟩
      rw [only v hv]
      exact (ih gu hrest).mp (always.2 u hu)
    · intro hok
      have gu := (exact_step s a u start hu).mpr hok.1
      refine ⟨start, fun v hv => ?_⟩
      rw [only v hv]
      exact (ih gu hrest).mpr (hok.2 u hu)

/-- A step condition that is exact for one step where `inv` holds is exact for whole
runs that begin there. -/
theorem always_iff_along_within {ok : State → Act → Prop} {inv good : State → Prop}
    (keeps : ∀ s a t, inv s → step s a = some t → inv t)
    (exact_step : ∀ s a t, inv s → good s → step s a = some t → (good t ↔ ok s a))
    {s t : State} {acts : List Act} (begin : inv s) (start : good s)
    (h : run step s acts = some t) : Always step good s acts ↔ Along step ok s acts := by
  have always := always_of_kept keeps begin acts
  have both : Always step good s acts ↔ Always step (fun s => inv s ∧ good s) s acts :=
    always_congr (fun s within => (and_iff_right within).symm) always
  rw [both]
  refine always_iff_along ?_ ⟨begin, start⟩ h
  intro s a t hs hst
  rw [and_iff_right (keeps s a t hs.1 hst)]
  exact exact_step s a t hs.1 hs.2 hst

/-- Damage that no step repairs: the last state is good exactly when no step of
the run did the damage. -/
theorem good_iff_along {ok : State → Act → Prop} (good inv : State → Prop)
    (keeps : ∀ s a t, inv s → step s a = some t → inv t)
    (preserved : ∀ s a t, inv s → good s → step s a = some t → (good t ↔ ok s a))
    (damaged : ∀ s a t, inv s → ¬ good s → step s a = some t → ¬ good t)
    {s t : State} {acts : List Act} (begin : inv s) (start : good s)
    (h : run step s acts = some t) : good t ↔ Along step ok s acts := by
  have stays : ∀ (acts : List Act) (s : State), inv s → ¬ good s →
      run step s acts = some t → ¬ good t := by
    intro acts
    induction acts with
    | nil => intro s _ hbad h; exact Option.some.inj h ▸ hbad
    | cons a rest ih =>
      intro s hs hbad h
      obtain ⟨u, hu, hrest⟩ := run_cons h
      exact ih u (keeps s a u hs hu) (damaged s a u hs hbad hu) hrest
  induction acts generalizing s with
  | nil => exact ⟨fun _ => trivial, fun _ => Option.some.inj h ▸ start⟩
  | cons a rest ih =>
    obtain ⟨u, hu, hrest⟩ := run_cons h
    by_cases gu : good u
    · have here := (preserved s a u begin start hu).mp gu
      refine (ih (keeps s a u begin hu) gu hrest).trans
        ⟨fun later => ⟨here, fun v hv => ?_⟩, fun all => all.2 u hu⟩
      exact Option.some.inj (hu.symm.trans hv) ▸ later
    · constructor
      · intro gt
        exact absurd gt (stays rest u (keeps s a u begin hu) gu hrest)
      · intro all
        exact absurd ((preserved s a u begin start hu).mpr all.1) gu

section Answers

universe u' w
variable {State' : Type u'} {Ans : Type w}

/-- The end of a run of a machine that answers every action, and its answers. -/
def answers (respond : State → Act → State × Ans) : State → List Act → State × List Ans
  | s, [] => (s, [])
  | s, a :: rest =>
    ((answers respond (respond s a).1 rest).1,
      (respond s a).2 :: (answers respond (respond s a).1 rest).2)

/-- A machine that goes along with another, action by action, gives the same answers. -/
theorem answers_of_simulates {respond : State → Act → State × Ans}
    {respond' : State' → Act → State' × Ans} {rel : State → State' → Prop}
    (simulates : ∀ s s' a, rel s s' →
      rel (respond s a).1 (respond' s' a).1 ∧ (respond s a).2 = (respond' s' a).2)
    {s : State} {s' : State'} (start : rel s s') (acts : List Act) :
    rel (answers respond s acts).1 (answers respond' s' acts).1 ∧
      (answers respond s acts).2 = (answers respond' s' acts).2 := by
  induction acts generalizing s s' with
  | nil => exact ⟨start, rfl⟩
  | cons a rest ih =>
    obtain ⟨next, same⟩ := simulates s s' a start
    obtain ⟨last, later⟩ := ih next
    exact ⟨last, by rw [answers, answers, same, later]⟩

end Answers

end Transition
