import Cfgd.DictRuns

/-!
# How full the tables get

Each call that may add an entry first moves a bucket. So the entries of the old table are
moved before the new one is full, and there are never more entries than buckets in the table
that new entries go to.
-/

namespace DictLoad

open Buckets DictTable DictSound DictCalls DictRuns Transition

variable {κ υ : Type} {t : DictType κ υ} {d d' : Dict κ υ} {n r : Nat}

section Progress
variable [DecidableEq κ]

/-- The buckets of the old table that are still to be moved. -/
def left (d : Dict κ υ) : Nat :=
  match d.rehashidx with
  | none => 0
  | some r => dicthtSize d.ht0.sizeExp - r

/-- While entries are left in the old table, `rehashidx` is inside of it. -/
theorem rehashidx_lt (sound : Sound t d) (rehashing : d.rehashidx = some r)
    (used : d.ht0.used ≠ 0) : r < dicthtSize d.ht0.sizeExp := by
  obtain ⟨k, x, rest, filled⟩ := exists_filled fun none =>
    used (sound.first.used.trans (by rw [none]; rfl))
  have inside := (List.getElem?_eq_some_iff.mp filled).1
  rw [sound.first.size] at inside
  by_contra behind
  have empty := (sound.moving r rehashing).2.2 k (by omega)
  rw [filled] at empty
  cases empty

/-- The calls of `dictRehash` with these numbers of steps. -/
def rehashes (t : DictType κ υ) : List Nat → Dict κ υ → Option (Dict κ υ)
  | [], d => some d
  | n :: rest, d => (dictRehash t d n).bind fun (d, _) => rehashes t rest d

theorem left_advanced (sound : Sound t d') (advanced : Advanced n d d') :
    d'.rehashidx = none ∨ left d' + n ≤ left d := by
  rcases advanced with ⟨idle, rfl⟩ | ⟨r, r', rehashing, rehashing', further, used, size, _⟩ |
    ⟨r, _, idle, _⟩
  · exact Or.inl idle
  · have inside := rehashidx_lt sound rehashing' used
    refine Or.inr ?_
    rw [left, left, rehashing, rehashing']
    dsimp only
    rw [← size]
    omega
  · exact Or.inl idle

theorem rehashes_spec (lawful : Lawful t) (ns : List Nat) (sound : Sound t d) :
    ∃ d', rehashes t ns d = some d' ∧ Kept t d d' ∧
      (ns ≠ [] → d'.rehashidx = none ∨ 0 < left d' ∧ left d' + ns.sum ≤ left d) ∧
      (d.rehashidx = none → d'.rehashidx = none) := by
  induction ns generalizing d with
  | nil => exact ⟨d, rfl, Kept.refl sound, fun any => absurd rfl any, id⟩
  | cons n rest ih =>
    obtain ⟨d₁, done, kept, advanced⟩ := dictRehash_spec lawful sound n
    obtain ⟨d', later, kept', further, stays⟩ := ih kept.sound
    refine ⟨d', by rw [rehashes, done]; exact later, kept.trans kept', fun _ => ?_, fun idle => ?_⟩
    · rcases left_advanced kept.sound advanced with idle | less
      · exact Or.inl (stays idle)
      by_cases last : rest = []
      · subst last
        obtain rfl : d₁ = d' := Option.some.inj later
        by_cases idle : d₁.rehashidx = none
        · exact Or.inl idle
        obtain ⟨r, rehashing⟩ := Option.ne_none_iff_exists'.mp idle
        refine Or.inr ⟨?_, by simpa using less⟩
        rcases advanced with ⟨none, rfl⟩ | ⟨_, r', _, rehashing', _, used, _⟩ | ⟨_, _, none, _⟩
        · exact absurd none idle
        · have inside := rehashidx_lt kept.sound rehashing' used
          rw [left, rehashing']
          exact Nat.sub_pos_of_lt inside
        · exact absurd none idle
      · rcases further last with idle | ⟨positive, more⟩
        · exact Or.inl idle
        · refine Or.inr ⟨positive, ?_⟩
          rw [List.sum_cons]
          omega
    · rcases advanced with ⟨_, rfl⟩ | ⟨r, _, rehashing, _⟩ | ⟨r, rehashing, _⟩
      · exact stays idle
      · rw [idle] at rehashing
        cases rehashing
      · rw [idle] at rehashing
        cases rehashing

/-- In every state of every run, as many steps as there are buckets left bring the rehashing
to its end, in whatever calls they are made, and no entry is lost. -/
theorem rehash_ends (lawful : Lawful t) {acts : List (Act κ υ)}
    (legal : Along (next t) Legal created acts) :
    Always (next t) (fun s => ∀ ns : List Nat, ns ≠ [] → (∀ n ∈ ns, n * 10 < 2 ^ 31) →
      left s.dict ≤ ns.sum → ∃ d', rehashes t ns s.dict = some d' ∧ d'.rehashidx = none ∧
        (entries d').Perm (entries s.dict)) created acts := by
  refine always_mono (fun s ⟨m, sim⟩ ns any _ enough => ?_) (simulates_always lawful legal)
  obtain ⟨d', done, kept, further, _⟩ := rehashes_spec lawful ns sim.sound
  refine ⟨d', done, ?_, kept.perm⟩
  rcases further any with idle | ⟨positive, less⟩
  · exact idle
  · omega

end Progress

section Load

/-- No more entries than buckets: in the one table, or in the new one with what may still
come in while the old one is moved. -/
inductive Loaded : (slack : Nat) → Dict κ υ → Prop where
  | idle {slack : Nat} {d : Dict κ υ} (idle : d.rehashidx = none)
      (fits : dictSize d + slack ≤ dicthtSize d.ht0.sizeExp) : Loaded slack d
  | moving {slack r : Nat} {d : Dict κ υ} (rehashing : d.rehashidx = some r)
      (inside : r < dicthtSize d.ht0.sizeExp)
      (fits : dictSize d + slack + (dicthtSize d.ht0.sizeExp - r) ≤
        dicthtSize d.ht1.sizeExp + 1) : Loaded slack d

theorem Loaded.target (h : Loaded 0 d) : dictSize d ≤ dicthtSize (target d).sizeExp := by
  cases h with
  | idle idle fits => rwa [show DictCalls.target d = d.ht0 from if_pos idle]
  | moving rehashing inside fits =>
    rw [show DictCalls.target d = d.ht1 from if_neg (by rw [rehashing]; simp)]
    omega

theorem loaded_congr {slack : Nat} (h : Loaded slack d) (rehashidx : d'.rehashidx = d.rehashidx)
    (size0 : d'.ht0.sizeExp = d.ht0.sizeExp) (size1 : d'.ht1.sizeExp = d.ht1.sizeExp)
    {slack' : Nat} (fewer : dictSize d' + slack' ≤ dictSize d + slack) : Loaded slack' d' := by
  cases h with
  | idle idle fits => exact .idle (rehashidx.trans idle) (by rw [size0]; omega)
  | moving rehashing inside fits =>
    exact .moving (rehashidx.trans rehashing) (by rwa [size0]) (by rw [size0, size1]; omega)

variable [DecidableEq κ]

/-- What is moved makes room. -/
theorem loaded_advanced (sound : Sound t d) (kept : Kept t d d') (advanced : Advanced n d d')
    (h : Loaded 0 d) : Loaded 0 d' ∧ (∀ r, d'.rehashidx = some r → 0 < n → Loaded 1 d') := by
  have count := kept.size sound
  rcases advanced with ⟨idle, rfl⟩ | ⟨r, r', rehashing, rehashing', further, used, size0, size1⟩ |
    ⟨r, rehashing, idle, size⟩
  · refine ⟨h, fun r rehashing => ?_⟩
    rw [idle] at rehashing
    cases rehashing
  · have inside := rehashidx_lt kept.sound rehashing' used
    cases h with
    | idle idle _ =>
      rw [idle] at rehashing
      cases rehashing
    | moving rehashing₁ inside₁ fits =>
      obtain rfl := Option.some.inj (rehashing.symm.trans rehashing₁)
      rw [size0] at inside
      exact ⟨.moving rehashing' (by rwa [size0]) (by rw [size0, size1]; omega),
        fun _ _ _ => .moving rehashing' (by rwa [size0]) (by rw [size0, size1]; omega)⟩
  · cases h with
    | idle idle _ =>
      rw [idle] at rehashing
      cases rehashing
    | moving rehashing₁ inside₁ fits =>
      refine ⟨.idle idle (by rw [size]; omega), fun r' busy => ?_⟩
      rw [idle] at busy
      cases busy

theorem loaded_stepped (lawful : Lawful t) (sound : Sound t d) (running : d.pauserehash = 0)
    (stepped : stepIfRehashing t d = some d') (h : Loaded 0 d) :
    Loaded 0 d' ∧ ∀ r, d'.rehashidx = some r → Loaded 1 d' := by
  obtain ⟨d₁, done, kept, advanced, _⟩ := stepIfRehashing_spec lawful sound
  obtain rfl := Option.some.inj (stepped.symm.trans done)
  obtain ⟨all, busy⟩ := loaded_advanced sound kept (advanced running) h
  exact ⟨all, fun r rehashing => busy r rehashing Nat.one_pos⟩

/-- What `_dictExpandIfNeeded` leaves has room for another entry. -/
theorem loaded_provided (sound : Sound t d) (free : t.expandAllowed = none) (h : Loaded 0 d)
    (busy : ∀ r, d.rehashidx = some r → Loaded 1 d) (provided : Provided t true d d') :
    Loaded 1 d' := by
  have used : d.rehashidx = none → dictSize d = d.ht0.used := by
    intro idle
    rw [dictSize, sound.second.used, buckets_eq_nil sound.second (sound.idle idle)]
    rfl
  cases provided with
  | moving moving =>
    obtain ⟨r, rehashing⟩ := Option.ne_none_iff_exists'.mp moving
    exact busy r rehashing
  | roomy idle size kept =>
    refine .idle idle ?_
    simp [dictTypeExpandAllowed, free] at kept
    rw [used idle, size]
    exact kept
  | first empty grown =>
    obtain ⟨_, idle, size⟩ | ⟨memory, _⟩ := grown.made
    · have none : dictSize d' = 0 := by
        rw [grown.kept.size sound, used grown.idle, sound.first.used,
          buckets_eq_nil sound.first empty]
        rfl
      refine .idle idle ?_
      rw [none, size]
      decide
    · exact absurd empty memory
  | @grown e _ size full grown =>
    obtain ⟨null, _⟩ | ⟨_, rehashing, same, size'⟩ := grown.made
    · rw [size] at null
      cases null
    · cases h with
      | moving rehashing' _ _ =>
        rw [grown.idle] at rehashing'
        cases rehashing'
      | idle idle fits =>
        have count := used idle
        rw [size, dicthtSize] at fits
        have covers := grown.covers
        have more : e < dictNextExp (d.ht0.used + 1) :=
          (Nat.pow_lt_pow_iff_right (a := 2) (by decide)).mp (by omega)
        have double : 2 ^ (e + 1) ≤ 2 ^ dictNextExp (d.ht0.used + 1) :=
          Nat.pow_le_pow_right (by decide) more
        have positive : 0 < 2 ^ e := Nat.two_pow_pos e
        refine .moving rehashing ?_ ?_
        · rw [same, size]
          exact positive
        · rw [grown.kept.size sound, same, size, size', dicthtSize, dicthtSize]
          omega

/-- A table for more entries than the one that is there has buckets. -/
theorem loaded_grown {size : Nat} (sound : Sound t d) (h : Loaded 0 d)
    (more : dicthtSize d.ht0.sizeExp < size) (grown : Grown t size d d') : Loaded 0 d' := by
  have count := grown.kept.size sound
  cases h with
  | moving rehashing _ _ =>
    have idle := grown.idle
    rw [rehashing] at idle
    cases idle
  | idle idle fits =>
    rcases grown.made with ⟨null, idle', size'⟩ | ⟨memory, rehashing, same, size'⟩
    · rw [null, dicthtSize] at fits
      exact .idle idle' (by omega)
    · obtain ⟨e, size₀⟩ := Option.ne_none_iff_exists'.mp memory
      rw [size₀, dicthtSize] at more fits
      have covers := grown.covers
      have further : e < dictNextExp size :=
        (Nat.pow_lt_pow_iff_right (a := 2) (by decide)).mp (by omega)
      have double : 2 ^ (e + 1) ≤ 2 ^ dictNextExp size :=
        Nat.pow_le_pow_right (by decide) further
      refine .moving rehashing ?_ ?_
      · rw [same, size₀]
        exact Nat.two_pow_pos e
      · rw [same, size₀, size', dicthtSize, dicthtSize]
        omega

theorem loaded_expandTable (lawful : Lawful t) (sound : Sound t d) {size : Nat} (h : Loaded 0 d)
    (more : dicthtSize d.ht0.sizeExp < size) (heap : Bool) :
    Loaded 0 (expandTable d size heap).1 := by
  rcases expandTable_spec lawful sound size heap with ⟨same, _⟩ | ⟨_, grown⟩
  · rwa [same]
  · exact loaded_grown sound h more grown

theorem loaded_rehashRounds (lawful : Lawful t) (rounds : Nat) (sound : Sound t d)
    (done : rehashRounds t rounds d = some d') (h : Loaded 0 d) : Loaded 0 d' := by
  induction rounds generalizing d with
  | zero =>
    obtain ⟨d₁, rehashed, kept, advanced⟩ := dictRehash_spec lawful sound 100
    rw [rehashRounds, rehashed] at done
    obtain rfl := Option.some.inj done
    exact (loaded_advanced sound kept advanced h).1
  | succ rounds ih =>
    obtain ⟨d₁, rehashed, kept, advanced⟩ := dictRehash_spec lawful sound 100
    have next := (loaded_advanced sound kept advanced h).1
    rw [rehashRounds, rehashed] at done
    split at done
    · cases done
    · rename_i same
      obtain ⟨rfl, _⟩ := Prod.mk.inj (Option.some.inj same)
      obtain rfl := Option.some.inj done
      exact next
    · rename_i same
      obtain ⟨rfl, _⟩ := Prod.mk.inj (Option.some.inj same)
      exact ih kept.sound done next

end Load

section Runs
variable [DecidableEq κ]
variable {m : Map κ υ} {s s' : State κ υ} {act : Act κ υ}

/-- The calls that do not keep the table from growing, nor shrink it. -/
def Light (s : State κ υ) : Act κ υ → Prop
  | .resize | .disableResize | .pauseRehashing | .resumeRehashing => False
  | .expand size => dicthtSize s.dict.ht0.sizeExp < size
  | .tryExpand size _ => dicthtSize s.dict.ht0.sizeExp < size
  | _ => True

/-- A dictionary that is moved as it is used, with no more entries than buckets. -/
structure Running (s : State κ υ) : Prop where
  resizes : s.canResize = true
  running : s.dict.pauserehash = 0
  loaded : Loaded 0 s.dict

theorem loaded_pushed {he : DictEntry κ υ} (sound : Sound t d) (pushed : Pushed t d he d')
    (h : Loaded 1 d) : Loaded 0 d' := by
  refine loaded_congr h pushed.rehashidx pushed.size0 pushed.size1 ?_
  rw [dictSize_eq pushed.sound, pushed.perm.length_eq, List.length_cons, ← dictSize_eq sound]

omit [DecidableEq κ] in
theorem loaded_dictSetVal (h : Loaded 0 d) (addr : Nat) (val : υ) :
    Loaded 0 (dictSetVal t d addr val) := by
  cases h with
  | idle idle fits => exact .idle idle fits
  | moving rehashing inside fits => exact .moving rehashing inside fits

omit [DecidableEq κ] in
theorem Loaded.less {slack : Nat} (h : Loaded slack d) : Loaded 0 d :=
  loaded_congr h rfl rfl rfl (Nat.add_le_add_left (Nat.zero_le slack) _)

/-- `dictAddRaw` in a dictionary that is moved as it is used. -/
theorem running_dictAddRaw (lawful : Lawful t) (free : t.expandAllowed = none) (sound : Sound t d)
    (running : d.pauserehash = 0) (h : Loaded 0 d) {key : κ} {block : Block υ}
    (room : dictSize d < 2 ^ 60) (fresh : block.addr ∉ (entries d).map DictEntry.addr) :
    ∃ d' added, dictAddRaw t true d key block = some (d', added) ∧ Sound t d' ∧
      d'.pauserehash = 0 ∧ Loaded 0 d' := by
  cases there : entryOf t d key with
  | some he =>
    obtain ⟨d₁, d', stepped, _, provided, added, kept⟩ :=
      dictAddRaw_existing lawful sound room true there block
    obtain ⟨d₁', stepped', kept₁, _⟩ := stepIfRehashing_spec lawful sound
    obtain rfl := Option.some.inj (stepped.symm.trans stepped')
    obtain ⟨all, busy⟩ := loaded_stepped lawful sound running stepped h
    exact ⟨d', _, added, kept.sound, kept.pause.trans running,
      (loaded_provided kept₁.sound free all busy provided).less⟩
  | none =>
    obtain ⟨d₁, d₂, d', stepped, _, kept, provided, pushed, added⟩ :=
      dictAddRaw_new lawful sound room true there fresh
    obtain ⟨d₁', stepped', kept₁, _⟩ := stepIfRehashing_spec lawful sound
    obtain rfl := Option.some.inj (stepped.symm.trans stepped')
    obtain ⟨all, busy⟩ := loaded_stepped lawful sound running stepped h
    exact ⟨d', _, added, pushed.sound, pushed.pause.trans (kept.pause.trans running),
      loaded_pushed kept.sound pushed (loaded_provided kept₁.sound free all busy provided)⟩

theorem running_dropped (sound : Sound t d) (running : d.pauserehash = 0)
    {he : Option (DictEntry κ υ)} (dropped : Dropped t d he d') (h : Loaded 0 d) :
    d'.pauserehash = 0 ∧ Loaded 0 d' := by
  refine ⟨dropped.pause.trans running,
    loaded_congr h dropped.rehashidx dropped.size0 dropped.size1 ?_⟩
  rw [dictSize_eq dropped.sound, dictSize_eq sound, dropped.perm.length_eq, List.length_append]
  omega

theorem running_deleted (lawful : Lawful t) (sound : Sound t d) (running : d.pauserehash = 0)
    (h : Loaded 0 d) {key : κ} {he : Option (DictEntry κ υ)}
    (done : dictGenericDelete t d key = some (d', he)) : d'.pauserehash = 0 ∧ Loaded 0 d' := by
  obtain ⟨d₁, d₂, deleted, kept, dropped, first⟩ := dictGenericDelete_spec lawful sound key
  obtain ⟨rfl, _⟩ := Prod.mk.inj (Option.some.inj (done.symm.trans deleted))
  refine running_dropped kept.sound (kept.pause.trans running) dropped ?_
  rcases first with ⟨_, rfl⟩ | stepped
  · exact h
  · exact (loaded_stepped lawful sound running stepped h).1

theorem running_step (lawful : Lawful t) (free : t.expandAllowed = none) (sim : Simulates t s m)
    (h : Running s) (legal : Legal s act) (light : Light s act) (done : next t s act = some s') :
    Running s' := by
  obtain ⟨resizes, running, loaded⟩ := h
  have sound := sim.sound
  rw [next, Option.map_eq_some_iff] at done
  obtain ⟨⟨s'', answer⟩, stepped, rfl⟩ := done
  have adds : ∀ {key : κ} {block : Block υ}, block.addr ∉ held s ∧ dictSize s.dict < 2 ^ 60 →
      ∃ d' added, dictAddRaw t s.canResize s.dict key block = some (d', added) ∧ Sound t d' ∧
        d'.pauserehash = 0 ∧ Loaded 0 d' := by
    rintro key block ⟨fresh, room⟩
    rw [resizes]
    exact running_dictAddRaw lawful free sound running loaded room (fresh_entries fresh)
  cases act with
  | find key =>
    obtain ⟨d', found, kept, first⟩ := dictFind_spec lawful sound key
    rw [step, found] at stepped
    obtain ⟨rfl, _⟩ := Prod.mk.inj (Option.some.inj stepped)
    refine ⟨resizes, kept.pause.trans running, ?_⟩
    rcases first with ⟨_, rfl⟩ | stepped'
    · exact loaded
    · exact (loaded_stepped lawful sound running stepped' loaded).1
  | add key val block =>
    obtain ⟨d', added, raw, sound', running', loaded'⟩ := adds legal
    rw [step, dictAdd, Option.bind_eq_bind, raw] at stepped
    cases added <;> obtain ⟨rfl, _⟩ := Prod.mk.inj (Option.some.inj stepped)
    · exact ⟨resizes, running', loaded_dictSetVal loaded' _ _⟩
    · exact ⟨resizes, running', loaded'⟩
    · exact ⟨resizes, running', loaded'⟩
  | addOrFind key block =>
    obtain ⟨d', added, raw, sound', running', loaded'⟩ := adds legal
    rw [step, dictAddOrFind, Option.bind_eq_bind, raw] at stepped
    cases added <;> obtain ⟨rfl, _⟩ := Prod.mk.inj (Option.some.inj stepped)
    · exact ⟨resizes, running', loaded'⟩
    · exact ⟨resizes, running', loaded'⟩
    · exact ⟨resizes, running', loaded'⟩
  | replace key val block =>
    obtain ⟨d', added, raw, sound', running', loaded'⟩ := adds legal
    rw [step, dictReplace, Option.bind_eq_bind, raw] at stepped
    cases added
    · obtain ⟨rfl, _⟩ := Prod.mk.inj (Option.some.inj stepped)
      exact ⟨resizes, running', loaded_dictSetVal loaded' _ _⟩
    · obtain ⟨rfl, _⟩ := Prod.mk.inj (Option.some.inj stepped)
      exact ⟨resizes, running', loaded_dictSetVal loaded' _ _⟩
    · cases stepped
  | delete key =>
    rw [step, Option.map_eq_some_iff] at stepped
    obtain ⟨⟨d', he⟩, deleted, same⟩ := stepped
    obtain ⟨rfl, _⟩ := Prod.mk.inj same
    obtain ⟨running', loaded'⟩ := running_deleted lawful sound running loaded deleted
    exact ⟨resizes, running', loaded'⟩
  | unlink key =>
    rw [step, Option.map_eq_some_iff] at stepped
    obtain ⟨⟨d', he⟩, deleted, same⟩ := stepped
    obtain ⟨rfl, _⟩ := Prod.mk.inj same
    obtain ⟨running', loaded'⟩ := running_deleted lawful sound running loaded deleted
    exact ⟨resizes, running', loaded'⟩
  | freeUnlinkedEntry addr =>
    rw [step, Option.map_eq_some_iff] at stepped
    obtain ⟨he, _, same⟩ := stepped
    obtain ⟨rfl, _⟩ := Prod.mk.inj same
    exact ⟨resizes, running, loaded⟩
  | size =>
    obtain ⟨rfl, _⟩ := Prod.mk.inj (Option.some.inj stepped)
    exact ⟨resizes, running, loaded⟩
  | rehash n =>
    obtain ⟨d', rehashed, kept, advanced⟩ := dictRehash_spec lawful sound n
    rw [step, rehashed] at stepped
    obtain ⟨rfl, _⟩ := Prod.mk.inj (Option.some.inj stepped)
    exact ⟨resizes, kept.pause.trans running, (loaded_advanced sound kept advanced loaded).1⟩
  | rehashMilliseconds rounds =>
    obtain ⟨d', rehashed, kept⟩ := kept_dictRehashMilliseconds lawful rounds sound
    rw [step, rehashed] at stepped
    obtain ⟨rfl, _⟩ := Prod.mk.inj (Option.some.inj stepped)
    rw [dictRehashMilliseconds, if_neg (by rw [running]; decide)] at rehashed
    exact ⟨resizes, kept.pause.trans running,
      loaded_rehashRounds lawful rounds sound rehashed loaded⟩
  | expand size =>
    obtain ⟨rfl, _⟩ := Prod.mk.inj (Option.some.inj stepped)
    exact ⟨resizes, (kept_expandTable lawful sound size true).pause.trans running,
      loaded_expandTable lawful sound loaded light true⟩
  | tryExpand size heap =>
    obtain ⟨rfl, _⟩ := Prod.mk.inj (Option.some.inj stepped)
    exact ⟨resizes, (kept_expandTable lawful sound size heap).pause.trans running,
      loaded_expandTable lawful sound loaded light heap⟩
  | empty =>
    obtain ⟨rfl, _⟩ := Prod.mk.inj (Option.some.inj stepped)
    exact ⟨resizes, rfl, .idle rfl (Nat.le_refl 0)⟩
  | enableResize =>
    obtain ⟨rfl, _⟩ := Prod.mk.inj (Option.some.inj stepped)
    exact ⟨rfl, running, loaded⟩
  | resize => cases light
  | disableResize => cases light
  | pauseRehashing => cases light
  | resumeRehashing => cases light

/-- Where growing is allowed and rehashing is not paused, there are never more entries than
buckets in the table that new entries go to. -/
theorem load_always (lawful : Lawful t) (free : t.expandAllowed = none) {acts : List (Act κ υ)}
    (along : Along (next t) (fun s act => Legal s act ∧ Light s act) created acts) :
    Always (next t) (fun s => dictSize s.dict ≤ dicthtSize (target s.dict).sizeExp)
      created acts := by
  have each : ∀ s act s', ((∃ m, Simulates t s m) ∧ Running s) → Legal s act ∧ Light s act →
      next t s act = some s' → (∃ m, Simulates t s' m) ∧ Running s' := by
    rintro s act s' ⟨⟨m, sim⟩, running⟩ ⟨legal, light⟩ done
    exact ⟨simulates_next lawful ⟨m, sim⟩ legal done,
      running_step lawful free sim running legal light done⟩
  exact always_mono (fun s h => h.2.loaded.target) (always_of_along each
    ⟨⟨_, simulates_created⟩, rfl, rfl, .idle rfl (Nat.le_refl 0)⟩ along)

end Runs

section Numbers

instance (s : State κ υ) (act : Act κ υ) : Decidable (Light s act) :=
  match act with
  | .resize | .disableResize | .pauseRehashing | .resumeRehashing =>
    inferInstanceAs (Decidable False)
  | .expand size => inferInstanceAs (Decidable (dicthtSize s.dict.ht0.sizeExp < size))
  | .tryExpand size _ => inferInstanceAs (Decidable (dicthtSize s.dict.ht0.sizeExp < size))
  | .find _ | .add _ _ _ | .addOrFind _ _ | .replace _ _ _ | .delete _ | .unlink _
  | .freeUnlinkedEntry _ | .size | .rehash _ | .rehashMilliseconds _ | .empty
  | .enableResize => inferInstanceAs (Decidable True)

theorem load_always_numberRun : Always (next numberType)
    (fun s => dictSize s.dict ≤ dicthtSize (target s.dict).sizeExp) created numberRun :=
  load_always lawful_number rfl (by decide +kernel)

theorem rehash_ends_numberRun : Always (next numberType) (fun s => ∀ ns : List Nat, ns ≠ [] →
    (∀ n ∈ ns, n * 10 < 2 ^ 31) → left s.dict ≤ ns.sum →
      ∃ d', rehashes numberType ns s.dict = some d' ∧ d'.rehashidx = none ∧
        (entries d').Perm (entries s.dict)) created numberRun :=
  rehash_ends lawful_number numberRun_legal

end Numbers

end DictLoad
