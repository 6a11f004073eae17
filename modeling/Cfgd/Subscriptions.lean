import Cfgd.Handlers

/-!
# The subscriptions of a link

`jnet_subscribe` and `jnet_unsubscribe` work on the list of keys in the context of a
link, under the lock of the context. Keys are compared without regard to case, and `*`
unsubscribes from everything.
-/

namespace Subscriptions

open CText Request Response Handlers

def entire : Bytes := [jaCodeEntire]

/-- The loop of `jnet_unsubscribe`: the keys that stay, and `retval`. -/
def unsubscribeLoop (dupkey : Bytes) (retval : Int) : List Bytes → List Bytes × Int
  | [] => ([], retval)
  | key :: rest =>
    if strcasecmp dupkey entire = .eq then unsubscribeLoop dupkey 0 rest
    else if strcasecmp key dupkey = .eq then unsubscribeLoop dupkey 0 rest
    else
      let (keys, retval) := unsubscribeLoop dupkey retval rest
      (key :: keys, retval)

/-- `jnet_subscribe`, on the list of a link that has a context: the list and the answer. -/
def jnetSubscribe (subcribes : Option (List Bytes)) (jrp : Jrp) :
    Option (List Bytes) × Status :=
  if jrp.valuestring ≠ none then (subcribes, .fatal)
  else match subcribes with
    | none => (none, .fatal)
    | some keys =>
      if keys.any fun key => strcasecmp key jrp.dupkey = .eq then (some keys, .fatal)
      else (some (keys ++ [jrp.dupkey]), .ok)

/-- `jnet_unsubscribe`. -/
def jnetUnsubscribe (subcribes : Option (List Bytes)) (jrp : Jrp) :
    Option (List Bytes) × Status :=
  match subcribes with
  | none => (none, .fatal)
  | some keys =>
    let (keys, retval) := unsubscribeLoop jrp.dupkey (-1) keys
    (some keys, if retval = 0 then .ok else .fatal)

/-! ## Runs -/

/-- What happened to the list of a link: a key was subscribed, or an unsubscription came. -/
inductive Event where
  | subscribed (key : Bytes)
  | unsubscribe (key : Bytes)
  deriving DecidableEq, Repr

/-- The context of a link. The history goes back to when the link was accepted; the code
does not keep it. -/
structure Context where
  subcribes : List Bytes
  history : List Event
  deriving DecidableEq, Repr

/-- The contexts of the links. -/
abbrev Server := Nat → Option Context

inductive Act where
  | accept (link : Nat)
  | close (link : Nat)
  | subscribe (link : Nat) (jrp : Jrp)
  | unsubscribe (link : Nat) (jrp : Jrp)

/-- The list of a link after a request, with what happened. -/
def record (context : Context) (after : Option (List Bytes) × Status) (event : Option Event) :
    Context :=
  ⟨after.1.getD context.subcribes, context.history ++ event.toList⟩

def step (s : Server) : Act → Server
  | .accept link => fun l => if l = link then some ⟨[], []⟩ else s l
  | .close link => fun l => if l = link then none else s l
  | .subscribe link jrp => fun l =>
    if l = link then (s l).map fun context =>
      let after := jnetSubscribe (some context.subcribes) jrp
      record context after (if after.2 = .ok then some (.subscribed jrp.dupkey) else none)
    else s l
  | .unsubscribe link jrp => fun l =>
    if l = link then (s l).map fun context =>
      record context (jnetUnsubscribe (some context.subcribes) jrp)
        (some (.unsubscribe jrp.dupkey))
    else s l

def run (acts : List Act) : Server := acts.foldl step fun _ => none

/-! ## What the list is -/

/-- An unsubscription from `*` or from the key ends a subscription. -/
def Event.ends (key : Bytes) : Event → Bool
  | .subscribed _ => false
  | .unsubscribe k => fold k = fold entire || fold key = fold k

/-- The subscribed keys that nothing ended later, in the order of their subscription. -/
def remaining : List Event → List Bytes
  | [] => []
  | .subscribed key :: later =>
    if later.any (Event.ends key) then remaining later else key :: remaining later
  | .unsubscribe _ :: later => remaining later

/-- What holds of the list of a link. -/
structure Sound (context : Context) : Prop where
  distinct : context.subcribes.Pairwise fun a b => fold a ≠ fold b
  ordered : context.subcribes = remaining context.history
  undone : ∀ jrp undo : Jrp, fold jrp.dupkey ≠ fold entire → fold undo.dupkey = fold jrp.dupkey →
    (jnetSubscribe (some context.subcribes) jrp).2 = .ok →
    (jnetUnsubscribe (jnetSubscribe (some context.subcribes) jrp).1 undo).1 =
      some context.subcribes
  emptied : ∀ jrp : Jrp, jrp.dupkey = entire →
    (jnetUnsubscribe (some context.subcribes) jrp).1 = some []
  subscribeChanges : ∀ jrp, (jnetSubscribe (some context.subcribes) jrp).2 = .ok ↔
    (jnetSubscribe (some context.subcribes) jrp).1 ≠ some context.subcribes
  unsubscribeChanges : ∀ jrp, (jnetUnsubscribe (some context.subcribes) jrp).2 = .ok ↔
    (jnetUnsubscribe (some context.subcribes) jrp).1 ≠ some context.subcribes

section Loop
variable (dupkey : Bytes)

/-- The keys that the loop takes off the list. -/
def taken (key : Bytes) : Bool := fold dupkey = fold entire || fold key = fold dupkey

theorem unsubscribeLoop_eq (retval : Int) (keys : List Bytes) :
    unsubscribeLoop dupkey retval keys =
      (keys.filter fun key => !taken dupkey key,
        if keys.any (taken dupkey) then 0 else retval) := by
  induction keys generalizing retval with
  | nil => rfl
  | cons key rest ih =>
    rw [unsubscribeLoop, List.any_cons, ih, ih]
    simp only [strcasecmp_eq_iff]
    by_cases all : fold dupkey = fold entire
    · have here : taken dupkey key = true := by rw [taken, decide_eq_true all, Bool.true_or]
      rw [if_pos all, List.filter_cons_of_neg (by rw [here]; decide), here, Bool.true_or,
        if_pos rfl, ite_self]
    · by_cases same : fold key = fold dupkey
      · have here : taken dupkey key = true := by rw [taken, decide_eq_true same, Bool.or_true]
        rw [if_neg all, if_pos same, List.filter_cons_of_neg (by rw [here]; decide), here,
          Bool.true_or, if_pos rfl, ite_self]
      · have here : taken dupkey key = false := by
          rw [taken, decide_eq_false all, decide_eq_false same]
          rfl
        rw [if_neg all, if_neg same, List.filter_cons_of_pos (by rw [here]; rfl), here,
          Bool.false_or]

theorem jnetUnsubscribe_eq (keys : List Bytes) (jrp : Jrp) :
    jnetUnsubscribe (some keys) jrp =
      (some (keys.filter fun key => !taken jrp.dupkey key),
        if keys.any (taken jrp.dupkey) then .ok else .fatal) := by
  rw [jnetUnsubscribe, unsubscribeLoop_eq]
  dsimp only
  split <;> rfl

/-- The answers of the handlers are those given here. -/
theorem handlers_jnetSubscribe (calls : Callees) (jrp : Jrp) (reply : Reply) :
    Handlers.jnetSubscribe calls jrp reply =
      answer reply (jnetSubscribe calls.subcribes jrp).2 := by
  rw [Handlers.jnetSubscribe, jnetSubscribe.eq_def]
  split
  · rfl
  · cases calls.subcribes with
    | none => rfl
    | some keys =>
      dsimp only
      split <;> rfl

theorem handlers_jnetUnsubscribe (calls : Callees) (jrp : Jrp) (reply : Reply) :
    Handlers.jnetUnsubscribe calls jrp reply =
      answer reply (jnetUnsubscribe calls.subcribes jrp).2 := by
  rw [Handlers.jnetUnsubscribe]
  cases calls.subcribes with
  | none => rfl
  | some keys =>
    have same : (fun key => decide (strcasecmp jrp.dupkey [jaCodeEntire] = .eq ∨
        strcasecmp key jrp.dupkey = .eq)) = taken jrp.dupkey := by
      funext key
      simp only [strcasecmp_eq_iff, taken, Bool.decide_or]
      rfl
    rw [jnetUnsubscribe_eq]
    dsimp only
    rw [same]
    split <;> rfl

end Loop

section Keys
variable {keys : List Bytes} {jrp : Jrp}

/-- What a subscription does: it fails and changes nothing, or the key is new. -/
theorem jnetSubscribe_cases (keys : List Bytes) (jrp : Jrp) :
    jnetSubscribe (some keys) jrp = (some keys, .fatal) ∨
      (jnetSubscribe (some keys) jrp = (some (keys ++ [jrp.dupkey]), .ok) ∧
        ∀ key ∈ keys, fold key ≠ fold jrp.dupkey) := by
  rw [jnetSubscribe]
  split
  · exact Or.inl rfl
  · split
    · exact Or.inl rfl
    · rename_i fresh
      refine Or.inr ⟨rfl, fun key mem same => fresh ?_⟩
      rw [List.any_eq_true]
      exact ⟨key, mem, decide_eq_true (strcasecmp_eq_iff.mpr same)⟩

theorem subscribe_changes (keys : List Bytes) (jrp : Jrp) :
    (jnetSubscribe (some keys) jrp).2 = .ok ↔ (jnetSubscribe (some keys) jrp).1 ≠ some keys := by
  rcases jnetSubscribe_cases keys jrp with refused | ⟨added, -⟩
  · rw [refused]
    exact iff_of_false (fun h => by cases h) fun h => h rfl
  · rw [added]
    refine iff_of_true rfl fun h => ?_
    have size := congrArg List.length (Option.some.inj h)
    rw [List.length_append, List.length_singleton] at size
    omega

theorem unsubscribe_changes (keys : List Bytes) (jrp : Jrp) :
    (jnetUnsubscribe (some keys) jrp).2 = .ok ↔
      (jnetUnsubscribe (some keys) jrp).1 ≠ some keys := by
  rw [jnetUnsubscribe_eq]
  by_cases hit : keys.any (taken jrp.dupkey) = true
  · rw [if_pos hit]
    refine iff_of_true rfl fun h => ?_
    have all := List.filter_eq_self.mp (Option.some.inj h)
    obtain ⟨key, mem, gone⟩ := List.any_eq_true.mp hit
    have stays := all key mem
    rw [gone] at stays
    cases stays
  · rw [if_neg hit]
    refine iff_of_false (fun h => by cases h) fun h => h ?_
    refine congrArg some (List.filter_eq_self.mpr fun key mem => ?_)
    rw [Bool.not_eq_true']
    exact Bool.eq_false_iff.mpr fun gone => hit (List.any_eq_true.mpr ⟨key, mem, gone⟩)

theorem unsubscribe_entire (keys : List Bytes) (all : jrp.dupkey = entire) :
    (jnetUnsubscribe (some keys) jrp).1 = some [] := by
  rw [jnetUnsubscribe_eq]
  refine congrArg some (List.filter_eq_nil_iff.mpr fun key _ => ?_)
  rw [taken, all, decide_eq_true rfl, Bool.true_or]
  decide

/-- A subscription is taken back by the unsubscription from its key. -/
theorem subscribe_undone {undo : Jrp} (single : fold jrp.dupkey ≠ fold entire)
    (same : fold undo.dupkey = fold jrp.dupkey) (ok : (jnetSubscribe (some keys) jrp).2 = .ok) :
    (jnetUnsubscribe (jnetSubscribe (some keys) jrp).1 undo).1 = some keys := by
  rcases jnetSubscribe_cases keys jrp with refused | ⟨added, fresh⟩
  · rw [refused] at ok
    cases ok
  · have only : taken undo.dupkey = fun key => decide (fold key = fold jrp.dupkey) := by
      funext key
      rw [taken, same, decide_eq_false single, Bool.false_or]
    rw [added, jnetUnsubscribe_eq, only, List.filter_append]
    have rest : keys.filter (fun key => !decide (fold key = fold jrp.dupkey)) = keys := by
      refine List.filter_eq_self.mpr fun key mem => ?_
      rw [decide_eq_false (fresh key mem)]
      rfl
    have last : [jrp.dupkey].filter (fun key => !decide (fold key = fold jrp.dupkey)) = [] := by
      rw [List.filter_cons_of_neg (by rw [decide_eq_true rfl]; decide), List.filter_nil]
    rw [rest, last, List.append_nil]

end Keys

section History

theorem remaining_subscribed (history : List Event) (key : Bytes) :
    remaining (history ++ [.subscribed key]) = remaining history ++ [key] := by
  induction history with
  | nil => rfl
  | cons event later ih =>
    cases event with
    | subscribed k =>
      rw [List.cons_append, remaining, remaining, List.any_append, ih]
      have silent : [Event.subscribed key].any (Event.ends k) = false := rfl
      rw [silent, Bool.or_false]
      split <;> rfl
    | unsubscribe k => exact ih

theorem remaining_unsubscribe (history : List Event) (key : Bytes) :
    remaining (history ++ [.unsubscribe key]) =
      (remaining history).filter fun k => !taken key k := by
  induction history with
  | nil => rfl
  | cons event later ih =>
    cases event with
    | subscribed k =>
      rw [List.cons_append, remaining, remaining, List.any_append, ih]
      have last : [Event.unsubscribe key].any (Event.ends k) = taken key k := Bool.or_false _
      rw [last]
      by_cases ended : later.any (Event.ends k) = true
      · rw [ended, Bool.true_or, if_pos rfl, if_pos rfl]
      · rw [Bool.eq_false_iff.mpr ended, Bool.false_or]
        cases gone : taken key k with
        | true =>
          rw [if_pos rfl, if_neg (by decide), List.filter_cons_of_neg (by rw [gone]; decide)]
        | false =>
          rw [if_neg (by decide), if_neg (by decide), List.filter_cons_of_pos (by rw [gone]; rfl)]
    | unsubscribe k => exact ih

/-- What a step keeps of a list. -/
structure Kept (context : Context) : Prop where
  distinct : context.subcribes.Pairwise fun a b => fold a ≠ fold b
  ordered : context.subcribes = remaining context.history

theorem kept_subscribe {context : Context} (kept : Kept context) (jrp : Jrp) :
    Kept (record context (jnetSubscribe (some context.subcribes) jrp)
      (if (jnetSubscribe (some context.subcribes) jrp).2 = .ok
        then some (.subscribed jrp.dupkey) else none)) := by
  rcases jnetSubscribe_cases context.subcribes jrp with refused | ⟨added, fresh⟩
  · rw [refused, if_neg (fun h => by cases h), record, Option.toList_none, List.append_nil]
    exact kept
  · rw [added, if_pos rfl, record]
    constructor
    · refine List.pairwise_append.mpr ⟨kept.distinct, List.pairwise_singleton _ _, ?_⟩
      intro key mem other last
      rw [List.mem_singleton.mp last]
      exact fresh key mem
    · exact (congrArg (· ++ [jrp.dupkey]) kept.ordered).trans (remaining_subscribed _ _).symm

theorem kept_unsubscribe {context : Context} (kept : Kept context) (jrp : Jrp) :
    Kept (record context (jnetUnsubscribe (some context.subcribes) jrp)
      (some (.unsubscribe jrp.dupkey))) := by
  rw [jnetUnsubscribe_eq, record]
  constructor
  · exact kept.distinct.filter _
  · refine Eq.trans ?_ (remaining_unsubscribe _ _).symm
    exact congrArg (List.filter _) kept.ordered

/-- One step keeps the lists of all links. -/
theorem kept_step {s : Server} (kept : ∀ link context, s link = some context → Kept context)
    (act : Act) : ∀ link context, step s act link = some context → Kept context := by
  intro link context found
  cases act with
  | accept l =>
    dsimp only [step] at found
    split at found
    · obtain rfl := Option.some.inj found
      exact ⟨List.Pairwise.nil, rfl⟩
    · exact kept link context found
  | close l =>
    dsimp only [step] at found
    split at found
    · cases found
    · exact kept link context found
  | subscribe l jrp =>
    dsimp only [step] at found
    split at found
    · obtain ⟨before, here, rfl⟩ := Option.map_eq_some_iff.mp found
      exact kept_subscribe (kept link before here) jrp
    · exact kept link context found
  | unsubscribe l jrp =>
    dsimp only [step] at found
    split at found
    · obtain ⟨before, here, rfl⟩ := Option.map_eq_some_iff.mp found
      exact kept_unsubscribe (kept link before here) jrp
    · exact kept link context found

theorem kept_run (acts : List Act) :
    ∀ link context, run acts link = some context → Kept context := by
  have start : ∀ s : Server, (∀ link context, s link = some context → Kept context) →
      ∀ link context, acts.foldl step s link = some context → Kept context := by
    induction acts with
    | nil => exact fun s kept => kept
    | cons act rest ih => exact fun s kept => ih (step s act) (kept_step kept act)
  exact start (fun _ => none) fun _ _ found => by cases found

end History

/-- After any sequence of requests on any links, the list of each link is sound. -/
theorem subscriptions_sound (acts : List Act) (link : Nat) :
    ∀ context ∈ run acts link, Sound context := by
  intro context found
  obtain ⟨distinct, ordered⟩ := kept_run acts link context found
  constructor
  · exact distinct
  · exact ordered
  · exact fun jrp undo single same ok => subscribe_undone single same ok
  · exact fun jrp all => unsubscribe_entire _ all
  · exact subscribe_changes _
  · exact unsubscribe_changes _

def plainKey (key : List Char) : Jrp := ⟨[], none, ofChars key, []⟩

/-- Two links, a key in two cases, and `*` as a key. -/
def twoLinks : List Act :=
  [.accept 1, .accept 2, .subscribe 1 (plainKey ['a', '.', 'b']), .subscribe 2 (plainKey ['c']),
    .subscribe 1 (plainKey ['*']), .subscribe 1 (plainKey ['A', '.', 'B']),
    .unsubscribe 2 (plainKey ['*']), .subscribe 1 (plainKey ['c'])]

theorem subscriptions_sound_twoLinks :
    ∃ context, run twoLinks 1 = some context ∧
      context.subcribes = [ofChars ['a', '.', 'b'], ofChars ['*'], ofChars ['c']] ∧
      Sound context :=
  ⟨_, rfl, rfl, subscriptions_sound twoLinks 1 _ rfl⟩

end Subscriptions
