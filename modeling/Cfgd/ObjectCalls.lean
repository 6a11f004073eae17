import Mathlib.Algebra.Group.Int.Defs
import Mathlib.Algebra.Group.Nat.Defs
import Cfgd.ObjectTable
import Cfgd.Transition

/-!
# Calls of the object manager

The calls of `object.c`, from any number of threads. A step is a locked section; the
unloader of an object that was taken out of the table runs in a step of its own. Where an
`int` or a `long` would overflow there is no step, since the code has no result there.
-/

namespace ObjectCalls

open ObjectTable

def intMax : Int := 2 ^ 31 - 1
def longMax : Int := 2 ^ 63 - 1
def einval : Int := 22
def enomem : Int := 12
def nspStatusFatal : Int := -1

section Allocation

/-- `struct objcreator`. `initializer` is what the routine returns, where there is one. -/
structure Creator where
  known : Int
  size : Nat
  initializer : Option Int
  unloader : Bool
  context : Bool
  ctxsize : Nat
  deriving DecidableEq, Repr

/-- The ends of an allocation: the check of the creator, the memory, an initializer that
fails, an overflow of the counter, and `_objtabinst`. -/
inductive Outcome where
  | refused
  | nomem
  | failed (obj : Object)
  | overflow
  | entered (status : Int) (m : ObjectManager) (obj : Object)

def Creator.unfit (creator : Creator) : Prop :=
  0 = creator.size ∨ (creator.context ∧ creator.ctxsize = 0) ∨
    (¬ creator.context ∧ creator.ctxsize ≠ 0)

instance (creator : Creator) : Decidable creator.unfit := inferInstanceAs (Decidable (_ ∨ _))

/-- A zero handle counts as none. -/
def Creator.object (creator : Creator) (number : Nat) : Object :=
  ⟨number, if creator.known = 0 then invalidObjhld else creator.known, .normal, 0, creator.size,
    creator.unloader⟩

def enter (m : ObjectManager) (obj : Object) : Outcome :=
  if obj.hld = invalidObjhld ∧ longMax ≤ m.atoid then .overflow
  else
    let (status, m, obj) := objtabinst m obj
    .entered status m obj

/-- What `objallo3` and `objallo4` have in common. -/
def allocate (m : ObjectManager) (number : Nat) (memory : Bool) : Option Creator → Outcome
  | none => .refused
  | some creator =>
    if creator.unfit then .refused
    else if ¬ memory then .nomem
    else
      let obj := creator.object number
      match creator.initializer with
      | none => enter m obj
      | some retval => if retval < 0 then .failed obj else enter m obj

/-- The handle that `objallo3` returns. -/
def Outcome.handle : Outcome → Int
  | .entered status _ obj => if status < 0 then invalidObjhld else obj.hld
  | _ => invalidObjhld

/-- The status that `objallo4` returns, and `*out`. -/
def Outcome.statusAndOut : Outcome → Int × Option Int
  | .refused => (-einval, none)
  | .nomem => (-enomem, none)
  | .failed _ => (nspStatusFatal, none)
  | .overflow => (nspStatusFatal, none)
  | .entered status _ obj => if status < 0 then (status, none) else (status, some obj.hld)

def objallo3 (m : ObjectManager) (number : Nat) (memory : Bool) (creator : Option Creator) :
    Outcome × Int :=
  let outcome := allocate m number memory creator
  (outcome, outcome.handle)

def objallo4 (m : ObjectManager) (number : Nat) (memory : Bool) (creator : Option Creator)
    (out : Bool) : Outcome × Int × Option Int :=
  let outcome := if out then allocate m number memory creator else .refused
  (outcome, outcome.statusAndOut)

def objallo (m : ObjectManager) (number : Nat) (memory : Bool) (size : Nat)
    (initializer : Option Int) (unloader context : Bool) (ctxsize : Nat) : Outcome × Int :=
  objallo3 m number memory (some ⟨invalidObjhld, size, initializer, unloader, context, ctxsize⟩)

def objallo2 (m : ObjectManager) (number : Nat) (memory : Bool) (size : Nat) : Outcome × Int :=
  objallo m number memory size none false false 0

end Allocation

section References

/-- `++obj->refcnt`, and the change of the status in `objreff`. -/
def takeRef (final : Bool) (obj : Object) : Object :=
  { obj with refcnt := obj.refcnt + 1, status := if final then .closewait else obj.status }

/-- What `objrefr` and `objreff` have in common: the object whose body is handed out. -/
def refer (final : Bool) (m : ObjectManager) (hld : Int) : Option (ObjectManager × Option Object) :=
  match objtabsrch m hld with
  | none => some (m, none)
  | some obj =>
    if obj.status ≠ .normal then some (m, none)
    else if intMax ≤ obj.refcnt then none
    else some (objwrite m hld (takeRef final), some obj)

def objrefr (m : ObjectManager) (hld : Int) : Option (ObjectManager × Option Object) :=
  refer false m hld

/-- The size is `(unsigned int)-1` where nothing is handed out. -/
def objrefr2 (m : ObjectManager) (hld : Int) (out : Bool) :
    Option (ObjectManager × Option Object × Nat) :=
  if out then
    (refer false m hld).map fun (m, got) => (m, got, (got.map Object.size).getD (2 ^ 32 - 1))
  else some (m, none, 2 ^ 32 - 1)

def objreff (m : ObjectManager) (hld : Int) : Option (ObjectManager × Option Object) :=
  refer true m hld

def dropRef (obj : Object) : Object := { obj with refcnt := obj.refcnt - 1 }

/-- The object that was removed, if it was the last reference. The assertion fails where
there is no reference. -/
def objdefr (m : ObjectManager) (hld : Int) : Option (ObjectManager × Option Object) :=
  match objtabsrch m hld with
  | none => some (m, none)
  | some obj =>
    if 0 < obj.refcnt then
      let m := objwrite m hld dropRef
      if (dropRef obj).refcnt = 0 ∧ obj.status = .closewait then some (objtabrmve m obj.hld)
      else some (m, none)
    else none

def markClose (obj : Object) : Object := { obj with status := .closewait }

def objclos (m : ObjectManager) (hld : Int) : ObjectManager × Option Object :=
  match objtabsrch m hld with
  | none => (m, none)
  | some obj =>
    if obj.refcnt = 0 ∧ obj.status = .normal then objtabrmve m obj.hld
    else (objwrite m hld markClose, none)

end References

section Machine

/-- A reference that was handed out: the object and the handle. -/
abbrev Ref := Nat × Int

/-- `removed` are the objects in the hands of the threads that took them out of the table.
The rest is history: how many objects were made, the handles that were returned, the
references not yet released, the objects for which a close was requested, and those whose
unloader has run. -/
structure State where
  m : ObjectManager
  removed : List Object
  created : Nat
  granted : List Ref
  held : List Ref
  closing : List Nat
  unloaded : List Nat

def initial : State := ⟨⟨fun _ => .nil, 0⟩, [], 0, [], [], [], []⟩

/-- A locked section, or the end of a removal. `objdefr` releases a reference. -/
inductive Act where
  | objallo3 (memory : Bool) (creator : Option Creator)
  | objallo4 (memory : Bool) (creator : Option Creator) (out : Bool)
  | objrefr (hld : Int)
  | objrefr2 (hld : Int) (out : Bool)
  | objreff (hld : Int)
  | objdefr (ref : Ref)
  | objclos (hld : Int)
  | objtagfree (i : Nat)

/-- An initializer that fails has the unloader called; without one the call goes wrong. -/
def State.allocated (s : State) : Outcome → Option State
  | .refused => some s
  | .nomem => some s
  | .overflow => none
  | .failed obj =>
    if obj.unloader then
      some { s with created := s.created + 1, unloaded := obj.number :: s.unloaded }
    else none
  | .entered status m obj =>
    some { s with
      m := m
      created := s.created + 1
      granted := if status < 0 then s.granted else (obj.number, obj.hld) :: s.granted }

def State.referred (s : State) (hld : Int) (m : ObjectManager) : Option Object → State
  | none => { s with m := m }
  | some obj => { s with m := m, held := (obj.number, hld) :: s.held }

def State.taken (s : State) (m : ObjectManager) (removed : Option Object) : State :=
  { s with m := m, removed := removed.toList ++ s.removed }

/-- History: a close is requested of the object with the handle. -/
def State.requested (s : State) (hld : Int) : State :=
  { s with closing := ((objtabsrch s.m hld).map Object.number).toList ++ s.closing }

def step (s : State) : Act → Option State
  | .objallo3 memory creator => s.allocated (objallo3 s.m s.created memory creator).1
  | .objallo4 memory creator out => s.allocated (objallo4 s.m s.created memory creator out).1
  | .objrefr hld => (objrefr s.m hld).map fun (m, got) => s.referred hld m got
  | .objrefr2 hld out => (objrefr2 s.m hld out).map fun (m, got, _) => s.referred hld m got
  | .objreff hld => (objreff s.m hld).map fun (m, got) =>
      if got = none then s.referred hld m got else (s.requested hld).referred hld m got
  | .objdefr ref =>
    if ref ∈ s.held then
      (objdefr s.m ref.2).map fun (m, removed) =>
        { s with held := s.held.erase ref }.taken m removed
    else none
  | .objclos hld =>
    let (m, removed) := objclos s.m hld
    some ((s.requested hld).taken m removed)
  | .objtagfree i =>
    match s.removed[i]? with
    | none => none
    | some target => some { s with
        removed := s.removed.eraseIdx i
        unloaded := if target.unloader then target.number :: s.unloaded else s.unloaded }

/-- The object whose unloader runs in a step. -/
def unloads (s : State) : Act → Option Object
  | .objallo3 memory creator => match (objallo3 s.m s.created memory creator).1 with
    | .failed obj => some obj
    | _ => none
  | .objallo4 memory creator out => match (objallo4 s.m s.created memory creator out).1 with
    | .failed obj => some obj
    | _ => none
  | .objtagfree i => (s.removed[i]?).filter Object.unloader
  | _ => none

/-- The object to which a step hands out a reference. -/
def handsOut (s : State) : Act → Option Object
  | .objrefr hld => (objrefr s.m hld).bind Prod.snd
  | .objrefr2 hld out => (objrefr2 s.m hld out).bind fun (_, got, _) => got
  | .objreff hld => (objreff s.m hld).bind Prod.snd
  | _ => none

end Machine

end ObjectCalls
