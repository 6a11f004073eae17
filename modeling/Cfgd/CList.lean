import Mathlib.Data.List.Chain
import Mathlib.Data.List.Nodup
import Mathlib.Logic.Function.Basic

/-!
# Circular lists with two links

The list of a head is a ring: the head, then its members in order, then the head again.
A cell that is on no list is linked to itself.
-/

namespace CList

universe u

structure Links (α : Type u) where
  next : α → α
  prev : α → α

section Operations
variable {α : Type u} [DecidableEq α]

def Links.setNext (links : Links α) (a b : α) : Links α :=
  { links with next := Function.update links.next a b }

def Links.setPrev (links : Links α) (a b : α) : Links α :=
  { links with prev := Function.update links.prev a b }

def initListHead (links : Links α) (head : α) : Links α :=
  (links.setNext head head).setPrev head head

/-- `__list_add`. -/
def listAdd (links : Links α) (newone prev next : α) : Links α :=
  (((links.setPrev next newone).setNext newone next).setPrev newone prev).setNext prev newone

def listAddTail (links : Links α) (newone head : α) : Links α :=
  listAdd links newone (links.prev head) head

/-- `__list_del`. -/
def listDel (links : Links α) (prev next : α) : Links α :=
  (links.setPrev next prev).setNext prev next

def listDelInit (links : Links α) (entry : α) : Links α :=
  initListHead (listDel links (links.prev entry) (links.next entry)) entry

def listEmpty (links : Links α) (head : α) : Bool := links.next head = head

def listFirst (links : Links α) (head : α) : α := links.next head

end Operations

section Rings
variable {α : Type u}

def Link (links : Links α) (a b : α) : Prop := links.next a = b ∧ links.prev b = a

/-- The cells on the list of `head`, in order. -/
structure Ring (links : Links α) (head : α) (cells : List α) : Prop where
  distinct : (head :: cells).Nodup
  linked : (head :: cells ++ [head]).IsChain (Link links)

theorem linked_congr {links links' : Links α} {cells : List α}
    (linked : cells.IsChain (Link links))
    (next : ∀ a ∈ cells.dropLast, links'.next a = links.next a)
    (prev : ∀ b ∈ cells.tail, links'.prev b = links.prev b) :
    cells.IsChain (Link links') := by
  induction cells with
  | nil => exact .nil
  | cons a rest ih =>
    cases rest with
    | nil => exact .singleton a
    | cons b rest =>
      rw [List.isChain_cons_cons] at linked ⊢
      have first : Link links' a b :=
        ⟨(next a List.mem_cons_self).trans linked.1.1,
          (prev b List.mem_cons_self).trans linked.1.2⟩
      exact ⟨first, ih linked.2 (fun c mem => next c (List.mem_cons_of_mem a mem))
        fun c mem => prev c (List.mem_cons_of_mem b mem)⟩

/-- A list has its last cell in front of the head. -/
theorem Ring.last {links : Links α} {head : α} {cells : List α} (ring : Ring links head cells) :
    ∃ front, head :: cells = front ++ [links.prev head] := by
  obtain ⟨front, last, whole⟩ : ∃ front last, head :: cells = front ++ [last] :=
    ⟨_, _, (List.dropLast_append_getLast (List.cons_ne_nil head cells)).symm⟩
  have linked := ring.linked
  rw [whole, List.append_assoc, List.singleton_append, List.isChain_append_cons_cons] at linked
  exact ⟨front, linked.2.1.2 ▸ whole⟩

theorem Ring.prev_mem {links : Links α} {head : α} {cells : List α}
    (ring : Ring links head cells) : links.prev head ∈ head :: cells := by
  obtain ⟨front, whole⟩ := ring.last
  rw [whole]
  exact List.mem_append_right front (List.mem_singleton_self _)

theorem Ring.next_eq {links : Links α} {head : α} {cells : List α}
    (ring : Ring links head cells) : links.next head = cells.headD head := by
  have linked := ring.linked
  cases cells with
  | nil => exact (List.isChain_cons_cons.mp linked).1.1
  | cons first rest => exact (List.isChain_cons_cons.mp linked).1.1

/-- A list stays as it is while the links of its cells do. -/
theorem Ring.frame {links links' : Links α} {head : α} {cells : List α}
    (ring : Ring links head cells)
    (next : ∀ a ∈ head :: cells, links'.next a = links.next a)
    (prev : ∀ a ∈ head :: cells, links'.prev a = links.prev a) : Ring links' head cells := by
  refine ⟨ring.distinct, linked_congr ring.linked (fun a mem => next a ?_) fun b mem => prev b ?_⟩
  · rwa [List.dropLast_concat] at mem
  · rw [List.cons_append, List.tail_cons, List.mem_append, List.mem_singleton] at mem
    rcases mem with mem | rfl
    · exact List.mem_cons_of_mem head mem
    · exact List.mem_cons_self

/-- What stands around the first cell of a list. -/
theorem Ring.first {links : Links α} {head first : α} {rest : List α}
    (ring : Ring links head (first :: rest)) :
    links.prev first = head ∧ (first :: rest ++ [head]).IsChain (Link links) :=
  have linked := List.isChain_cons_cons.mp ring.linked
  ⟨linked.1.2, linked.2⟩

end Rings

section Laws
variable {α : Type u} [DecidableEq α] {links : Links α} {head newone : α} {cells : List α}

theorem Ring.listEmpty_iff (ring : Ring links head cells) :
    listEmpty links head = true ↔ cells = [] := by
  have distinct := ring.distinct
  rw [listEmpty, decide_eq_true_eq, ring.next_eq]
  cases cells with
  | nil => exact ⟨fun _ => rfl, fun _ => rfl⟩
  | cons first rest =>
    rw [List.nodup_cons] at distinct
    exact ⟨fun same => absurd List.mem_cons_self (same ▸ distinct.1),
      fun none => absurd none (List.cons_ne_nil first rest)⟩

theorem ring_initListHead (links : Links α) (head : α) : Ring (initListHead links head) head [] :=
  ⟨List.nodup_singleton head, List.isChain_pair.mpr
    ⟨Function.update_self _ _ _, Function.update_self _ _ _⟩⟩

theorem listAdd_next_ne {prev next a : α} (fromNew : a ≠ newone) (fromPrev : a ≠ prev) :
    (listAdd links newone prev next).next a = links.next a :=
  (Function.update_of_ne fromPrev _ _).trans (Function.update_of_ne fromNew _ _)

theorem listAdd_prev_ne {prev next a : α} (fromNew : a ≠ newone) (fromNext : a ≠ next) :
    (listAdd links newone prev next).prev a = links.prev a :=
  (Function.update_of_ne fromNew _ _).trans (Function.update_of_ne fromNext _ _)

theorem ring_initListHead_of_ne {other : α} (ring : Ring links head cells)
    (apart : other ∉ head :: cells) : Ring (initListHead links other) head cells :=
  have notOther : ∀ a ∈ head :: cells, a ≠ other := fun _ mem same => apart (same ▸ mem)
  ring.frame (fun a mem => Function.update_of_ne (notOther a mem) _ _)
    fun a mem => Function.update_of_ne (notOther a mem) _ _

/-- `list_add_tail` puts a cell that is not on the list behind its last one. -/
theorem Ring.addTail (ring : Ring links head cells) (fresh : newone ∉ head :: cells) :
    Ring (listAddTail links newone head) head (cells ++ [newone]) := by
  obtain ⟨front, whole⟩ := ring.last
  have distinct := ring.distinct
  have linked := ring.linked
  have notLast : newone ≠ links.prev head := fun same => fresh (same ▸ ring.prev_mem)
  have notHead : newone ≠ head := fun same => fresh (same ▸ List.mem_cons_self)
  rw [whole, List.append_assoc, List.singleton_append, List.isChain_append_cons_cons] at linked
  constructor
  · rw [← List.cons_append]
    exact distinct.append (List.nodup_singleton newone) fun a mem same =>
      fresh (List.mem_singleton.mp same ▸ mem)
  · rw [← List.cons_append, whole, List.append_assoc, List.append_assoc,
      List.singleton_append, List.singleton_append, List.isChain_append_cons_cons,
      List.isChain_pair]
    rw [whole] at distinct
    have inFront : ∀ a ∈ front, a ≠ newone ∧ a ≠ links.prev head := fun a mem =>
      ⟨fun same => fresh (whole ▸ List.mem_append_left _ (same ▸ mem)),
        fun same => (List.disjoint_of_nodup_append distinct) mem (List.mem_singleton.mpr same)⟩
    have inCells : ∀ a ∈ cells, a ≠ newone ∧ a ≠ head := fun a mem =>
      ⟨fun same => fresh (List.mem_cons_of_mem head (same ▸ mem)),
        fun same => (List.nodup_cons.mp ring.distinct).1 (same ▸ mem)⟩
    refine ⟨linked_congr linked.1 (fun a mem => ?_) (fun a mem => ?_), ⟨?_, ?_⟩, ?_, ?_⟩
    · rw [List.dropLast_concat] at mem
      exact listAdd_next_ne (inFront a mem).1 (inFront a mem).2
    · rw [← whole, List.tail_cons] at mem
      exact listAdd_prev_ne (inCells a mem).1 (inCells a mem).2
    · exact Function.update_self _ _ _
    · exact Function.update_self _ _ _
    · exact (Function.update_of_ne notLast _ _).trans (Function.update_self _ _ _)
    · exact (Function.update_of_ne notHead.symm _ _).trans (Function.update_self _ _ _)

/-- A list that shares no cell with it stays as it is. -/
theorem Ring.addTail_other {other : α} {others : List α} (ring : Ring links head cells)
    (ring' : Ring links other others) (apart : ∀ a ∈ other :: others, a ∉ head :: cells)
    (fresh : newone ∉ other :: others) :
    Ring (listAddTail links newone head) other others :=
  ring'.frame
    (fun a mem => listAdd_next_ne (fun same => fresh (same ▸ mem))
      fun same => apart a mem (same ▸ ring.prev_mem))
    fun a mem => listAdd_prev_ne (fun same => fresh (same ▸ mem))
      fun same => apart a mem (same ▸ List.mem_cons_self)

theorem listDelInit_next_ne {entry a : α} (fromEntry : a ≠ entry)
    (fromPrev : a ≠ links.prev entry) : (listDelInit links entry).next a = links.next a :=
  (Function.update_of_ne fromEntry _ _).trans (Function.update_of_ne fromPrev _ _)

theorem listDelInit_prev_ne {entry a : α} (fromEntry : a ≠ entry)
    (fromNext : a ≠ links.next entry) : (listDelInit links entry).prev a = links.prev a :=
  (Function.update_of_ne fromEntry _ _).trans (Function.update_of_ne fromNext _ _)

/-- `list_del_init` takes the first cell off the list. -/
theorem Ring.delInit {first : α} {rest : List α} (ring : Ring links head (first :: rest)) :
    Ring (listDelInit links first) head rest := by
  obtain ⟨before, linked⟩ := ring.first
  obtain ⟨headFresh, distinct⟩ := List.nodup_cons.mp ring.distinct
  obtain ⟨firstFresh, restDistinct⟩ := List.nodup_cons.mp distinct
  have notHead : head ≠ first := fun same => headFresh (same ▸ List.mem_cons_self)
  have restFresh : head ∉ rest := fun mem => headFresh (List.mem_cons_of_mem first mem)
  refine ⟨List.nodup_cons.mpr ⟨restFresh, restDistinct⟩, ?_⟩
  obtain ⟨after, tail, whole⟩ : ∃ after tail, rest ++ [head] = after :: tail := by
    cases rest with
    | nil => exact ⟨head, [], rfl⟩
    | cons b rest => exact ⟨b, rest ++ [head], rfl⟩
  have distinctTail : (after :: tail).Nodup := by
    rw [← whole]
    exact restDistinct.append (List.nodup_singleton head) fun a mem same =>
      restFresh (List.mem_singleton.mp same ▸ mem)
  have notFirst : ∀ a ∈ after :: tail, a ≠ first := by
    intro a mem same
    rw [← whole, List.mem_append, List.mem_singleton] at mem
    rcases mem with mem | rfl
    · exact firstFresh (same ▸ mem)
    · exact notHead same
  rw [List.cons_append, whole, List.isChain_cons_cons] at linked
  rw [List.cons_append, whole, List.isChain_cons_cons]
  refine ⟨⟨?_, ?_⟩, linked_congr linked.2 (fun a mem => ?_) fun a mem => ?_⟩
  · rw [listDelInit, before, linked.1.1]
    exact (Function.update_of_ne notHead _ _).trans (Function.update_self _ _ _)
  · rw [listDelInit, before, linked.1.1]
    exact (Function.update_of_ne (notFirst after List.mem_cons_self) _ _).trans
      (Function.update_self _ _ _)
  · rw [← whole, List.dropLast_concat] at mem
    refine listDelInit_next_ne (fun same => firstFresh (same ▸ mem)) fun same => ?_
    exact restFresh (before ▸ same ▸ mem)
  · rw [List.tail_cons] at mem
    refine listDelInit_prev_ne (notFirst a (List.mem_cons_of_mem after mem)) fun same => ?_
    exact (List.nodup_cons.mp distinctTail).1 (linked.1.1 ▸ same ▸ mem)

/-- A list on which neither the cell nor its head is stays as it is. -/
theorem Ring.delInit_other {first other : α} {rest others : List α}
    (ring : Ring links head (first :: rest)) (ring' : Ring links other others)
    (apart : ∀ a ∈ other :: others, a ∉ head :: first :: rest) :
    Ring (listDelInit links first) other others := by
  have before := ring.first.1
  have after : links.next first ∈ head :: first :: rest := by
    have linked := ring.first.2
    cases rest with
    | nil => exact (List.isChain_cons_cons.mp linked).1.1 ▸ List.mem_cons_self
    | cons b rest =>
      exact (List.isChain_cons_cons.mp linked).1.1 ▸
        List.mem_cons_of_mem _ (List.mem_cons_of_mem _ List.mem_cons_self)
  have notFirst : ∀ a ∈ other :: others, a ≠ first := fun a mem same =>
    apart a mem (same ▸ List.mem_cons_of_mem _ List.mem_cons_self)
  refine ring'.frame (fun a mem => listDelInit_next_ne (notFirst a mem) fun same => ?_)
    fun a mem => listDelInit_prev_ne (notFirst a mem) fun same => ?_
  · exact apart a mem (same ▸ before ▸ List.mem_cons_self)
  · exact apart a mem (same ▸ after)

end Laws

end CList
