import Mathlib.Data.List.Nodup

/-!
# Feistel networks

A round mixes one half of a block into the other through any function of a key; between two
rounds the halves are swapped and after the last they are not. The same network with its keys
in reverse order undoes it, whatever the function is.
-/

namespace Feistel

universe u v
variable {Half : Type u} {Key : Type v}

/-- One round: the right half stays, the left is mixed with what the function makes of it. -/
def turn (mix : Half → Half → Half) (f : Key → Half → Half) (key : Key) (block : Half × Half) :
    Half × Half :=
  (mix block.1 (f key block.2), block.2)

/-- Rounds in a given order, with a swap after each but the one named last. -/
def rounds [DecidableEq Key] (mix : Half → Half → Half) (f : Key → Half → Half) (last : Key)
    (order : List Key) (block : Half × Half) : Half × Half :=
  order.foldl (fun block key =>
    if key ≠ last then (turn mix f key block).swap else turn mix f key block) block

/-- Rounds with a swap after every one of them. -/
def swapped (mix : Half → Half → Half) (f : Key → Half → Half) (order : List Key)
    (block : Half × Half) : Half × Half :=
  order.foldl (fun block key => (turn mix f key block).swap) block

section Undo
variable {mix : Half → Half → Half} (f : Key → Half → Half)

theorem turn_turn (cancel : ∀ a b, mix (mix a b) b = a) (key : Key) (block : Half × Half) :
    turn mix f key (turn mix f key block) = block := by
  rw [turn, turn, cancel]

theorem swapped_append (front back : List Key) (block : Half × Half) :
    swapped mix f (front ++ back) block = swapped mix f back (swapped mix f front block) :=
  List.foldl_append

theorem swapped_singleton (key : Key) (block : Half × Half) :
    swapped mix f [key] block = (turn mix f key block).swap := rfl

/-- The network with the keys reversed, started on the swapped halves. -/
theorem swapped_reverse (cancel : ∀ a b, mix (mix a b) b = a) (order : List Key)
    (block : Half × Half) :
    swapped mix f order.reverse (swapped mix f order block).swap = block.swap := by
  induction order generalizing block with
  | nil => rfl
  | cons key order ih =>
    have first : swapped mix f (key :: order) block =
        swapped mix f order (turn mix f key block).swap := rfl
    rw [List.reverse_cons, swapped_append, first, ih, Prod.swap_swap, swapped_singleton,
      turn_turn f cancel]

variable [DecidableEq Key]

theorem rounds_eq (last : Key) {front : List Key} (fresh : last ∉ front) (block : Half × Half) :
    rounds mix f last (front ++ [last]) block = (swapped mix f (front ++ [last]) block).swap := by
  have same : ∀ (order : List Key) (block : Half × Half), last ∉ order →
      rounds mix f last order block = swapped mix f order block := by
    intro order
    induction order with
    | nil => exact fun _ _ => rfl
    | cons key order ih =>
      intro block fresh
      obtain ⟨here, later⟩ := not_or.mp (List.mem_cons.not.mp fresh)
      rw [rounds, swapped, List.foldl_cons, List.foldl_cons, if_pos (Ne.symm here)]
      exact ih _ later
  have before := same front block fresh
  rw [rounds] at before
  rw [rounds, List.foldl_append, before, List.foldl_cons, List.foldl_nil,
    if_neg (not_not.mpr rfl), swapped_append, swapped_singleton, Prod.swap_swap]

/-- A network is undone by itself with its keys in reverse order: the swap that is missing
after the last round stands between the two. -/
theorem rounds_reverse (cancel : ∀ a b, mix (mix a b) b = a) (first last : Key)
    {order : List Key} (nodup : order.Nodup) (starts : order.head? = some first)
    (ends : order.getLast? = some last) (block : Half × Half) :
    rounds mix f first order.reverse (rounds mix f last order block) = block := by
  have split {key : Key} {order : List Key} (nodup : order.Nodup)
      (ends : order.getLast? = some key) :
      ∀ block, rounds mix f key order block = (swapped mix f order block).swap := by
    obtain ⟨front, rfl⟩ := List.getLast?_eq_some_iff.mp ends
    have fresh : key ∉ front := by
      have apart := List.nodup_append.mp nodup
      exact fun mem => apart.2.2 key mem key List.mem_cons_self rfl
    exact rounds_eq f key fresh
  have reversed : order.reverse.getLast? = some first := by rw [List.getLast?_reverse, starts]
  rw [split (List.nodup_reverse.mpr nodup) reversed, split nodup ends,
    swapped_reverse f cancel, Prod.swap_swap]

end Undo

end Feistel
