import Mathlib.Data.List.Basic
import Mathlib.Data.List.Perm.Basic

/-!
# Binary heaps laid out in a list

The heap that a priority queue keeps in its vector: the element at `k + 1` hangs
below the one at `k / 2`, and an element is nowhere less than one that hangs below
it. `less` is the comparison object, a strict weak order.
-/

namespace BinaryHeap

universe u
variable {α : Type u}

/-- What is asked of a comparison object. -/
structure StrictWeak (less : α → α → Bool) : Prop where
  asymm : ∀ {a b : α}, less a b = true → less b a = false
  not_less_trans : ∀ {a b c : α}, less a b = false → less b c = false → less a c = false

theorem StrictWeak.irrefl {less : α → α → Bool} (weak : StrictWeak less) (a : α) :
    less a a = false := by
  cases self : less a a with
  | false => rfl
  | true => exact self.symm.trans (weak.asymm self)

/-- No element is less than one that hangs below it. -/
def Ordered (less : α → α → Bool) (xs : List α) : Prop :=
  ∀ k above here, xs[k / 2]? = some above → xs[k + 1]? = some here → less above here = false

/-- The element at an index climbs for as long as the one it hangs below is less. -/
def climb (less : α → α → Bool) : Nat → List α → List α
  | 0, xs => xs
  | i + 1, xs =>
    match xs[i / 2]?, xs[i + 1]? with
    | some above, some here =>
      if less above here then climb less (i / 2) ((xs.set (i / 2) here).set (i + 1) above)
      else xs
    | _, _ => xs
termination_by i => i
decreasing_by omega

/-- The index of the greater of the two elements that hang below `i`. -/
def greaterChild (less : α → α → Bool) (xs : List α) (i : Nat) : Nat :=
  match xs[2 * i + 1]?, xs[2 * i + 2]? with
  | some left, some right => if less left right then 2 * i + 2 else 2 * i + 1
  | _, _ => 2 * i + 1

theorem greaterChild_cases (less : α → α → Bool) (xs : List α) (i : Nat) :
    greaterChild less xs i = 2 * i + 1 ∨ greaterChild less xs i = 2 * i + 2 := by
  unfold greaterChild
  split
  · split
    · exact Or.inr rfl
    · exact Or.inl rfl
  · exact Or.inl rfl

/-- The element at an index sinks for as long as it is less than the greater of the
two below it. -/
def sink (less : α → α → Bool) (i : Nat) (xs : List α) : List α :=
  match xs[i]?, _hc : xs[greaterChild less xs i]? with
  | some here, some child =>
    if less here child then
      sink less (greaterChild less xs i) ((xs.set i child).set (greaterChild less xs i) here)
    else xs
  | _, _ => xs
termination_by xs.length - i
decreasing_by
  have inside := (List.getElem?_eq_some_iff.mp _hc).1
  have below := greaterChild_cases less xs i
  simp only [List.length_set]
  omega

/-- `push_back` and `push_heap`. -/
def push (less : α → α → Bool) (xs : List α) (x : α) : List α :=
  climb less xs.length (xs ++ [x])

/-- `front`; an empty vector has none. -/
def top (xs : List α) : Option α := xs.head?

/-- `pop_heap` and `pop_back`: the last element takes the place of the first and sinks. -/
def pop (less : α → α → Bool) : List α → List α
  | [] => []
  | _ :: rest =>
    match rest.getLast? with
    | none => []
    | some last => sink less 0 (last :: rest.dropLast)

section Exchange

theorem exchange_perm {xs : List α} {i j : Nat} {a b : α} (ha : xs[i]? = some a)
    (hb : xs[j]? = some b) : ((xs.set i b).set j a).Perm xs := by
  obtain ⟨hi, rfl⟩ := List.getElem?_eq_some_iff.mp ha
  obtain ⟨hj, rfl⟩ := List.getElem?_eq_some_iff.mp hb
  exact List.set_set_perm hi hj

/-- After an exchange every element stands where it stood or is one of the two. -/
theorem exchange_get {xs : List α} {i j k : Nat} {a b x : α} (ha : xs[i]? = some a)
    (hb : xs[j]? = some b) (hx : ((xs.set i b).set j a)[k]? = some x) :
    (k = i ∧ x = b) ∨ (k = j ∧ x = a) ∨ (k ≠ i ∧ k ≠ j ∧ xs[k]? = some x) := by
  have hi := (List.getElem?_eq_some_iff.mp ha).1
  have hj := (List.getElem?_eq_some_iff.mp hb).1
  rw [List.getElem?_set, List.getElem?_set] at hx
  by_cases kj : j = k
  · rw [if_pos kj, if_pos (by rw [List.length_set]; exact hj)] at hx
    exact Or.inr (Or.inl ⟨kj.symm, (Option.some.inj hx).symm⟩)
  · rw [if_neg kj] at hx
    by_cases ki : i = k
    · rw [if_pos ki, if_pos hi] at hx
      exact Or.inl ⟨ki.symm, (Option.some.inj hx).symm⟩
    · rw [if_neg ki] at hx
      exact Or.inr (Or.inr ⟨fun h => ki h.symm, fun h => kj h.symm, hx⟩)

end Exchange

theorem climb_perm (less : α → α → Bool) (i : Nat) (xs : List α) :
    (climb less i xs).Perm xs := by
  induction i, xs using climb.induct less with
  | case1 xs => rw [climb]
  | case2 i xs above here hh ha up ih =>
    rw [climb, ha, hh]
    simp only [up, if_true]
    exact ih.trans (exchange_perm ha hh)
  | case3 i xs above here hh ha stay =>
    rw [climb, ha, hh]
    simp only [stay, if_false, Bool.false_eq_true]
    exact List.Perm.refl xs
  | case4 i xs outside =>
    rw [climb]
    split
    · exact absurd ‹_› (fun h => outside _ _ ‹_› h)
    · exact List.Perm.refl xs

theorem sink_perm (less : α → α → Bool) (i : Nat) (xs : List α) :
    (sink less i xs).Perm xs := by
  induction i, xs using sink.induct less with
  | case1 i xs here child hc hh down ih =>
    rw [sink, hh, hc]
    simp only [down, if_true]
    exact ih.trans (exchange_perm hh hc)
  | case2 i xs here child hc hh stay =>
    rw [sink, hh, hc]
    simp only [stay, if_false, Bool.false_eq_true]
    exact List.Perm.refl xs
  | case3 i xs outside =>
    rw [sink]
    split
    · exact absurd ‹_› (fun h => outside _ _ ‹_› h)
    · exact List.Perm.refl xs

section Order

variable {less : α → α → Bool}

/-- Only the element at `i` may be out of order with the one it hangs below, and the
elements below `i` are in order with that one. -/
structure UpReady (less : α → α → Bool) (xs : List α) (i : Nat) : Prop where
  others : ∀ k above here, k + 1 ≠ i → xs[k / 2]? = some above → xs[k + 1]? = some here →
    less above here = false
  across : ∀ j k above here, j + 1 = i → k / 2 = i → xs[j / 2]? = some above →
    xs[k + 1]? = some here → less above here = false

/-- Only the elements below `i` may be out of order with it, and they are in order
with the one that `i` hangs below. -/
structure DownReady (less : α → α → Bool) (xs : List α) (i : Nat) : Prop where
  others : ∀ k above here, k / 2 ≠ i → xs[k / 2]? = some above → xs[k + 1]? = some here →
    less above here = false
  across : ∀ j k above here, j + 1 = i → k / 2 = i → xs[j / 2]? = some above →
    xs[k + 1]? = some here → less above here = false

/-- One exchange on the way up. -/
theorem UpReady.exchanged (weak : StrictWeak less) {xs : List α} {i : Nat} {above here : α}
    (ready : UpReady less xs (i + 1)) (ha : xs[i / 2]? = some above)
    (hh : xs[i + 1]? = some here) (up : less above here = true) :
    UpReady less ((xs.set (i / 2) here).set (i + 1) above) (i / 2) := by
  have below : ∀ k x, k / 2 = i / 2 → k ≠ i → xs[k + 1]? = some x → less here x = false := by
    intro k x hk apart hx
    have le := ready.others k above x (by omega) (hk ▸ ha) hx
    cases lt : less here x with
    | false => rfl
    | true =>
      have back := weak.not_less_trans le (weak.asymm lt)
      exact absurd (up.symm.trans back) (by decide)
  constructor
  · intro k a x hk hka hkx
    rcases exchange_get ha hh hka with ⟨ka, rfl⟩ | ⟨ka, rfl⟩ | ⟨ka, ka', ga⟩
    · rcases exchange_get ha hh hkx with ⟨kx, rfl⟩ | ⟨kx, rfl⟩ | ⟨kx, kx', gx⟩
      · exact absurd kx hk
      · exact weak.asymm up
      · exact below k x ka (by omega) gx
    · rcases exchange_get ha hh hkx with ⟨kx, rfl⟩ | ⟨kx, rfl⟩ | ⟨kx, kx', gx⟩
      · omega
      · omega
      · exact ready.across i k a x rfl ka ha gx
    · rcases exchange_get ha hh hkx with ⟨kx, rfl⟩ | ⟨kx, rfl⟩ | ⟨kx, kx', gx⟩
      · exact absurd kx hk
      · omega
      · exact ready.others k a x kx' ga gx
  · intro j k a x hj hk hja hkx
    have clear : less a above = false := by
      rcases exchange_get ha hh hja with ⟨ja, _⟩ | ⟨ja, _⟩ | ⟨_, _, ga⟩
      · omega
      · omega
      · exact ready.others j a above (by omega) ga (hj ▸ ha)
    rcases exchange_get ha hh hkx with ⟨kx, rfl⟩ | ⟨kx, rfl⟩ | ⟨kx, kx', gx⟩
    · omega
    · exact clear
    · exact weak.not_less_trans clear (ready.others k above x kx' (hk ▸ ha) gx)

theorem UpReady.ordered_zero {xs : List α} (ready : UpReady less xs 0) : Ordered less xs :=
  fun k above here ha hh => ready.others k above here (Nat.succ_ne_zero k) ha hh

theorem climb_ordered (weak : StrictWeak less) (i : Nat) (xs : List α)
    (ready : UpReady less xs i) : Ordered less (climb less i xs) := by
  induction i, xs using climb.induct less with
  | case1 xs => rw [climb]; exact ready.ordered_zero
  | case2 i xs above here hh ha up ih =>
    rw [climb, ha, hh]
    simp only [up, if_true]
    exact ih (ready.exchanged weak ha hh up)
  | case3 i xs above here hh ha stay =>
    rw [climb, ha, hh]
    simp only [stay, if_false, Bool.false_eq_true]
    intro k a x hka hkx
    by_cases hk : k = i
    · subst hk
      obtain rfl := Option.some.inj (ha.symm.trans hka)
      obtain rfl := Option.some.inj (hh.symm.trans hkx)
      exact Bool.not_eq_true _ ▸ stay
    · exact ready.others k a x (by omega) hka hkx
  | case4 i xs outside =>
    rw [climb]
    split
    · exact absurd ‹_› (fun h => outside _ _ ‹_› h)
    · intro k a x hka hkx
      by_cases hk : k = i
      · subst hk
        exact absurd hkx (outside a x hka)
      · exact ready.others k a x (by omega) hka hkx

/-- The chosen child is not less than either child. -/
theorem greaterChild_not_less (weak : StrictWeak less) {xs : List α} {i k : Nat}
    {child x : α} (hc : xs[greaterChild less xs i]? = some child) (hk : k / 2 = i)
    (hx : xs[k + 1]? = some x) : less child x = false := by
  have side : k + 1 = 2 * i + 1 ∨ k + 1 = 2 * i + 2 := by omega
  unfold greaterChild at hc
  split at hc
  case h_1 left right hl hr =>
    split at hc
    case isTrue lt =>
      obtain rfl := Option.some.inj (hr.symm.trans hc)
      rcases side with side | side
      · rw [side, hl] at hx
        exact Option.some.inj hx ▸ weak.asymm lt
      · rw [side, hr] at hx
        exact Option.some.inj hx ▸ weak.irrefl right
    case isFalse le =>
      obtain rfl := Option.some.inj (hl.symm.trans hc)
      rcases side with side | side
      · rw [side, hl] at hx
        exact Option.some.inj hx ▸ weak.irrefl left
      · rw [side, hr] at hx
        exact Option.some.inj hx ▸ (Bool.not_eq_true _ ▸ le)
  case h_2 none =>
    rcases side with side | side
    · rw [side, hc] at hx
      exact Option.some.inj hx ▸ weak.irrefl child
    · exact absurd (side ▸ hx) (none child x hc)

/-- The right child is chosen only where there is one. -/
theorem greaterChild_right {xs : List α} {i : Nat}
    (right : greaterChild less xs i = 2 * i + 2) : 2 * i + 2 < xs.length := by
  unfold greaterChild at right
  split at right
  case h_1 left r hl hr => exact (List.getElem?_eq_some_iff.mp hr).1
  case h_2 => omega

/-- An element without a chosen child has none at all. -/
theorem greaterChild_none {xs : List α} {i k : Nat}
    (hc : xs[greaterChild less xs i]? = none) (hk : k / 2 = i) : xs[k + 1]? = none := by
  have short := List.getElem?_eq_none_iff.mp hc
  refine List.getElem?_eq_none_iff.mpr ?_
  rcases greaterChild_cases less xs i with left | right
  · omega
  · have inside := greaterChild_right right
    omega

/-- One exchange on the way down. -/
theorem DownReady.exchanged (weak : StrictWeak less) {xs : List α} {i : Nat} {here child : α}
    (ready : DownReady less xs i) (hh : xs[i]? = some here)
    (hc : xs[greaterChild less xs i]? = some child) (down : less here child = true) :
    DownReady less ((xs.set i child).set (greaterChild less xs i) here)
      (greaterChild less xs i) := by
  have place := greaterChild_cases less xs i
  constructor
  · intro k a x hk hka hkx
    rcases exchange_get hh hc hka with ⟨ka, rfl⟩ | ⟨ka, rfl⟩ | ⟨ka, ka', ga⟩
    · rcases exchange_get hh hc hkx with ⟨kx, rfl⟩ | ⟨kx, rfl⟩ | ⟨kx, kx', gx⟩
      · omega
      · exact weak.asymm down
      · exact greaterChild_not_less weak hc ka gx
    · exact absurd ka hk
    · rcases exchange_get hh hc hkx with ⟨kx, rfl⟩ | ⟨kx, rfl⟩ | ⟨kx, kx', gx⟩
      · exact ready.across k (greaterChild less xs i - 1) a x kx (by omega) ga
          (by rw [Nat.sub_add_cancel (by omega)]; exact hc)
      · omega
      · exact ready.others k a x ka ga gx
  · intro j k a x hj hk hja hkx
    rcases exchange_get hh hc hkx with ⟨kx, rfl⟩ | ⟨kx, rfl⟩ | ⟨kx, kx', gx⟩
    · omega
    · omega
    rcases exchange_get hh hc hja with ⟨ja, rfl⟩ | ⟨ja, rfl⟩ | ⟨ja, ja', ga⟩
    · exact ready.others k a x (by omega) (hk ▸ hc) gx
    · omega
    · omega

theorem sink_ordered (weak : StrictWeak less) (i : Nat) (xs : List α)
    (ready : DownReady less xs i) : Ordered less (sink less i xs) := by
  induction i, xs using sink.induct less with
  | case1 i xs here child hc hh down ih =>
    rw [sink, hh, hc]
    simp only [down, if_true]
    exact ih (ready.exchanged weak hh hc down)
  | case2 i xs here child hc hh stay =>
    rw [sink, hh, hc]
    simp only [stay, if_false, Bool.false_eq_true]
    have stays : less here child = false := Bool.not_eq_true _ ▸ stay
    intro k a x hka hkx
    by_cases hk : k / 2 = i
    · obtain rfl := Option.some.inj (hh.symm.trans (hk ▸ hka))
      exact weak.not_less_trans stays (greaterChild_not_less weak hc hk hkx)
    · exact ready.others k a x hk hka hkx
  | case3 i xs outside =>
    rw [sink]
    split
    · exact absurd ‹_› (fun h => outside _ _ ‹_› h)
    · intro k a x hka hkx
      by_cases hk : k / 2 = i
      · cases hc : xs[greaterChild less xs i]? with
        | none => exact absurd (greaterChild_none hc hk ▸ hkx) (by simp)
        | some child => exact absurd hc (outside a child (hk ▸ hka))
      · exact ready.others k a x hk hka hkx

end Order

section Queue

variable {less : α → α → Bool}

theorem push_perm (less : α → α → Bool) (xs : List α) (x : α) :
    (push less xs x).Perm (x :: xs) :=
  (climb_perm less xs.length (xs ++ [x])).trans (List.perm_append_singleton x xs)

/-- The elements apart from the top are what a pop leaves. -/
theorem pop_perm (less : α → α → Bool) {xs : List α} {x : α} (first : top xs = some x) :
    (x :: pop less xs).Perm xs := by
  obtain ⟨rest, rfl⟩ := List.head?_eq_some_iff.mp first
  refine List.Perm.cons x ?_
  rw [pop]
  cases last : rest.getLast? with
  | none => rw [List.getLast?_eq_none_iff.mp last]
  | some y =>
    have turned : (y :: rest.dropLast).Perm rest := by
      have whole := List.perm_append_singleton y rest.dropLast
      rw [List.dropLast_append_getLast? y last] at whole
      exact whole.symm
    exact (sink_perm less 0 _).trans turned

theorem push_ordered (weak : StrictWeak less) {xs : List α} (ordered : Ordered less xs)
    (x : α) : Ordered less (push less xs x) := by
  refine climb_ordered weak xs.length (xs ++ [x]) ⟨?_, ?_⟩
  · intro k a y hk hka hky
    have inside := (List.getElem?_eq_some_iff.mp hky).1
    rw [List.length_append, List.length_singleton] at inside
    rw [List.getElem?_append_left (by omega)] at hka hky
    exact ordered k a y hka hky
  · intro j k a y hj hk hja hky
    have inside := (List.getElem?_eq_some_iff.mp hky).1
    rw [List.length_append, List.length_singleton] at inside
    omega

theorem pop_ordered (weak : StrictWeak less) {xs : List α} (ordered : Ordered less xs) :
    Ordered less (pop less xs) := by
  cases xs with
  | nil => exact ordered
  | cons x rest =>
    rw [pop]
    cases last : rest.getLast? with
    | none => intro k a y hka _; simp at hka
    | some z =>
      refine sink_ordered weak 0 _ ⟨?_, ?_⟩
      · intro k a y hk hka hky
        have kept : ∀ m v, m ≠ 0 → (z :: rest.dropLast)[m]? = some v →
            (x :: rest)[m]? = some v := by
          intro m v hm hv
          obtain ⟨n, rfl⟩ := Nat.exists_eq_succ_of_ne_zero hm
          rw [List.getElem?_cons_succ] at hv ⊢
          rw [← List.dropLast_append_getLast? z last]
          exact List.getElem?_append_left (List.getElem?_eq_some_iff.mp hv).1 ▸ hv
        exact ordered k a y (kept _ _ hk hka) (kept _ _ (Nat.succ_ne_zero k) hky)
      · intro j k a y hj
        omega

/-- Nothing in the heap is greater than the top. -/
theorem top_greatest (weak : StrictWeak less) {xs : List α} (ordered : Ordered less xs) {x : α}
    (first : top xs = some x) : ∀ y ∈ xs, less x y = false := by
  have at_index : ∀ (n : Nat) (y : α), xs[n]? = some y → less x y = false := by
    intro n
    induction n using Nat.strongRecOn with
    | ind n ih =>
      intro y hy
      cases n with
      | zero =>
        have same : xs.head? = some y := List.head?_eq_getElem? ▸ hy
        exact Option.some.inj (first.symm.trans same) ▸ weak.irrefl x
      | succ k =>
        have inside := (List.getElem?_eq_some_iff.mp hy).1
        have above : xs[k / 2]? = some xs[k / 2] := List.getElem?_eq_getElem (by omega)
        exact weak.not_less_trans (ih (k / 2) (by omega) _ above)
          (ordered k _ y above hy)
  intro y member
  obtain ⟨n, hn⟩ := List.mem_iff_getElem?.mp member
  exact at_index n y hn

end Queue

end BinaryHeap
