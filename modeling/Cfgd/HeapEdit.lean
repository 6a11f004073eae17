import Cfgd.CJson
import Mathlib.Data.List.Flatten
import Mathlib.Data.List.Nodup

/-!
# Writing to items

What a write through a pointer changes when the addresses in memory are different.
An item stands in a hole of the forest: a write at an address inside the item shows
in the hole only. A write to a fresh child that was just appended, and writes below a
child that is then dropped, are each one write to the parent.
-/

namespace HeapEdit

open CText CJson Item

variable {ν : Type}

section Kept
variable (a : Addr) (f : List (Item ν) → List (Item ν)) (j : Item ν)

@[simp] theorem addr_update : (j.update a (setChild f)).addr = j.addr := by
  by_cases here : j.addr = a
  · subst here
    rw [update_here, addr_setChild]
  · rw [update_below here, addr_setChild]

@[simp] theorem string_update : (j.update a (setChild f)).string = j.string := by
  by_cases here : j.addr = a
  · subst here
    rw [update_here, string_setChild]
  · rw [update_below here, string_setChild]

@[simp] theorem kind_update : (j.update a (setChild f)).kind = j.kind := by
  by_cases here : j.addr = a
  · subst here
    rw [update_here, kind_setChild]
  · rw [update_below here, kind_setChild]

end Kept

theorem setChild_self {j : Item ν} {child : List (Item ν)} (same : j.child = child) :
    (j.setChild fun _ => child) = j := by
  subst same
  cases j
  rfl

theorem setChild_congr {j : Item ν} {f g : List (Item ν) → List (Item ν)}
    (same : f j.child = g j.child) : j.setChild f = j.setChild g := by
  cases j
  exact congrArg _ same

theorem setChild_setChild (f g : List (Item ν) → List (Item ν)) (j : Item ν) :
    (j.setChild f).setChild g = j.setChild fun child => g (f child) := by
  cases j
  rfl

/-- What is below an item that is below another is below that one too. -/
theorem items_trans {j x z : Item ν} (hx : x ∈ j.items) (hz : z ∈ x.items) : z ∈ j.items := by
  induction j using Item.induct with
  | step j ih =>
    rw [items_eq, List.mem_cons, List.mem_flatMap] at hx
    rcases hx with rfl | ⟨c, hc, below⟩
    · exact hz
    · exact mem_items_of_child hc (ih c hc below)

theorem update_map_of_not_mem {a : Addr} (write : Item ν → Item ν) {l : List (Item ν)}
    (h : a ∉ l.flatMap addrs) : l.map (Item.update a write) = l := by
  conv_rhs => rw [← List.map_id l]
  exact List.map_congr_left fun c hc =>
    update_of_not_mem write fun ha => h (List.mem_flatMap.mpr ⟨c, hc, ha⟩)

section Holes

/-- The item stands in a hole of the list: `fill` puts an item into it, and `rest` are the
addresses outside. -/
structure Hole (l : List (Item ν)) (x : Item ν) (fill : Item ν → List (Item ν))
    (rest : List Addr) : Prop where
  self : fill x = l
  mem : ∀ z, z ∈ (fill z).flatMap items
  addrs : ∀ z, ((fill z).flatMap addrs).Perm (z.addrs ++ rest)
  inside : ∀ z b g, b ∉ rest → (fill z).map (Item.update b g) = fill (z.update b g)

theorem hole_here (x : Item ν) : Hole [x] x (fun z => [z]) [] where
  self := rfl
  mem z := by simpa using self_mem_items z
  addrs z := by simp
  inside z b g _ := rfl

theorem hole_list {c x : Item ν} {fill : Item ν → List (Item ν)} {rest : List Addr}
    (hole : Hole [c] x fill rest) (before after : List (Item ν)) :
    Hole (before ++ c :: after) x (fun z => before ++ (fill z ++ after))
      (before.flatMap addrs ++ (rest ++ after.flatMap addrs)) where
  self := by rw [hole.self, List.singleton_append]
  mem z := by
    rw [List.flatMap_append, List.flatMap_append]
    exact List.mem_append_right _ (List.mem_append_left _ (hole.mem z))
  addrs z := by
    rw [List.flatMap_append, List.flatMap_append]
    have swap := List.perm_append_comm_assoc (before.flatMap addrs) z.addrs
      (rest ++ after.flatMap addrs)
    have filled := ((hole.addrs z).append_right (after.flatMap addrs)).append_left
      (before.flatMap addrs)
    refine filled.trans ?_
    simpa only [List.append_assoc] using swap
  inside z b g hb := by
    rw [List.mem_append, List.mem_append] at hb
    obtain ⟨earlier, hb⟩ := not_or.mp hb
    obtain ⟨here, later⟩ := not_or.mp hb
    rw [List.map_append, List.map_append, update_map_of_not_mem g earlier,
      update_map_of_not_mem g later, hole.inside z b g here]

theorem hole_child {j x : Item ν} {fill : Item ν → List (Item ν)} {rest : List Addr}
    (hole : Hole j.child x fill rest) :
    Hole [j] x (fun z => [j.setChild fun _ => fill z]) (j.addr :: rest) where
  self := by rw [hole.self, setChild_self rfl]
  mem z := by
    rw [List.flatMap_singleton, items_eq, child_setChild]
    exact List.mem_cons_of_mem _ (hole.mem z)
  addrs z := by
    rw [List.flatMap_singleton, addrs_eq, addr_setChild, child_setChild]
    exact ((hole.addrs z).cons _).trans List.perm_middle.symm
  inside z b g hb := by
    obtain ⟨apart, below⟩ := not_or.mp (mt List.mem_cons.mpr hb)
    have other : (j.setChild fun _ => fill z).addr ≠ b := by
      rw [addr_setChild]
      exact fun h => apart h.symm
    rw [List.map_singleton, update_below other, setChild_setChild, hole.inside z b g below]

/-- Every item in a list stands in a hole. -/
theorem hole_of_mem {l : List (Item ν)} {x : Item ν} (hx : x ∈ l.flatMap items) :
    ∃ fill rest, Hole l x fill rest := by
  have among : ∀ {l : List (Item ν)}, (∀ c ∈ l, x ∈ c.items → ∃ fill rest, Hole [c] x fill rest) →
      x ∈ l.flatMap items → ∃ fill rest, Hole l x fill rest := by
    intro l each hx
    obtain ⟨c, hc, inside⟩ := List.mem_flatMap.mp hx
    obtain ⟨fill, rest, hole⟩ := each c hc inside
    obtain ⟨before, after, rfl⟩ := List.append_of_mem hc
    exact ⟨_, _, hole_list hole before after⟩
  have single : ∀ c : Item ν, x ∈ c.items → ∃ fill rest, Hole [c] x fill rest := by
    intro c
    induction c using Item.induct with
    | step j ih =>
      intro inside
      rw [items_eq, List.mem_cons] at inside
      rcases inside with rfl | below
      · exact ⟨_, _, hole_here x⟩
      · obtain ⟨fill, rest, hole⟩ := among ih below
        exact ⟨_, _, hole_child hole⟩
  exact among (fun c _ => single c) hx

namespace Hole
variable {l : List (Item ν)} {x : Item ν} {fill : Item ν → List (Item ν)} {rest : List Addr}

theorem nodup (h : Hole l x fill rest) (apart : (l.flatMap Item.addrs).Nodup) :
    x.addrs.Nodup ∧ rest.Nodup ∧ x.addrs.Disjoint rest := by
  have perm := h.addrs x
  rw [h.self] at perm
  exact List.nodup_append'.mp (perm.nodup_iff.mp apart)

/-- A write at an address of the item. -/
theorem update (h : Hole l x fill rest) (apart : (l.flatMap Item.addrs).Nodup) {b : Addr}
    (hb : b ∈ x.addrs) (g : Item ν → Item ν) : l.map (Item.update b g) = fill (x.update b g) := by
  conv_lhs => rw [← h.self]
  exact h.inside x b g fun hr => (h.nodup apart).2.2 hb hr

/-- A write at the item itself. -/
theorem update_self (h : Hole l x fill rest) (apart : (l.flatMap Item.addrs).Nodup)
    (g : Item ν → Item ν) : l.map (Item.update x.addr g) = fill (g x) := by
  rw [h.update apart (addr_mem_addrs x), update_here]

/-- A child of an item in a hole is in a hole itself. -/
theorem below {d : Item ν} {before after : List (Item ν)} (h : Hole l x fill rest)
    (split : x.child = before ++ d :: after) :
    Hole l d (fun z => fill (x.setChild fun _ => before ++ z :: after))
      (x.addr :: (before.flatMap Item.addrs ++ after.flatMap Item.addrs) ++ rest) where
  self := by rw [← split, setChild_self rfl, h.self]
  mem z := by
    have inside := h.mem (x.setChild fun _ => before ++ z :: after)
    obtain ⟨j, hj, below⟩ := List.mem_flatMap.mp inside
    have child : z ∈ (x.setChild fun _ => before ++ z :: after).child := by
      rw [child_setChild]
      simp
    exact List.mem_flatMap.mpr ⟨j, hj, items_trans below
      (mem_items_of_child child (self_mem_items z))⟩
  addrs z := by
    refine (h.addrs _).trans ?_
    rw [addrs_eq, addr_setChild, child_setChild, List.flatMap_append, List.flatMap_cons,
      ← List.append_assoc z.addrs]
    refine List.Perm.append_right rest ?_
    have swap := List.perm_append_comm_assoc (before.flatMap Item.addrs) z.addrs
      (after.flatMap Item.addrs)
    exact (swap.cons _).trans List.perm_middle.symm
  inside z b g hb := by
    rw [List.mem_append, List.mem_cons, List.mem_append] at hb
    obtain ⟨near, far⟩ := not_or.mp hb
    obtain ⟨apart, near⟩ := not_or.mp near
    obtain ⟨earlier, later⟩ := not_or.mp near
    have other : (x.setChild fun _ => before ++ z :: after).addr ≠ b := by
      rw [addr_setChild]
      exact fun h => apart h.symm
    rw [h.inside _ b g far, update_below other, setChild_setChild, List.map_append, List.map_cons,
      update_map_of_not_mem g earlier, update_map_of_not_mem g later]

end Hole

end Holes

section Touching

/-- Writes to the children of the items at some addresses, one after the other. -/
inductive Touched (S : List Addr) (l : List (Item ν)) : List (Item ν) → Prop where
  | same : Touched S l l
  | write {l' : List (Item ν)} (before : Touched S l l') {b : Addr} (inside : b ∈ S)
      (f : List (Item ν) → List (Item ν)) : Touched S l (l'.map (Item.update b (setChild f)))

variable {S : List Addr} {l l' l'' : List (Item ν)} {x d y : Item ν}

theorem Touched.trans (h : Touched S l l') (h' : Touched S l' l'') : Touched S l l'' := by
  induction h' with
  | same => exact h
  | write _ inside f ih => exact ih.write inside f

/-- Writes inside an item show in its hole only, and the item stays what it is. -/
theorem touched_hole {fill : Item ν → List (Item ν)} {rest : List Addr} (hole : Hole l d fill rest)
    (apart : (l.flatMap addrs).Nodup) (h : Touched d.addrs l l') :
    ∃ z, l' = fill z ∧ z.addr = d.addr ∧ z.string = d.string := by
  induction h with
  | same => exact ⟨d, hole.self.symm, rfl, rfl⟩
  | @write l' _ b inside f ih =>
    obtain ⟨z, rfl, addr, string⟩ := ih
    refine ⟨z.update b (setChild f), ?_, ?_, ?_⟩
    · exact hole.inside z b _ fun hr => (hole.nodup apart).2.2 inside hr
    · rw [addr_update, addr]
    · rw [string_update, string]

/-- Writes below a child do not matter when the parent's list is then made anew without
regard to what the child has become. -/
theorem touched_dropped {before after : List (Item ν)} (apart : (l.flatMap addrs).Nodup)
    (hx : x ∈ l.flatMap items) (split : x.child = before ++ d :: after)
    (h : Touched d.addrs l l') {f : List (Item ν) → List (Item ν)}
    (same : ∀ z, z.addr = d.addr → z.string = d.string →
      f (before ++ z :: after) = f (before ++ d :: after)) :
    l'.map (Item.update x.addr (setChild f)) = l.map (Item.update x.addr (setChild f)) := by
  obtain ⟨fill, rest, hole⟩ := hole_of_mem hx
  obtain ⟨z, rfl, addr, string⟩ := touched_hole (hole.below split) apart h
  have outside : x.addr ∉ rest := fun hr => (hole.nodup apart).2.2 (addr_mem_addrs x) hr
  have here : (x.setChild fun _ => before ++ z :: after).addr = x.addr := addr_setChild _ x
  have shown := hole.inside (x.setChild fun _ => before ++ z :: after) x.addr (setChild f) outside
  have written : (x.setChild fun _ => before ++ z :: after).update x.addr (setChild f) =
      x.setChild f := by
    rw [← here, update_here, setChild_setChild]
    apply setChild_congr
    rw [same z addr string, split]
  rw [hole.update_self apart, shown, written]

/-- The same for an item that hangs under no other. -/
theorem touched_filter (apart : (l.flatMap addrs).Nodup) (hd : d ∈ l) (h : Touched d.addrs l l') :
    l'.filter (fun c => c.addr ≠ d.addr) = l.filter fun c => c.addr ≠ d.addr := by
  obtain ⟨before, after, rfl⟩ := List.append_of_mem hd
  obtain ⟨z, rfl, addr, _⟩ := touched_hole (hole_list (hole_here d) before after) apart h
  simp [List.filter_append, addr]

/-- A write to a child that was just appended is part of appending it. -/
theorem update_appended (apart : (l.flatMap addrs).Nodup) (hx : x ∈ l.flatMap items)
    (fresh : y.addr ∉ l.flatMap addrs) (g : Item ν → Item ν) :
    (l.map (Item.update x.addr (setChild (· ++ [y])))).map (Item.update y.addr g) =
      l.map (Item.update x.addr (setChild (· ++ [g y]))) := by
  obtain ⟨fill, rest, hole⟩ := hole_of_mem hx
  have perm := hole.addrs x
  rw [hole.self] at perm
  have unused : y.addr ∉ x.addrs ∧ y.addr ∉ rest := by
    rw [perm.mem_iff, List.mem_append] at fresh
    exact not_or.mp fresh
  rw [addrs_eq, List.mem_cons] at unused
  obtain ⟨other, below⟩ := not_or.mp unused.1
  have here : (x.setChild (· ++ [y])).addr ≠ y.addr := by
    rw [addr_setChild]
    exact fun h => other h.symm
  rw [hole.update_self apart, hole.update_self apart, hole.inside _ _ _ unused.2,
    update_below here, setChild_setChild]
  refine congrArg fill ?_
  have untouched : x.child.map (Item.update y.addr g) = x.child := update_map_of_not_mem g below
  cases x with
  | mk addr string kind child =>
    rw [child_mk] at untouched
    simp only [setChild, List.map_append, List.map_singleton, update_here, untouched]

end Touching

section Separation

/-- The items in memory have different addresses, all of which were given out. -/
structure Separate (heap : Heap ν) : Prop where
  apart : (heap.roots.flatMap addrs).Nodup
  below : ∀ a ∈ heap.roots.flatMap addrs, a < heap.nextAddr

variable {heap : Heap ν} {x z : Item ν}

theorem addr_mem_of_mem {l : List (Item ν)} (hx : x ∈ l.flatMap items) :
    x.addr ∈ l.flatMap addrs := by
  obtain ⟨j, hj, inside⟩ := List.mem_flatMap.mp hx
  exact List.mem_flatMap.mpr ⟨j, hj, List.mem_map_of_mem inside⟩

/-- A pointer to an item in memory leads to it. -/
theorem deref_of_mem (separate : Separate heap) (hx : x ∈ heap.roots.flatMap items) :
    heap.deref x.addr = some x := by
  have apart := separate.apart
  have addresses : heap.roots.flatMap addrs = (heap.roots.flatMap items).map Item.addr := by
    rw [List.map_flatMap]
    rfl
  rw [addresses] at apart
  rw [Heap.deref]
  generalize heap.roots.flatMap items = all at hx apart
  induction all with
  | nil => cases hx
  | cons c rest ih =>
    obtain ⟨first, later⟩ := List.nodup_cons.mp apart
    rcases List.mem_cons.mp hx with rfl | hx
    · simp
    · have other : c.addr ≠ x.addr := fun same => first (same ▸ List.mem_map_of_mem hx)
      rw [List.find?_cons_of_neg (by simpa using other)]
      exact ih hx later

theorem addrs_fewer {f : List (Item ν) → List (Item ν)} (fewer : (f x.child).Sublist x.child) :
    (x.setChild f).addrs.Sublist x.addrs := by
  rw [addrs_eq, addrs_eq x, addr_setChild, child_setChild]
  exact (fewer.flatMap addrs).cons_cons _

/-- Memory after one item was put in place of another. -/
theorem separate_fill {fill : Item ν → List (Item ν)} {rest : List Addr}
    (hole : Hole heap.roots x fill rest) (separate : Separate heap) {next : Addr}
    (more : heap.nextAddr ≤ next) (apart : z.addrs.Nodup)
    (fresh : ∀ a ∈ z.addrs, a ∈ x.addrs ∨ (heap.nextAddr ≤ a ∧ a < next)) :
    Separate ⟨fill z, next⟩ := by
  obtain ⟨_, nodupRest, disjoint⟩ := hole.nodup separate.apart
  have perm := hole.addrs x
  rw [hole.self] at perm
  have old : ∀ a ∈ x.addrs ++ rest, a < heap.nextAddr :=
    fun a ha => separate.below a (perm.mem_iff.mpr ha)
  constructor
  · refine (hole.addrs z).nodup_iff.mpr (List.nodup_append'.mpr ⟨apart, nodupRest, ?_⟩)
    intro a ha hr
    rcases fresh a ha with inside | ⟨unused, _⟩
    · exact disjoint inside hr
    · have used := old a (List.mem_append_right _ hr)
      exact absurd used (Nat.not_lt.mpr unused)
  · intro a ha
    rcases List.mem_append.mp ((hole.addrs z).mem_iff.mp ha) with here | there
    · rcases fresh a here with inside | ⟨_, bound⟩
      · exact Nat.lt_of_lt_of_le (old a (List.mem_append_left _ inside)) more
      · exact bound
    · exact Nat.lt_of_lt_of_le (old a (List.mem_append_right _ there)) more

end Separation

end HeapEdit
