import Mathlib.Data.List.Basic

/-!
# Height-balanced search trees

The tree operations of `avltree.c` over arbitrary values with a key. The
comparison callback is `compare` on the keys. Every operation is specified by
what it does to the sequence of values in key order, so that the shape of the
tree and its rotations never show outside this module.
-/

namespace AvlTree

universe u v

inductive Avl (α : Type u) where
  | nil
  | node (lchild : Avl α) (value : α) (rchild : Avl α) (height : Int)
  deriving Repr

variable {α : Type u} {κ : Type v}

namespace Avl

/-- The macro `HEIGHT`. -/
def heightOf : Avl α → Int
  | nil => -1
  | node _ _ _ height => height

/-- The values in key order. -/
def toList : Avl α → List α
  | nil => []
  | node l x r _ => l.toList ++ x :: r.toList

end Avl

open Avl

/-- A node over two subtrees, with its height recomputed. -/
def withHeight (l : Avl α) (x : α) (r : Avl α) : Avl α :=
  node l x r (max (heightOf l) (heightOf r) + 1)

/-- The rotations are reached only where the child they turn on exists; without
that child they leave the tree as it is. -/
def avlSingleRotateLeft : Avl α → Avl α
  | node (node ll lx lr _) x r _ => withHeight ll lx (withHeight lr x r)
  | tree => tree

def avlSingleRotateRight : Avl α → Avl α
  | node l x (node rl rx rr _) _ => withHeight (withHeight l x rl) rx rr
  | tree => tree

def avlDoubleRotateLeft : Avl α → Avl α
  | node (node ll lx (node ml mx mr _) _) x r _ =>
    withHeight (withHeight ll lx ml) mx (withHeight mr x r)
  | tree => tree

def avlDoubleRotateRight : Avl α → Avl α
  | node l x (node (node ml mx mr _) rx rr _) _ =>
    withHeight (withHeight l x ml) mx (withHeight mr rx rr)
  | tree => tree

section Operations
variable [Ord κ] (key : α → κ)

/-- The root comparison that picks the rotation after an insertion on one side. -/
def rootOrd (value : α) : Avl α → Ordering
  | nil => .eq
  | node _ x _ _ => compare (key value) (key x)

/-- `avlinsert`: a value whose key is already there is not taken. -/
def avlinsert : Avl α → α → Avl α
  | nil, value => node nil value nil 0
  | node l x r height, value => match compare (key value) (key x) with
    | .lt =>
      let l := avlinsert l value
      if heightOf l - heightOf r = 2 then match rootOrd key value l with
        | .lt => avlSingleRotateLeft (node l x r height)
        | .gt => avlDoubleRotateLeft (node l x r height)
        | .eq => node l x r height
      else withHeight l x r
    | .gt =>
      let r := avlinsert r value
      if heightOf r - heightOf l = 2 then match rootOrd key value r with
        | .lt => avlDoubleRotateRight (node l x r height)
        | .gt => avlSingleRotateRight (node l x r height)
        | .eq => node l x r height
      else withHeight l x r
    | .eq => node l x r height

def avlgetmin : Avl α → Option α
  | nil => none
  | node nil x _ _ => some x
  | node l _ _ _ => avlgetmin l

def lchildOf : Avl α → Avl α
  | nil => nil
  | node l _ _ _ => l

def rchildOf : Avl α → Avl α
  | nil => nil
  | node _ _ r _ => r

/-- The last line of `avlremove`: the height of the root is computed again. -/
def refreshHeight : Avl α → Avl α
  | nil => nil
  | node l x r _ => withHeight l x r

/-- The second half of `avlremove`: rotations by the heights of the grandchildren. -/
def avlrebalance (l : Avl α) (x : α) (r : Avl α) : Avl α :=
  refreshHeight <|
    if heightOf l - heightOf r = 2 then
      if heightOf (lchildOf l) - heightOf r = 1 then avlSingleRotateLeft (node l x r 0)
      else if heightOf (rchildOf l) - heightOf r = 1 then avlDoubleRotateLeft (node l x r 0)
      else node l x r 0
    else if heightOf r - heightOf l = 2 then
      if heightOf (rchildOf r) - heightOf l = 1 then avlSingleRotateRight (node l x r 0)
      else if heightOf (lchildOf r) - heightOf l = 1 then avlDoubleRotateRight (node l x r 0)
      else node l x r 0
    else node l x r 0

def avlremove : Avl α → κ → Avl α
  | nil, _ => nil
  | node l x r _, k => match compare k (key x) with
    | .eq => match l, r with
      | l, nil => l
      | nil, r => r
      | l, r => match avlgetmin r with
        | none => l
        | some least => avlrebalance l least (avlremove r (key least))
    | .lt => avlrebalance (avlremove l k) x r
    | .gt => avlrebalance l x (avlremove r k)

def avlsearch : Avl α → κ → Option α
  | nil, _ => none
  | node l x r _, k => match compare k (key x) with
    | .lt => avlsearch l k
    | .gt => avlsearch r k
    | .eq => some x

/-- What a write through the pointer returned by `avlsearch` does to the tree. -/
def modify (f : α → α) : Avl α → κ → Avl α
  | nil, _ => nil
  | node l x r height, k => match compare k (key x) with
    | .lt => node (modify f l k) x r height
    | .gt => node l x (modify f r k) height
    | .eq => node l (f x) r height

end Operations

section Sequences

@[simp] theorem toList_withHeight (l : Avl α) (x : α) (r : Avl α) :
    (withHeight l x r).toList = l.toList ++ x :: r.toList := rfl

@[simp] theorem toList_avlSingleRotateLeft (t : Avl α) :
    (avlSingleRotateLeft t).toList = t.toList := by
  rcases t with _ | ⟨_ | ⟨ll, lx, lr, lh⟩, x, r, h⟩ <;> simp [avlSingleRotateLeft, toList]

@[simp] theorem toList_avlSingleRotateRight (t : Avl α) :
    (avlSingleRotateRight t).toList = t.toList := by
  rcases t with _ | ⟨l, x, _ | ⟨rl, rx, rr, rh⟩, h⟩ <;> simp [avlSingleRotateRight, toList]

@[simp] theorem toList_avlDoubleRotateLeft (t : Avl α) :
    (avlDoubleRotateLeft t).toList = t.toList := by
  rcases t with _ | ⟨_ | ⟨ll, lx, _ | ⟨ml, mx, mr, mh⟩, lh⟩, x, r, h⟩ <;>
    simp [avlDoubleRotateLeft, toList]

@[simp] theorem toList_avlDoubleRotateRight (t : Avl α) :
    (avlDoubleRotateRight t).toList = t.toList := by
  rcases t with _ | ⟨l, x, _ | ⟨_ | ⟨ml, mx, mr, mh⟩, rx, rr, rh⟩, h⟩ <;>
    simp [avlDoubleRotateRight, toList]

@[simp] theorem toList_refreshHeight (t : Avl α) : (refreshHeight t).toList = t.toList := by
  cases t <;> rfl

@[simp] theorem toList_avlrebalance (l : Avl α) (x : α) (r : Avl α) :
    (avlrebalance l x r).toList = l.toList ++ x :: r.toList := by
  rw [avlrebalance, toList_refreshHeight]
  split
  · split
    · simp [toList]
    · split <;> simp [toList]
  · split
    · split
      · simp [toList]
      · split <;> simp [toList]
    · rfl

end Sequences

section Laws
variable [Ord κ] [Std.TransOrd κ] [Std.LawfulEqOrd κ] (key : α → κ)

/-- The keys increase strictly from left to right. -/
def Ordered (t : Avl α) : Prop :=
  t.toList.Pairwise (fun a b => compare (key a) (key b) = .lt)

/-- Insertion into a sequence in key order, dropping a value whose key is there. -/
def insertOrd (value : α) : List α → List α
  | [] => [value]
  | x :: xs => match compare (key value) (key x) with
    | .lt => value :: x :: xs
    | .eq => x :: xs
    | .gt => x :: insertOrd value xs

omit [Std.TransOrd κ] [Std.LawfulEqOrd κ] in
theorem ordered_nil : Ordered key (nil : Avl α) := List.Pairwise.nil

omit [Std.LawfulEqOrd κ] in
theorem compare_lt_trans {a b c : κ} (hab : compare a b = .lt) (hbc : compare b c = .lt) :
    compare a c = .lt := Std.TransCmp.lt_trans hab hbc

omit [Std.LawfulEqOrd κ] in
theorem compare_gt_iff {a b : κ} : compare a b = .gt ↔ compare b a = .lt :=
  Std.OrientedCmp.gt_iff_lt

omit [Std.TransOrd κ] in
theorem ne_of_compare_lt {a b : κ} (h : compare a b = .lt) : a ≠ b := by
  rintro rfl
  have self : compare a a = .eq := Std.ReflCmp.compare_self
  rw [self] at h
  cases h

omit [Std.LawfulEqOrd κ] in
theorem ordered_node {l r : Avl α} {x : α} {h : Int} :
    Ordered key (node l x r h) ↔ Ordered key l ∧ Ordered key r ∧
      (∀ a ∈ l.toList, compare (key a) (key x) = .lt) ∧
      (∀ b ∈ r.toList, compare (key x) (key b) = .lt) := by
  simp only [Ordered, toList, List.pairwise_append, List.pairwise_cons, List.mem_cons]
  constructor
  · rintro ⟨left, ⟨above, right⟩, across⟩
    exact ⟨left, right, fun a ha => across a ha x (Or.inl rfl), above⟩
  · rintro ⟨left, right, below, above⟩
    refine ⟨left, ⟨above, right⟩, ?_⟩
    rintro a ha b (rfl | hb)
    · exact below a ha
    · exact compare_lt_trans (below a ha) (above b hb)

omit [Std.TransOrd κ] in
theorem find_none_of_lt [DecidableEq κ] {k : κ} {xs : List α}
    (h : ∀ b ∈ xs, compare k (key b) = .lt) : xs.find? (fun x => key x = k) = none := by
  rw [List.find?_eq_none]
  intro b hb same
  exact ne_of_compare_lt (h b hb) (of_decide_eq_true same).symm

omit [Std.TransOrd κ] in
theorem find_none_of_gt [DecidableEq κ] {k : κ} {xs : List α}
    (h : ∀ b ∈ xs, compare (key b) k = .lt) : xs.find? (fun x => key x = k) = none := by
  rw [List.find?_eq_none]
  intro b hb same
  exact ne_of_compare_lt (h b hb) (of_decide_eq_true same)

/-- The search finds the value with the key, wherever the tree keeps it. -/
theorem avlsearch_eq_find [DecidableEq κ] {t : Avl α} (ord : Ordered key t) (k : κ) :
    avlsearch key t k = t.toList.find? (fun x => key x = k) := by
  induction t with
  | nil => rfl
  | node l x r h ihl ihr =>
    obtain ⟨left, right, below, above⟩ := (ordered_node key).mp ord
    rw [avlsearch, toList, List.find?_append]
    cases hc : compare k (key x) with
    | lt =>
      have apart : key x ≠ k := (ne_of_compare_lt hc).symm
      have later : r.toList.find? (fun x => key x = k) = none :=
        find_none_of_lt key fun b hb => compare_lt_trans hc (above b hb)
      simp [ihl left, apart, later]
    | eq =>
      have same : k = key x := Std.LawfulEqCmp.compare_eq_iff_eq.mp hc
      have earlier : l.toList.find? (fun y => key y = k) = none :=
        find_none_of_gt key fun a ha => same ▸ below a ha
      rw [earlier]
      simp [same]
    | gt =>
      have beyond := compare_gt_iff.mp hc
      have apart : key x ≠ k := ne_of_compare_lt beyond
      have earlier : l.toList.find? (fun y => key y = k) = none :=
        find_none_of_gt key fun a ha => compare_lt_trans (below a ha) beyond
      simp [ihr right, apart, earlier]

omit [Std.TransOrd κ] [Std.LawfulEqOrd κ] in
theorem insertOrd_left {v x : α} (h : compare (key v) (key x) = .lt) (l r : List α) :
    insertOrd key v (l ++ x :: r) = insertOrd key v l ++ x :: r := by
  induction l with
  | nil => simp [insertOrd, h]
  | cons a l ih =>
    simp only [List.cons_append, insertOrd]
    split <;> simp [ih]

omit [Std.LawfulEqOrd κ] in
theorem insertOrd_right {v : α} {l : List α} (h : ∀ a ∈ l, compare (key a) (key v) = .lt)
    (r : List α) : insertOrd key v (l ++ r) = l ++ insertOrd key v r := by
  induction l with
  | nil => rfl
  | cons a l ih =>
    have past : compare (key v) (key a) = .gt :=
      compare_gt_iff.mpr (h a (List.mem_cons_self ..))
    simp [insertOrd, past, ih fun b hb => h b (List.mem_cons_of_mem _ hb)]

theorem toList_avlinsert {t : Avl α} (ord : Ordered key t) (v : α) :
    (avlinsert key t v).toList = insertOrd key v t.toList := by
  induction t with
  | nil => rfl
  | node l x r h ihl ihr =>
    obtain ⟨left, right, below, above⟩ := (ordered_node key).mp ord
    rw [avlinsert, toList]
    cases hc : compare (key v) (key x) with
    | lt =>
      rw [insertOrd_left key hc, ← ihl left]
      dsimp only
      split
      · split <;> simp [toList]
      · rfl
    | eq =>
      have same : key v = key x := Std.LawfulEqCmp.compare_eq_iff_eq.mp hc
      rw [insertOrd_right key (same ▸ below)]
      simp [insertOrd, hc, toList]
    | gt =>
      have beyond := compare_gt_iff.mp hc
      rw [insertOrd_right key fun a ha => compare_lt_trans (below a ha) beyond]
      simp only [insertOrd, hc, ← ihr right]
      split
      · split <;> simp [toList]
      · rfl

omit [Std.TransOrd κ] [Std.LawfulEqOrd κ] in
theorem mem_insertOrd {v y : α} {xs : List α} (h : y ∈ insertOrd key v xs) :
    y = v ∨ y ∈ xs := by
  induction xs with
  | nil => exact Or.inl (List.mem_singleton.mp h)
  | cons x xs ih =>
    rw [insertOrd] at h
    split at h
    · exact List.mem_cons.mp h
    · exact Or.inr h
    · rcases List.mem_cons.mp h with rfl | later
      · exact Or.inr (List.mem_cons_self ..)
      · exact (ih later).imp id (List.mem_cons_of_mem _)

omit [Std.TransOrd κ] [Std.LawfulEqOrd κ] in
/-- A new key is taken into the sequence. -/
theorem perm_insertOrd {v : α} {xs : List α} (new : ∀ x ∈ xs, compare (key v) (key x) ≠ .eq) :
    (insertOrd key v xs).Perm (v :: xs) := by
  induction xs with
  | nil => exact List.Perm.refl _
  | cons x xs ih =>
    rw [insertOrd]
    split
    · exact List.Perm.refl _
    · rename_i same
      exact absurd same (new x (List.mem_cons_self ..))
    · have later := ih fun y hy => new y (List.mem_cons_of_mem _ hy)
      exact (later.cons x).trans (List.Perm.swap v x xs)

omit [Std.LawfulEqOrd κ] in
theorem pairwise_insertOrd {v : α} {xs : List α}
    (h : xs.Pairwise (fun a b => compare (key a) (key b) = .lt)) :
    (insertOrd key v xs).Pairwise (fun a b => compare (key a) (key b) = .lt) := by
  induction xs with
  | nil => exact List.pairwise_singleton _ _
  | cons x xs ih =>
    obtain ⟨above, later⟩ := List.pairwise_cons.mp h
    rw [insertOrd]
    split
    · rename_i hc
      refine List.pairwise_cons.mpr ⟨?_, h⟩
      intro b hb
      rcases List.mem_cons.mp hb with rfl | hb
      · exact hc
      · exact compare_lt_trans hc (above b hb)
    · exact h
    · rename_i hc
      refine List.pairwise_cons.mpr ⟨?_, ih later⟩
      intro b hb
      rcases mem_insertOrd key hb with rfl | hb
      · exact compare_gt_iff.mp hc
      · exact above b hb

theorem ordered_avlinsert {t : Avl α} (ord : Ordered key t) (v : α) :
    Ordered key (avlinsert key t v) := by
  rw [Ordered, toList_avlinsert key ord]
  exact pairwise_insertOrd key ord

theorem find_insertOrd [DecidableEq κ] {v : α} {xs : List α} (k : κ)
    (h : xs.Pairwise (fun a b => compare (key a) (key b) = .lt)) :
    (insertOrd key v xs).find? (fun x => key x = k) =
      if key v = k then some ((xs.find? (fun x => key x = k)).getD v)
      else xs.find? (fun x => key x = k) := by
  induction xs with
  | nil => by_cases same : key v = k <;> simp [insertOrd, same]
  | cons x xs ih =>
    obtain ⟨above, later⟩ := List.pairwise_cons.mp h
    rw [insertOrd]
    cases hc : compare (key v) (key x) with
    | lt =>
      by_cases same : key v = k
      · have none : (x :: xs).find? (fun x => key x = k) = none := by
          refine find_none_of_lt key fun b hb => ?_
          rcases List.mem_cons.mp hb with rfl | hb
          · exact same ▸ hc
          · exact same ▸ compare_lt_trans hc (above b hb)
        simp only [same, if_true, none, Option.getD_none]
        simp [same]
      · simp [same]
    | eq =>
      have equal : key v = key x := Std.LawfulEqCmp.compare_eq_iff_eq.mp hc
      by_cases same : key v = k
      · simp [same, ← equal]
      · simp [same]
    | gt =>
      by_cases here : key x = k
      · have apart : key v ≠ k := fun same =>
          ne_of_compare_lt (compare_gt_iff.mp hc) (here.trans same.symm)
        simp [here, apart]
      · simp [here, ih later]

theorem avlsearch_avlinsert [DecidableEq κ] {t : Avl α} (ord : Ordered key t) (v : α) (k : κ) :
    avlsearch key (avlinsert key t v) k =
      if key v = k then some ((avlsearch key t k).getD v) else avlsearch key t k := by
  rw [avlsearch_eq_find key (ordered_avlinsert key ord v), avlsearch_eq_find key ord,
    toList_avlinsert key ord]
  exact find_insertOrd key k ord

theorem mem_toList_iff [DecidableEq κ] {t : Avl α} (ord : Ordered key t) {x : α} :
    x ∈ t.toList ↔ avlsearch key t (key x) = some x := by
  rw [avlsearch_eq_find key ord]
  constructor
  · intro hx
    obtain ⟨before, after, split⟩ := List.append_of_mem hx
    have apart : ∀ a ∈ before, compare (key a) (key x) = .lt := by
      intro a ha
      rw [Ordered, split, List.pairwise_append] at ord
      exact ord.2.2 a ha x (List.mem_cons_self ..)
    rw [split, List.find?_append, find_none_of_gt key apart]
    simp
  · exact List.mem_of_find?_eq_some

omit [Std.TransOrd κ] in
theorem key_of_avlsearch {t : Avl α} {k : κ} {x : α} (h : avlsearch key t k = some x) :
    key x = k := by
  induction t with
  | nil => cases h
  | node l y r height ihl ihr =>
    rw [avlsearch] at h
    cases hc : compare k (key y) with
    | lt => exact ihl (by simpa only [hc] using h)
    | gt => exact ihr (by simpa only [hc] using h)
    | eq =>
      have same : k = key y := Std.LawfulEqCmp.compare_eq_iff_eq.mp hc
      simp only [hc, Option.some.injEq] at h
      rw [← h, same]

omit [Std.TransOrd κ] [Std.LawfulEqOrd κ] in
theorem mem_of_avlsearch {t : Avl α} {k : κ} {x : α} (h : avlsearch key t k = some x) :
    x ∈ t.toList := by
  induction t with
  | nil => cases h
  | node l y r height ihl ihr =>
    rw [avlsearch] at h
    rw [toList, List.mem_append, List.mem_cons]
    cases hc : compare k (key y) with
    | lt => exact Or.inl (ihl (by simpa only [hc] using h))
    | gt => exact Or.inr (Or.inr (ihr (by simpa only [hc] using h)))
    | eq =>
      simp only [hc, Option.some.injEq] at h
      exact Or.inr (Or.inl h.symm)

theorem head_toList_avlgetmin (t : Avl α) : avlgetmin t = t.toList.head? := by
  induction t with
  | nil => rfl
  | node l x r h ihl ihr =>
    cases l with
    | nil => rfl
    | node ll lx lr lh =>
      rw [avlgetmin, ihl]
      · simp [toList]
      · intro h
        cases h

omit [Std.TransOrd κ] in
theorem filter_ne_of_lt [DecidableEq κ] {k : κ} {xs : List α}
    (h : ∀ b ∈ xs, compare k (key b) = .lt) : xs.filter (fun x => key x ≠ k) = xs := by
  rw [List.filter_eq_self]
  intro b hb
  exact decide_eq_true (ne_of_compare_lt (h b hb)).symm

omit [Std.TransOrd κ] in
theorem filter_ne_of_gt [DecidableEq κ] {k : κ} {xs : List α}
    (h : ∀ b ∈ xs, compare (key b) k = .lt) : xs.filter (fun x => key x ≠ k) = xs := by
  rw [List.filter_eq_self]
  intro b hb
  exact decide_eq_true (ne_of_compare_lt (h b hb))

/-- Removal takes the value with the key out of the sequence, and nothing else. -/
theorem toList_avlremove [DecidableEq κ] {t : Avl α} (ord : Ordered key t) (k : κ) :
    (avlremove key t k).toList = t.toList.filter (fun x => key x ≠ k) := by
  induction t generalizing k with
  | nil => rfl
  | node l x r h ihl ihr =>
    obtain ⟨left, right, below, above⟩ := (ordered_node key).mp ord
    rw [avlremove.eq_def, toList, List.filter_append, List.filter_cons]
    cases hc : compare k (key x) with
    | lt =>
      have apart : key x ≠ k := (ne_of_compare_lt hc).symm
      have later := filter_ne_of_lt key fun b hb => compare_lt_trans hc (above b hb)
      rw [later]
      simp [hc, ihl left, apart]
    | gt =>
      have beyond := compare_gt_iff.mp hc
      have apart : key x ≠ k := ne_of_compare_lt beyond
      have earlier := filter_ne_of_gt key fun a ha => compare_lt_trans (below a ha) beyond
      rw [earlier]
      simp [hc, ihr right, apart]
    | eq =>
      obtain rfl : k = key x := Std.LawfulEqCmp.compare_eq_iff_eq.mp hc
      have earlier := filter_ne_of_gt key below
      have later := filter_ne_of_lt key above
      rw [earlier, later]
      rcases r with _ | ⟨rl, rx, rr, rh⟩
      · simp [toList]
      · cases l with
        | nil => simp [toList]
        | node ll lx lr lh =>
          have first := head_toList_avlgetmin (node rl rx rr rh)
          cases hm : avlgetmin (node rl rx rr rh) with
          | none => simp [hm, toList] at first
          | some least =>
            obtain ⟨rest, front⟩ := List.head?_eq_some_iff.mp (first.symm.trans hm)
            have smallest : ∀ b ∈ rest, compare (key least) (key b) = .lt := by
              rw [Ordered, front] at right
              exact (List.pairwise_cons.mp right).1
            have others := filter_ne_of_lt key smallest
            simp only [hc, hm, toList_avlrebalance, ihr right, front, List.filter_cons, others]
            simp

/-- Removal of a value that is there takes it out once. -/
theorem perm_avlremove [DecidableEq κ] {t : Avl α} (ord : Ordered key t) {x : α}
    (hx : x ∈ t.toList) : t.toList.Perm (x :: (avlremove key t (key x)).toList) := by
  rw [toList_avlremove key ord]
  obtain ⟨before, after, split⟩ := List.append_of_mem hx
  rw [Ordered, split, List.pairwise_append, List.pairwise_cons] at ord
  obtain ⟨_, ⟨above, _⟩, across⟩ := ord
  have earlier := filter_ne_of_gt key fun a ha => across a ha x (List.mem_cons_self ..)
  have later := filter_ne_of_lt key above
  have gone : (x :: after).filter (fun y => key y ≠ key x) = after := by
    rw [List.filter_cons, if_neg (by simp), later]
  rw [split, List.filter_append, earlier, gone]
  exact List.perm_middle

theorem ordered_avlremove [DecidableEq κ] {t : Avl α} (ord : Ordered key t) (k : κ) :
    Ordered key (avlremove key t k) := by
  rw [Ordered, toList_avlremove key ord]
  exact List.Pairwise.filter _ ord

theorem avlsearch_avlremove [DecidableEq κ] {t : Avl α} (ord : Ordered key t) (k k' : κ) :
    avlsearch key (avlremove key t k) k' =
      if k' = k then none else avlsearch key t k' := by
  rw [avlsearch_eq_find key (ordered_avlremove key ord k), avlsearch_eq_find key ord,
    toList_avlremove key ord, List.find?_filter]
  by_cases same : k' = k
  · simp [same]
  · rw [if_neg same]
    congr 1
    funext x
    by_cases here : key x = k'
    · simp [here, same]
    · simp [here]

theorem avlsearch_modify [DecidableEq κ] {f : α → α} {t : Avl α} {k : κ}
    (keeps : ∀ x, avlsearch key t k = some x → key (f x) = key x) (k' : κ) :
    avlsearch key (modify key f t k) k' =
      if k' = k then (avlsearch key t k).map f else avlsearch key t k' := by
  induction t with
  | nil => simp [modify, avlsearch]
  | node l x r h ihl ihr =>
    have other : ∀ {o o' : Ordering}, compare k (key x) = o → compare k' (key x) = o' →
        o ≠ o' → k' ≠ k := by
      rintro o o' hc hc' apart rfl
      exact apart (hc.symm.trans hc')
    rw [modify]
    rw [avlsearch] at keeps
    cases hc : compare k (key x) with
    | lt =>
      simp only [hc] at keeps
      simp only [avlsearch, hc, ihl keeps]
      cases hc' : compare k' (key x) with
      | lt => rfl
      | eq => simp [other hc hc' (by decide)]
      | gt => simp [other hc hc' (by decide)]
    | gt =>
      simp only [hc] at keeps
      simp only [avlsearch, hc, ihr keeps]
      cases hc' : compare k' (key x) with
      | gt => rfl
      | eq => simp [other hc hc' (by decide)]
      | lt => simp [other hc hc' (by decide)]
    | eq =>
      simp only [hc] at keeps
      obtain rfl : k = key x := Std.LawfulEqCmp.compare_eq_iff_eq.mp hc
      simp only [avlsearch, keeps x rfl, hc, Option.map_some]
      cases hc' : compare k' (key x) with
      | eq =>
        obtain rfl : k' = key x := Std.LawfulEqCmp.compare_eq_iff_eq.mp hc'
        simp
      | lt => simp [ne_of_compare_lt hc']
      | gt => simp [(ne_of_compare_lt (compare_gt_iff.mp hc')).symm]

omit [Std.TransOrd κ] [Std.LawfulEqOrd κ] in
/-- A write depends on what it makes of the node found. -/
theorem modify_congr {f g : α → α} {t : Avl α} {k : κ}
    (same : ∀ x, avlsearch key t k = some x → f x = g x) : modify key f t k = modify key g t k := by
  induction t with
  | nil => rfl
  | node l x r h ihl ihr =>
    rw [avlsearch] at same
    rw [modify, modify]
    cases hc : compare k (key x) with
    | lt =>
      simp only [hc] at same ⊢
      rw [ihl same]
    | gt =>
      simp only [hc] at same ⊢
      rw [ihr same]
    | eq =>
      simp only [hc] at same ⊢
      rw [same x rfl]

omit [Std.TransOrd κ] [Std.LawfulEqOrd κ] in
theorem modify_id (t : Avl α) (k : κ) : modify key (fun x => x) t k = t := by
  induction t with
  | nil => rfl
  | node l x r h ihl ihr =>
    rw [modify, ihl, ihr]
    cases compare k (key x) <;> rfl

theorem toList_modify [DecidableEq κ] {f : α → α} {t : Avl α} (ord : Ordered key t) (k : κ) :
    (modify key f t k).toList = t.toList.map (fun x => if key x = k then f x else x) := by
  induction t with
  | nil => rfl
  | node l x r h ihl ihr =>
    obtain ⟨left, right, below, above⟩ := (ordered_node key).mp ord
    have keep : ∀ {xs : List α}, (∀ b ∈ xs, key b ≠ k) →
        xs.map (fun x => if key x = k then f x else x) = xs := by
      intro xs h
      conv_rhs => rw [← List.map_id xs]
      exact List.map_congr_left fun b hb => if_neg (h b hb)
    rw [modify, toList, List.map_append, List.map_cons]
    cases hc : compare k (key x) with
    | lt =>
      have later := keep fun b hb => (ne_of_compare_lt (compare_lt_trans hc (above b hb))).symm
      simp [toList, ihl left, later, (ne_of_compare_lt hc).symm]
    | gt =>
      have beyond := compare_gt_iff.mp hc
      have earlier := keep fun a ha => ne_of_compare_lt (compare_lt_trans (below a ha) beyond)
      simp [toList, ihr right, earlier, ne_of_compare_lt beyond]
    | eq =>
      obtain rfl : k = key x := Std.LawfulEqCmp.compare_eq_iff_eq.mp hc
      have earlier := keep fun a ha => ne_of_compare_lt (below a ha)
      have later := keep fun b hb => (ne_of_compare_lt (above b hb)).symm
      simp [toList, earlier, later]

theorem ordered_modify [DecidableEq κ] {f : α → α} {t : Avl α} {k : κ}
    (keeps : ∀ x, avlsearch key t k = some x → key (f x) = key x) (ord : Ordered key t) :
    Ordered key (modify key f t k) := by
  have same : ∀ x ∈ t.toList, key (if key x = k then f x else x) = key x := by
    intro x hx
    split
    · rename_i here
      exact keeps x (here ▸ (mem_toList_iff key ord).mp hx)
    · rfl
  rw [Ordered, toList_modify key ord, List.pairwise_map]
  refine List.Pairwise.imp_of_mem ?_ ord
  intro a b ha hb lt
  rw [same a ha, same b hb]
  exact lt

end Laws

end AvlTree
