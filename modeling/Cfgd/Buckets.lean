import Mathlib.Data.List.Perm.Basic

/-!
# Items with keys, in buckets

Items are told apart by their keys, up to an equality of keys that a table is given. What is
found under a key does not depend on the order of the items. A list of buckets holds its
items in places that their keys decide, so a search can keep to one bucket. A list that is cut
by a measure of its items is put together from the parts.
-/

namespace Buckets

universe u v
variable {α : Type u} {κ : Type v}

section Keys
variable {same : κ → κ → Bool} {key : α → κ} {k : κ} {l l' : List α} {x : α}

/-- An equality of keys. -/
structure Equality (same : κ → κ → Bool) : Prop where
  refl : ∀ a, same a a = true
  symm : ∀ {a b}, same a b = true → same b a = true
  trans : ∀ {a b c}, same a b = true → same b c = true → same a c = true

variable (same key) in
/-- No two items have the same key. -/
def Apart (l : List α) : Prop := l.Pairwise fun x y => same (key x) (key y) = false

variable (same key) in
/-- The item under a key. -/
def under (l : List α) (k : κ) : Option α := l.find? fun x => same k (key x)

theorem Equality.comm (eqv : Equality same) (a b : κ) : same a b = same b a :=
  Bool.eq_iff_iff.mpr ⟨eqv.symm, eqv.symm⟩

theorem Equality.congr (eqv : Equality same) {a b : κ} (h : same a b = true) (c : κ) :
    same a c = same b c :=
  Bool.eq_iff_iff.mpr ⟨eqv.trans (eqv.symm h), eqv.trans h⟩

theorem apart_perm (eqv : Equality same) (perm : l.Perm l') :
    Apart same key l ↔ Apart same key l' :=
  perm.pairwise_iff fun {a b} h => (eqv.comm (key b) (key a)).trans h

theorem apart_cons : Apart same key (x :: l) ↔
    (∀ y ∈ l, same (key x) (key y) = false) ∧ Apart same key l := List.pairwise_cons

theorem under_cons : under same key (x :: l) k =
    if same k (key x) then some x else under same key l k := by
  rw [under, List.find?_cons]
  cases same k (key x) <;> rfl

theorem under_append : under same key (l ++ l') k =
    (under same key l k).or (under same key l' k) := List.find?_append

theorem mem_of_under (found : under same key l k = some x) : x ∈ l :=
  List.mem_of_find?_eq_some found

theorem same_of_under (found : under same key l k = some x) : same k (key x) = true :=
  List.find?_some (p := fun x => same k (key x)) found

theorem under_eq_none : under same key l k = none ↔ ∀ x ∈ l, same k (key x) = false := by
  simp [under, List.find?_eq_none]

theorem under_of_mem (eqv : Equality same) (apart : Apart same key l) (mem : x ∈ l)
    (right : same k (key x) = true) : under same key l k = some x := by
  induction l with
  | nil => cases mem
  | cons y rest ih =>
    obtain ⟨others, apart⟩ := apart_cons.mp apart
    rw [under_cons]
    rcases List.mem_cons.mp mem with rfl | mem
    · rw [if_pos right]
    · have off : same k (key y) = false := by
        rw [Bool.eq_false_iff]
        intro on
        have both := eqv.trans (eqv.symm on) right
        rw [others x mem] at both
        cases both
      rw [off]
      exact ih apart mem

/-- The order of the items does not matter. -/
theorem under_perm (eqv : Equality same) (apart : Apart same key l) (perm : l.Perm l') (k : κ) :
    under same key l k = under same key l' k := by
  cases found : under same key l k with
  | none =>
    rw [eq_comm, under_eq_none]
    exact fun x mem => under_eq_none.mp found x (perm.mem_iff.mpr mem)
  | some x =>
    exact (under_of_mem eqv ((apart_perm eqv perm).mp apart)
      (perm.mem_iff.mp (mem_of_under found)) (same_of_under found)).symm

/-- What an item that comes in, or goes, is found under. -/
theorem under_of_perm_cons (eqv : Equality same) (apart : Apart same key l)
    (perm : l.Perm (x :: l')) (k : κ) :
    under same key l k = if same k (key x) then some x else under same key l' k := by
  rw [under_perm eqv apart perm, under_cons]

/-- Nothing is found under the key of an item that is gone. -/
theorem under_rest (eqv : Equality same) (apart : Apart same key l) (perm : l.Perm (x :: l'))
    (k : κ) : under same key l' k = if same k (key x) then none else under same key l k := by
  split
  · rename_i right
    obtain ⟨others, _⟩ := apart_cons.mp ((apart_perm eqv perm).mp apart)
    exact under_eq_none.mpr fun y mem => (eqv.congr right (key y)).trans (others y mem)
  · rename_i off
    rw [under_of_perm_cons eqv apart perm, if_neg off]

/-- Items that are changed apart from their keys. -/
theorem under_map (f : α → α) (keeps : ∀ x, key (f x) = key x) (l : List α) (k : κ) :
    under same key (l.map f) k = (under same key l k).map f := by
  induction l with
  | nil => rfl
  | cons x l ih =>
    rw [List.map_cons, under_cons, under_cons, keeps, ih]
    cases same k (key x) <;> rfl

theorem apart_map (f : α → α) (keeps : ∀ x, key (f x) = key x) :
    Apart same key (l.map f) ↔ Apart same key l := by
  simp [Apart, List.pairwise_map, keeps]

end Keys

section Lists
variable {l : List (List α)} {i : Nat} {old new : List α}

/-- Every item lies in the bucket that it is placed in. -/
def Placed (place : α → Nat) (l : List (List α)) : Prop :=
  ∀ i bucket, l[i]? = some bucket → ∀ x ∈ bucket, place x = i

/-- A bucket is exchanged. -/
theorem flatten_set (here : l[i]? = some old) :
    ((l.set i new).flatten ++ old).Perm (l.flatten ++ new) := by
  induction l generalizing i with
  | nil => cases here
  | cons bucket rest ih =>
    cases i with
    | zero =>
      obtain rfl : bucket = old := Option.some.inj here
      rw [List.set_cons_zero, List.flatten_cons, List.flatten_cons, List.append_assoc]
      refine List.perm_append_comm.trans ?_
      rw [List.append_assoc]
      have swapped : (rest.flatten ++ (bucket ++ new)).Perm (bucket ++ (rest.flatten ++ new)) := by
        rw [← List.append_assoc, ← List.append_assoc]
        exact List.perm_append_comm.append_right new
      exact swapped.trans (List.Perm.of_eq (List.append_assoc ..).symm)
    | succ i =>
      rw [List.set_cons_succ, List.flatten_cons, List.flatten_cons, List.append_assoc,
        List.append_assoc]
      exact (ih here).append_left bucket

theorem placed_set {place : α → Nat} (placed : Placed place l)
    (right : ∀ x ∈ new, place x = i) : Placed place (l.set i new) := by
  intro j bucket found x mem
  rw [List.getElem?_set] at found
  split at found
  · rename_i same
    split at found
    · obtain rfl := Option.some.inj found
      exact (right x mem).trans same
    · cases found
  · exact placed j bucket found x mem

theorem placed_replicate (place : α → Nat) (n : Nat) : Placed place (List.replicate n []) := by
  intro i bucket found x mem
  rw [List.getElem?_replicate] at found
  split at found
  · obtain rfl := Option.some.inj found
    cases mem
  · cases found

theorem mem_flatten_of_bucket {x : α} (found : l[i]? = some new) (mem : x ∈ new) :
    x ∈ l.flatten := List.mem_flatten.mpr ⟨new, List.mem_of_getElem? found, mem⟩

/-- The items of a bucket, told apart from all the others. -/
theorem filter_flatten {p : α → Bool} {bucket : List α} (here : l[i]? = some bucket)
    (only : ∀ j other, l[j]? = some other → ∀ x ∈ other, p x = true ↔ j = i) :
    l.flatten.filter p = bucket := by
  induction l generalizing i with
  | nil => cases here
  | cons first rest ih =>
    rw [List.flatten_cons, List.filter_append]
    cases i with
    | zero =>
      obtain rfl : first = bucket := Option.some.inj here
      have none : rest.flatten.filter p = [] := by
        rw [List.filter_eq_nil_iff]
        intro x mem right
        obtain ⟨other, inside, mem⟩ := List.mem_flatten.mp mem
        obtain ⟨j, found⟩ := List.getElem?_of_mem inside
        exact Nat.succ_ne_zero j ((only (j + 1) other found x mem).mp right)
      rw [List.filter_eq_self.mpr fun x mem => (only 0 first rfl x mem).mpr rfl, none,
        List.append_nil]
    | succ i =>
      have none : first.filter p = [] := by
        rw [List.filter_eq_nil_iff]
        intro x mem right
        exact Nat.succ_ne_zero i ((only 0 first rfl x mem).mp right).symm
      rw [none, List.nil_append]
      exact ih here fun j other found x mem =>
        (only (j + 1) other found x mem).trans Nat.add_right_cancel_iff

/-- A search can keep to the bucket where all that it looks for is placed. -/
theorem find_flatten {p : α → Bool} {bucket : List α} (here : l[i]? = some bucket)
    (only : ∀ j other, l[j]? = some other → ∀ x ∈ other, p x = true → j = i) :
    l.flatten.find? p = bucket.find? p := by
  induction l generalizing i with
  | nil => cases here
  | cons first rest ih =>
    rw [List.flatten_cons, List.find?_append]
    cases i with
    | zero =>
      obtain rfl : first = bucket := Option.some.inj here
      have none : rest.flatten.find? p = none := by
        rw [List.find?_eq_none]
        intro x mem right
        obtain ⟨other, inside, mem⟩ := List.mem_flatten.mp mem
        obtain ⟨j, found⟩ := List.getElem?_of_mem inside
        exact Nat.succ_ne_zero j (only (j + 1) other found x mem right)
      rw [none, Option.or_none]
    | succ i =>
      have none : first.find? p = none := by
        rw [List.find?_eq_none]
        intro x mem right
        exact Nat.succ_ne_zero i (only 0 first rfl x mem right).symm
      rw [none, Option.none_or]
      exact ih here fun j other found x mem right =>
        Nat.succ.inj (only (j + 1) other found x mem right)

/-- The first item of a search is taken out. -/
theorem eraseP_of_find {p : α → Bool} {l : List α} {x : α} (found : l.find? p = some x) :
    ∃ front back, l = front ++ x :: back ∧ l.eraseP p = front ++ back := by
  obtain ⟨right, front, back, rfl, before⟩ := List.find?_eq_some_iff_append.mp found
  refine ⟨front, back, rfl, ?_⟩
  have off : ∀ y ∈ front, ¬ p y = true := fun y mem => by simpa using before y mem
  rw [List.eraseP_append_right _ off, List.eraseP_cons_of_pos right]

/-- What is not empty has a bucket that is not empty. -/
theorem exists_filled (filled : l.flatten ≠ []) :
    ∃ (i : Nat) (x : α) (rest : List α), l[i]? = some (x :: rest) := by
  obtain ⟨x, mem⟩ := List.exists_mem_of_ne_nil _ filled
  obtain ⟨bucket, inside, mem⟩ := List.mem_flatten.mp mem
  obtain ⟨i, found⟩ := List.getElem?_of_mem inside
  cases bucket with
  | nil => cases mem
  | cons y rest => exact ⟨i, y, rest, found⟩

end Lists

section Stretches
variable {measure : α → Nat} {a b c : Nat}

variable (measure) in
/-- The measure of an item lies from `a` on and before `b`. -/
def within (a b : Nat) (x : α) : Bool := decide (a ≤ measure x) && decide (measure x < b)

theorem within_iff {x : α} : within measure a b x = true ↔ a ≤ measure x ∧ measure x < b := by
  rw [within, Bool.and_eq_true, decide_eq_true_iff, decide_eq_true_iff]

/-- The items of a stretch are those of its two parts. -/
theorem filter_within_append (first : a ≤ b) (second : b ≤ c) (l : List α) :
    (l.filter (within measure a b) ++ l.filter (within measure b c)).Perm
      (l.filter (within measure a c)) := by
  refine List.Perm.trans (List.Perm.of_eq ?_)
    (List.filter_append_perm (fun x => decide (measure x < b)) (l.filter (within measure a c)))
  rw [List.filter_filter, List.filter_filter]
  congr 1
  · refine List.filter_congr fun x _ => Bool.eq_iff_iff.mpr ?_
    rw [Bool.and_eq_true, within_iff, within_iff, decide_eq_true_iff]
    omega
  · refine List.filter_congr fun x _ => Bool.eq_iff_iff.mpr ?_
    rw [Bool.and_eq_true, within_iff, within_iff, Bool.not_eq_true', decide_eq_false_iff_not]
    omega

theorem filter_within_all (below : ∀ x, measure x < b) (l : List α) :
    l.filter (within measure 0 b) = l :=
  List.filter_eq_self.mpr fun x _ => within_iff.mpr ⟨Nat.zero_le _, below x⟩

end Stretches

end Buckets
