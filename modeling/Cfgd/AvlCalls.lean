import Cfgd.AvlHeight
import Mathlib.Data.Finset.Basic

/-!
# Calls of `avltree.c` with a caller's comparator

The operations as the code writes them, with a comparator that returns an `int` and with
the out-parameter of `avlremove`. Where the sign of the comparator is a total preorder,
its classes of equal nodes are keys, and the operations are those of `AvlTree` on them.
Along any sequence of calls the tree is then an ordered, balanced account of a set.
-/

namespace AvlCalls

open AvlTree AvlTree.Avl AvlHeight

universe u
variable {α : Type u}

section Source
variable (compare : α → α → Int)

/-- `compare(node, tree)` where the tree has a root. -/
def compareRoot (value : α) : Avl α → Int
  | nil => 0
  | .node _ x _ _ => compare value x

def avlinsert : Avl α → α → Avl α
  | nil, value => .node nil value nil 0
  | .node l x r height, value =>
    if compare value x < 0 then
      let l := avlinsert l value
      if heightOf l - heightOf r = 2 then
        if compareRoot compare value l < 0 then avlSingleRotateLeft (.node l x r height)
        else if compareRoot compare value l > 0 then avlDoubleRotateLeft (.node l x r height)
        else .node l x r height
      else withHeight l x r
    else if compare value x > 0 then
      let r := avlinsert r value
      if heightOf r - heightOf l = 2 then
        if compareRoot compare value r < 0 then avlDoubleRotateRight (.node l x r height)
        else if compareRoot compare value r > 0 then avlSingleRotateRight (.node l x r height)
        else .node l x r height
      else withHeight l x r
    else .node l x r height

/-- `avlremove`, with what `*rmnode` holds before and after. An empty tree leaves it. -/
def avlremove : Avl α → α → Option α → Avl α × Option α
  | nil, _, rmnode => (nil, rmnode)
  | .node l x r _, value, _ =>
    if compare value x = 0 then
      match l, r with
      | nil, r => (r, some x)
      | l, nil => (l, some x)
      | l, r => match avlgetmin r with
        | none => (l, some x)
        | some tmpnode =>
          -- the nested call reports the node that moves up; the report is overwritten
          (avlrebalance l tmpnode (avlremove r tmpnode none).1, some x)
    else if compare value x < 0 then
      let (l, rmnode) := avlremove l value none
      (avlrebalance l x r, rmnode)
    else
      let (r, rmnode) := avlremove r value none
      (avlrebalance l x r, rmnode)

def avlsearch : Avl α → α → Option α
  | nil, _ => none
  | .node l x r _, value =>
    if compare value x < 0 then avlsearch l value
    else if compare value x > 0 then avlsearch r value
    else some x

end Source

/-- The sign of the comparator is a total preorder. -/
structure TotalPreorder (compare : α → α → Int) : Prop where
  opposite : ∀ a b, compare a b < 0 ↔ 0 < compare b a
  trans : ∀ a b c, compare a b ≤ 0 → compare b c ≤ 0 → compare a c ≤ 0

section Preorder
variable {compare : α → α → Int} (pre : TotalPreorder compare)

def order (ret : Int) : Ordering :=
  if ret < 0 then .lt else if 0 < ret then .gt else .eq

theorem order_lt {ret : Int} : order ret = .lt ↔ ret < 0 := by
  rw [order]
  split
  · simp [*]
  · split <;> simp [*]

theorem order_eq {ret : Int} : order ret = .eq ↔ ret = 0 := by
  rw [order]
  split
  · simp only [reduceCtorEq, false_iff]
    omega
  · split
    · simp only [reduceCtorEq, false_iff]
      omega
    · simp only [true_iff]
      omega

include pre

theorem compare_self (a : α) : compare a a = 0 := by
  have both := pre.opposite a a
  omega

theorem opposite_eq {a b : α} (h : compare a b = 0) : compare b a = 0 := by
  have one := pre.opposite a b
  have other := pre.opposite b a
  omega

theorem trans_eq {a b c : α} (hab : compare a b = 0) (hbc : compare b c = 0) :
    compare a c = 0 := by
  have forth := pre.trans a b c (by omega) (by omega)
  have hba := opposite_eq pre hab
  have hcb := opposite_eq pre hbc
  have back := pre.trans c b a (by omega) (by omega)
  have sign := pre.opposite a c
  omega

/-- Equal nodes compare in the same way with every other node. -/
theorem order_congr {a b c d : α} (hab : compare a b = 0) (hcd : compare c d = 0) :
    order (compare a c) = order (compare b d) := by
  have hba := opposite_eq pre hab
  have hdc := opposite_eq pre hcd
  have le : compare a c ≤ 0 ↔ compare b d ≤ 0 :=
    ⟨fun h => pre.trans _ _ _ (pre.trans _ _ _ hba.le h) hcd.le,
      fun h => pre.trans _ _ _ (pre.trans _ _ _ hab.le h) hdc.le⟩
  have ge : compare c a ≤ 0 ↔ compare d b ≤ 0 :=
    ⟨fun h => pre.trans _ _ _ (pre.trans _ _ _ hdc.le h) hab.le,
      fun h => pre.trans _ _ _ (pre.trans _ _ _ hcd.le h) hba.le⟩
  have signs := pre.opposite a c
  have signs' := pre.opposite b d
  have signs'' := pre.opposite c a
  have signs''' := pre.opposite d b
  have low : compare a c < 0 ↔ compare b d < 0 := by omega
  have high : 0 < compare a c ↔ 0 < compare b d := by omega
  simp only [order, low, high]

end Preorder

section Keys
variable {compare : α → α → Int} (pre : TotalPreorder compare)

/-- The nodes that compare as equal are one key. -/
def sameKey : Setoid α where
  r a b := compare a b = 0
  iseqv := ⟨compare_self pre, opposite_eq pre, trans_eq pre⟩

def Key : Type u := Quotient (sameKey pre)

def keyOf (value : α) : Key pre := Quotient.mk (sameKey pre) value

theorem keyOf_eq {a b : α} : keyOf pre a = keyOf pre b ↔ compare a b = 0 :=
  ⟨fun h => Quotient.exact h, fun h => Quotient.sound (s := sameKey pre) h⟩

instance : DecidableEq (Key pre) :=
  have : ∀ a b : α, Decidable ((sameKey pre).r a b) :=
    fun a b => inferInstanceAs (Decidable (compare a b = 0))
  inferInstanceAs (DecidableEq (Quotient (sameKey pre)))

instance : Ord (Key pre) where
  compare := Quotient.lift₂ (fun a b => order (compare a b))
    fun _ _ _ _ hab hcd => order_congr pre hab hcd

instance : Std.TransOrd (Key pre) where
  eq_swap {a b} := by
    induction a using Quotient.ind
    induction b using Quotient.ind
    rename_i a b
    have forth := pre.opposite a b
    have back := pre.opposite b a
    show order (compare a b) = (order (compare b a)).swap
    rw [order, order]
    split
    · rw [if_neg (by omega), if_pos (by omega)]
      rfl
    · split
      · rw [if_pos (by omega)]
        rfl
      · rw [if_neg (by omega), if_neg (by omega)]
        rfl
  isLE_trans {a b c} := by
    induction a using Quotient.ind
    induction b using Quotient.ind
    induction c using Quotient.ind
    rename_i a b c
    have isLE : ∀ ret, (order ret).isLE ↔ ret ≤ 0 := by
      intro ret
      rw [order]
      split
      · simp only [Ordering.isLE, true_iff]
        omega
      · split
        · simp only [Ordering.isLE, Bool.false_eq_true, false_iff]
          omega
        · simp only [Ordering.isLE, true_iff]
          omega
    intro hab hbc
    exact (isLE _).mpr (pre.trans a b c ((isLE _).mp hab) ((isLE _).mp hbc))

instance : Std.LawfulEqOrd (Key pre) where
  eq_of_compare {a b} := by
    induction a using Quotient.ind
    induction b using Quotient.ind
    intro same
    exact (keyOf_eq pre).mpr (order_eq.mp same)
  compare_self {a} := by
    induction a using Quotient.ind
    rename_i a
    exact order_eq.mpr (compare_self pre a)

end Keys

section Agreement
universe v
variable {κ : Type v} [Ord κ] {compare : α → α → Int} {key : α → κ}

/-- The comparator compares keys. -/
def Compares (compare : α → α → Int) (key : α → κ) : Prop :=
  ∀ a b, Ord.compare (key a) (key b) = order (compare a b)

variable (compares : Compares compare key)
include compares

theorem avlsearch_eq (t : Avl α) (value : α) :
    avlsearch compare t value = AvlTree.avlsearch key t (key value) := by
  induction t with
  | nil => rfl
  | node l x r height ihl ihr =>
    rw [avlsearch, AvlTree.avlsearch, compares, order, ihl, ihr]
    by_cases low : compare value x < 0
    · simp only [low, if_true]
    · by_cases high : 0 < compare value x
      · simp only [low, high, if_true, if_false]
      · simp only [low, high, if_false]

theorem avlinsert_eq (t : Avl α) (value : α) :
    avlinsert compare t value = AvlTree.avlinsert key t value := by
  induction t with
  | nil => rfl
  | node l x r height ihl ihr =>
    have root : ∀ t : Avl α, rootOrd key value t = order (compareRoot compare value t) := by
      intro t
      cases t with
      | nil => rfl
      | node _ x _ _ => exact compares value x
    rw [avlinsert, AvlTree.avlinsert, compares, order, ihl, ihr]
    by_cases low : compare value x < 0
    · simp only [low, if_true, root, order]
      split
      · split
        · rfl
        · split <;> rfl
      · rfl
    · by_cases high : 0 < compare value x
      · simp only [low, high, if_true, if_false, root, order]
        split
        · split
          · rfl
          · split <;> rfl
        · rfl
      · simp only [low, high, if_false]

/-- What is reported is the node that a search for the key would have found. -/
theorem avlremove_eq (t : Avl α) (value : α) :
    avlremove compare t value none =
      (AvlTree.avlremove key t (key value),
        AvlTree.avlsearch key t (key value)) := by
  induction t generalizing value with
  | nil => rfl
  | node l x r height ihl ihr =>
    rw [avlremove.eq_def, AvlTree.avlremove.eq_def, AvlTree.avlsearch]
    dsimp only
    rw [compares, order]
    by_cases low : compare value x < 0
    · simp only [low, if_true, if_neg (show ¬ compare value x = 0 by omega), ihl]
    · by_cases high : 0 < compare value x
      · simp only [low, high, if_true, if_false, if_neg (show ¬ compare value x = 0 by omega), ihr]
      · simp only [low, high, if_false, if_pos (show compare value x = 0 by omega)]
        rcases l with _ | ⟨ll, lx, lr, lh⟩
        · cases r <;> rfl
        · rcases r with _ | ⟨rl, rx, rr, rh⟩
          · rfl
          · dsimp only
            cases avlgetmin (node rl rx rr rh) with
            | none => rfl
            | some tmpnode => simp only [ihr]

end Agreement

section Calls
variable {compare : α → α → Int} (pre : TotalPreorder compare)

inductive Call (α : Type u) where
  | insert (value : α)
  | remove (value : α)

def perform (compare : α → α → Int) (tree : Avl α) : Call α → Avl α
  | .insert value => avlinsert compare tree value
  | .remove value => (avlremove compare tree value none).1

def treeAfter (compare : α → α → Int) (calls : List (Call α)) : Avl α :=
  calls.foldl (perform compare) nil

def performKeys (keys : Finset (Key pre)) : Call α → Finset (Key pre)
  | .insert value => insert (keyOf pre value) keys
  | .remove value => keys.erase (keyOf pre value)

/-- The set that the calls describe. -/
def keysAfter (calls : List (Call α)) : Finset (Key pre) := calls.foldl (performKeys pre) ∅

/-- The tree is an ordered and balanced account of the keys, and each operation does to it
what its name says. -/
structure Accounts (tree : Avl α) (keys : Finset (Key pre)) : Prop where
  ordered : tree.toList.Pairwise (fun a b => compare a b < 0)
  balanced : Balanced tree
  keys_eq : ∀ k, k ∈ keys ↔ ∃ x ∈ tree.toList, keyOf pre x = k
  search : ∀ value, (∃ x, avlsearch compare tree value = some x) ↔ keyOf pre value ∈ keys
  searched : ∀ value x, avlsearch compare tree value = some x →
    x ∈ tree.toList ∧ compare value x = 0
  inserted : ∀ value, keyOf pre value ∉ keys →
    (avlinsert compare tree value).toList.Perm (value :: tree.toList)
  duplicate : ∀ value, keyOf pre value ∈ keys → avlinsert compare tree value = tree
  removed : ∀ value, keyOf pre value ∈ keys → ∃ x rest,
    avlremove compare tree value none = (rest, some x) ∧ compare value x = 0 ∧
      tree.toList.Perm (x :: rest.toList)
  absent : ∀ value, keyOf pre value ∉ keys → avlremove compare tree value none = (tree, none)

theorem compares_keyOf : Compares compare (keyOf pre) := fun _ _ => rfl

theorem avlsearch_iff {tree : Avl α} (ord : AvlTree.Ordered (keyOf pre) tree) (k : Key pre) :
    (∃ x, AvlTree.avlsearch (keyOf pre) tree k = some x) ↔
      ∃ x ∈ tree.toList, keyOf pre x = k := by
  constructor
  · rintro ⟨x, found⟩
    exact ⟨x, mem_of_avlsearch _ found, key_of_avlsearch _ found⟩
  · rintro ⟨x, stored, rfl⟩
    exact ⟨x, (mem_toList_iff _ ord).mp stored⟩

/-- Order, balance and the right keys are all that the operations rely on. -/
theorem accounts_of {tree : Avl α} {keys : Finset (Key pre)}
    (ord : AvlTree.Ordered (keyOf pre) tree) (balanced : Balanced tree)
    (keys_eq : ∀ k, k ∈ keys ↔ ∃ x ∈ tree.toList, keyOf pre x = k) : Accounts pre tree keys := by
  have present : ∀ value, keyOf pre value ∈ keys →
      ∃ x, AvlTree.avlsearch (keyOf pre) tree (keyOf pre value) = some x :=
    fun value there => (avlsearch_iff pre ord _).mpr ((keys_eq _).mp there)
  have missing : ∀ value, keyOf pre value ∉ keys →
      AvlTree.avlsearch (keyOf pre) tree (keyOf pre value) = none := by
    intro value new
    rw [Option.eq_none_iff_forall_ne_some]
    intro x found
    exact new ((keys_eq _).mpr ((avlsearch_iff pre ord _).mp ⟨x, found⟩))
  constructor
  case ordered => exact ord.imp fun lt => order_lt.mp lt
  case balanced => exact balanced
  case keys_eq => exact keys_eq
  case search =>
    intro value
    rw [avlsearch_eq (compares_keyOf pre), keys_eq]
    exact avlsearch_iff pre ord _
  case searched =>
    intro value x found
    rw [avlsearch_eq (compares_keyOf pre)] at found
    exact ⟨mem_of_avlsearch _ found, (keyOf_eq pre).mp (key_of_avlsearch _ found).symm⟩
  case inserted =>
    intro value new
    rw [avlinsert_eq (compares_keyOf pre), toList_avlinsert _ ord]
    refine perm_insertOrd _ fun x stored same => new ((keys_eq _).mpr ⟨x, stored, ?_⟩)
    exact (Std.LawfulEqCmp.compare_eq_iff_eq.mp same).symm
  case duplicate =>
    intro value there
    obtain ⟨x, found⟩ := present value there
    rw [avlinsert_eq (compares_keyOf pre)]
    exact avlinsert_present _ balanced found
  case removed =>
    intro value there
    obtain ⟨x, found⟩ := present value there
    have same := key_of_avlsearch _ found
    refine ⟨x, AvlTree.avlremove (keyOf pre) tree (keyOf pre value), ?_,
      (keyOf_eq pre).mp same.symm, ?_⟩
    · rw [avlremove_eq (compares_keyOf pre), found]
    · rw [← same]
      exact perm_avlremove _ ord (mem_of_avlsearch _ found)
  case absent =>
    intro value new
    rw [avlremove_eq (compares_keyOf pre), missing value new,
      avlremove_absent _ balanced (missing value new)]

/-- One call keeps the account. -/
theorem accounts_perform {tree : Avl α} {keys : Finset (Key pre)}
    (h : Accounts pre tree keys) (call : Call α) :
    Accounts pre (perform compare tree call) (performKeys pre keys call) := by
  have ord : AvlTree.Ordered (keyOf pre) tree := h.ordered.imp fun lt => order_lt.mpr lt
  cases call with
  | insert value =>
    have made : perform compare tree (.insert value) = AvlTree.avlinsert (keyOf pre) tree value :=
      avlinsert_eq (compares_keyOf pre) tree value
    refine accounts_of pre ?_ ?_ fun k => ?_
    · rw [made]
      exact ordered_avlinsert _ ord value
    · rw [made]
      exact balanced_avlinsert _ h.balanced value
    · rw [performKeys, Finset.mem_insert, perform]
      by_cases there : keyOf pre value ∈ keys
      · rw [h.duplicate value there, ← h.keys_eq]
        exact or_iff_right_of_imp fun same => same ▸ there
      · have stored := fun x => (h.inserted value there).mem_iff (a := x)
        simp only [stored, List.mem_cons, exists_eq_or_imp, h.keys_eq]
        exact or_congr_left eq_comm
  | remove value =>
    have made : perform compare tree (.remove value) =
        AvlTree.avlremove (keyOf pre) tree (keyOf pre value) := by
      rw [perform, avlremove_eq (compares_keyOf pre)]
    refine accounts_of pre ?_ ?_ fun k => ?_
    · rw [made]
      exact ordered_avlremove _ ord _
    · rw [made]
      exact (balanced_avlremove _ h.balanced _).1
    · rw [performKeys, Finset.mem_erase, made, toList_avlremove _ ord, h.keys_eq]
      simp only [List.mem_filter, decide_eq_true_eq]
      constructor
      · rintro ⟨other, x, stored, rfl⟩
        exact ⟨x, ⟨stored, other⟩, rfl⟩
      · rintro ⟨x, ⟨stored, other⟩, rfl⟩
        exact ⟨other, x, stored, rfl⟩

theorem accounts_foldl {tree : Avl α} {keys : Finset (Key pre)} (h : Accounts pre tree keys)
    (calls : List (Call α)) :
    Accounts pre (calls.foldl (perform compare) tree) (calls.foldl (performKeys pre) keys) := by
  induction calls generalizing tree keys with
  | nil => exact h
  | cons call rest ih => exact ih (accounts_perform pre h call)

/-- The tree that any sequence of calls builds is an account of the set that the calls
describe. -/
theorem accounts_treeAfter (calls : List (Call α)) :
    Accounts pre (treeAfter compare calls) (keysAfter pre calls) := by
  refine accounts_foldl pre (accounts_of pre (ordered_nil _) .nil fun k => ?_) calls
  simp [toList]

end Calls

section Pairs

/-- The comparator of a list of numbered entries. -/
def comparePairs (a b : Int × Nat) : Int := a.1 - b.1

theorem totalPreorder_comparePairs : TotalPreorder comparePairs := by
  constructor
  · intro a b
    rw [comparePairs, comparePairs]
    omega
  · intro a b c hab hbc
    rw [comparePairs] at *
    omega

theorem accounts_treeAfter_pairs :
    Accounts totalPreorder_comparePairs
      (treeAfter comparePairs [.insert (3, 0), .insert (1, 1), .insert (3, 2), .remove (3, 9)])
      (keysAfter totalPreorder_comparePairs
        [.insert (3, 0), .insert (1, 1), .insert (3, 2), .remove (3, 9)]) :=
  accounts_treeAfter totalPreorder_comparePairs _

end Pairs

end AvlCalls
