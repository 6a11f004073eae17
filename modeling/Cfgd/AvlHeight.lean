import Cfgd.AvlTree

/-!
# Heights and balance

A tree is balanced when every stored height is the true one and sibling subtrees
differ in height by at most one. Each rotation restores that where it is called, and so
does the second half of a removal, whatever the comparison of the values is.
-/

namespace AvlHeight

open AvlTree Avl

universe u
variable {α : Type u}

/-- The height that a tree has, not the one that is stored: 0 for a leaf, -1 for nothing. -/
def depth : Avl α → Int
  | nil => -1
  | node l _ r _ => max (depth l) (depth r) + 1

inductive Balanced : Avl α → Prop where
  | nil : Balanced nil
  | node {l r : Avl α} {x : α} {height : Int} (left : Balanced l) (right : Balanced r)
      (stored : height = depth (node l x r height)) (lower : depth l ≤ depth r + 1)
      (upper : depth r ≤ depth l + 1) : Balanced (node l x r height)

theorem depth_node (l : Avl α) (x : α) (r : Avl α) (height : Int) :
    depth (node l x r height) = max (depth l) (depth r) + 1 := rfl

theorem depth_ge (t : Avl α) : -1 ≤ depth t := by
  induction t with
  | nil => exact Int.le_refl _
  | node l x r height ihl ihr =>
    rw [depth_node]
    omega

theorem exists_node {t : Avl α} (h : 0 ≤ depth t) : ∃ l x r height, t = node l x r height := by
  cases t with
  | nil =>
    rw [depth] at h
    omega
  | node l x r height => exact ⟨l, x, r, height, rfl⟩

theorem heightOf_eq {t : Avl α} (h : Balanced t) : heightOf t = depth t := by
  cases h with
  | nil => rfl
  | node _ _ stored _ _ => exact stored

theorem balanced_withHeight {l r : Avl α} (x : α) (left : Balanced l) (right : Balanced r)
    (lower : depth l ≤ depth r + 1) (upper : depth r ≤ depth l + 1) :
    Balanced (withHeight l x r) := by
  refine .node left right ?_ lower upper
  rw [heightOf_eq left, heightOf_eq right]
  rfl

theorem depth_withHeight (l : Avl α) (x : α) (r : Avl α) :
    depth (withHeight l x r) = max (depth l) (depth r) + 1 := rfl

/-- What a rotation gives back: a balanced tree that is as high as its higher subtree
was, or one more where the subtree had two equally high children. -/
structure Restored (t : Avl α) (high : Int) (even : Prop) : Prop where
  balanced : Balanced t
  depth : (¬ even → depth t = high) ∧ (even → depth t = high + 1)

section Rotations
variable {l r : Avl α} {x : α} {height : Int}

theorem restored_singleLeft {ll lr : Avl α} {lx : α} {lh : Int}
    (left : Balanced (node ll lx lr lh)) (right : Balanced r)
    (high : depth (node ll lx lr lh) = depth r + 2) (outer : depth ll = depth r + 1) :
    Restored (avlSingleRotateLeft (node (node ll lx lr lh) x r height)) (depth r + 2)
      (depth lr = depth r + 1) := by
  cases left with
  | node outerB innerB _ lower upper =>
    rw [depth_node] at high
    have below := balanced_withHeight x innerB right (by omega) (by omega)
    rw [avlSingleRotateLeft]
    refine ⟨balanced_withHeight lx outerB below ?_ ?_, ?_, ?_⟩
    · rw [depth_withHeight]
      omega
    · rw [depth_withHeight]
      omega
    · intro uneven
      rw [depth_withHeight, depth_withHeight]
      omega
    · intro even
      rw [depth_withHeight, depth_withHeight]
      omega

theorem restored_singleRight {rl rr : Avl α} {rx : α} {rh : Int} (left : Balanced l)
    (right : Balanced (node rl rx rr rh)) (high : depth (node rl rx rr rh) = depth l + 2)
    (outer : depth rr = depth l + 1) :
    Restored (avlSingleRotateRight (node l x (node rl rx rr rh) height)) (depth l + 2)
      (depth rl = depth l + 1) := by
  cases right with
  | node innerB outerB _ lower upper =>
    rw [depth_node] at high
    have below := balanced_withHeight x left innerB (by omega) (by omega)
    rw [avlSingleRotateRight]
    refine ⟨balanced_withHeight rx below outerB ?_ ?_, ?_, ?_⟩
    · rw [depth_withHeight]
      omega
    · rw [depth_withHeight]
      omega
    · intro uneven
      rw [depth_withHeight, depth_withHeight]
      omega
    · intro even
      rw [depth_withHeight, depth_withHeight]
      omega

theorem restored_doubleLeft {ll lr : Avl α} {lx : α} {lh : Int}
    (left : Balanced (node ll lx lr lh)) (right : Balanced r)
    (high : depth (node ll lx lr lh) = depth r + 2) (inner : depth lr = depth r + 1)
    (outer : depth ll = depth r) :
    Restored (avlDoubleRotateLeft (node (node ll lx lr lh) x r height)) (depth r + 2) False := by
  have bound := depth_ge r
  cases left with
  | node outerB innerB _ lower upper =>
    obtain ⟨ml, mx, mr, mh, rfl⟩ := exists_node (t := lr) (by omega)
    cases innerB with
    | node midL midR _ below above =>
      rw [depth_node] at inner
      have first := balanced_withHeight lx outerB midL (by omega) (by omega)
      have second := balanced_withHeight x midR right (by omega) (by omega)
      rw [avlDoubleRotateLeft]
      refine ⟨balanced_withHeight mx first second ?_ ?_, fun _ => ?_, False.elim⟩
      · rw [depth_withHeight, depth_withHeight]
        omega
      · rw [depth_withHeight, depth_withHeight]
        omega
      · rw [depth_withHeight, depth_withHeight, depth_withHeight]
        omega

theorem restored_doubleRight {rl rr : Avl α} {rx : α} {rh : Int} (left : Balanced l)
    (right : Balanced (node rl rx rr rh)) (high : depth (node rl rx rr rh) = depth l + 2)
    (inner : depth rl = depth l + 1) (outer : depth rr = depth l) :
    Restored (avlDoubleRotateRight (node l x (node rl rx rr rh) height)) (depth l + 2) False := by
  have bound := depth_ge l
  cases right with
  | node innerB outerB _ lower upper =>
    obtain ⟨ml, mx, mr, mh, rfl⟩ := exists_node (t := rl) (by omega)
    cases innerB with
    | node midL midR _ below above =>
      rw [depth_node] at inner
      have first := balanced_withHeight x left midL (by omega) (by omega)
      have second := balanced_withHeight rx midR outerB (by omega) (by omega)
      rw [avlDoubleRotateRight]
      refine ⟨balanced_withHeight mx first second ?_ ?_, fun _ => ?_, False.elim⟩
      · rw [depth_withHeight, depth_withHeight]
        omega
      · rw [depth_withHeight, depth_withHeight]
        omega
      · rw [depth_withHeight, depth_withHeight, depth_withHeight]
        omega

end Rotations

section Rebalance
variable {l r : Avl α} (x : α)

/-- The last line of a removal changes nothing where the heights are right. -/
theorem refreshHeight_eq {t : Avl α} (h : Balanced t) : refreshHeight t = t := by
  cases h with
  | nil => rfl
  | node left right stored _ _ =>
    rw [refreshHeight, withHeight, heightOf_eq left, heightOf_eq right, stored, depth_node]

theorem avlrebalance_close (left : Balanced l) (right : Balanced r)
    (lower : depth l ≤ depth r + 1) (upper : depth r ≤ depth l + 1) :
    avlrebalance l x r = withHeight l x r := by
  have levelL : ¬ heightOf l - heightOf r = 2 := by
    rw [heightOf_eq left, heightOf_eq right]
    omega
  have levelR : ¬ heightOf r - heightOf l = 2 := by
    rw [heightOf_eq left, heightOf_eq right]
    omega
  rw [avlrebalance, if_neg levelL, if_neg levelR]
  rfl

theorem avlrebalance_left (left : Balanced l) (right : Balanced r) (high : depth l = depth r + 2) :
    Balanced (avlrebalance l x r) ∧ depth l ≤ depth (avlrebalance l x r) ∧
      depth (avlrebalance l x r) ≤ depth l + 1 := by
  have bound := depth_ge r
  obtain ⟨ll, lx, lr, lh, rfl⟩ := exists_node (t := l) (by omega)
  have whole := left
  cases whole with
  | node outerB innerB _ lower upper =>
    have split := depth_node ll lx lr lh
    have level : heightOf (node ll lx lr lh) - heightOf r = 2 := by
      rw [heightOf_eq left, heightOf_eq right]
      omega
    have outerAt : heightOf (lchildOf (node ll lx lr lh)) = depth ll := heightOf_eq outerB
    have innerAt : heightOf (rchildOf (node ll lx lr lh)) = depth lr := heightOf_eq innerB
    have rightAt := heightOf_eq right
    rw [avlrebalance, if_pos level]
    by_cases outer : depth ll - depth r = 1
    · obtain ⟨balanced, uneven, even⟩ :=
        @restored_singleLeft _ r x 0 ll lr lx lh left right high (by omega)
      rw [if_pos (by omega), refreshHeight_eq balanced]
      refine ⟨balanced, ?_⟩
      by_cases same : depth lr = depth r + 1
      · have result := even same
        omega
      · have result := uneven same
        omega
    · have inner : depth lr - depth r = 1 := by omega
      obtain ⟨balanced, uneven, _⟩ :=
        @restored_doubleLeft _ r x 0 ll lr lx lh left right high (by omega) (by omega)
      rw [if_neg (by omega), if_pos (by omega), refreshHeight_eq balanced]
      have result := uneven id
      exact ⟨balanced, by omega, by omega⟩

theorem avlrebalance_right (left : Balanced l) (right : Balanced r) (high : depth r = depth l + 2) :
    Balanced (avlrebalance l x r) ∧ depth r ≤ depth (avlrebalance l x r) ∧
      depth (avlrebalance l x r) ≤ depth r + 1 := by
  have bound := depth_ge l
  obtain ⟨rl, rx, rr, rh, rfl⟩ := exists_node (t := r) (by omega)
  have whole := right
  cases whole with
  | node innerB outerB _ lower upper =>
    have split := depth_node rl rx rr rh
    have levelL : ¬ heightOf l - heightOf (node rl rx rr rh) = 2 := by
      rw [heightOf_eq left, heightOf_eq right]
      omega
    have levelR : heightOf (node rl rx rr rh) - heightOf l = 2 := by
      rw [heightOf_eq left, heightOf_eq right]
      omega
    have outerAt : heightOf (rchildOf (node rl rx rr rh)) = depth rr := heightOf_eq outerB
    have innerAt : heightOf (lchildOf (node rl rx rr rh)) = depth rl := heightOf_eq innerB
    have leftAt := heightOf_eq left
    rw [avlrebalance, if_neg levelL, if_pos levelR]
    by_cases outer : depth rr - depth l = 1
    · obtain ⟨balanced, uneven, even⟩ :=
        @restored_singleRight _ l x 0 rl rr rx rh left right high (by omega)
      rw [if_pos (by omega), refreshHeight_eq balanced]
      refine ⟨balanced, ?_⟩
      by_cases same : depth rl = depth l + 1
      · have result := even same
        omega
      · have result := uneven same
        omega
    · have inner : depth rl - depth l = 1 := by omega
      obtain ⟨balanced, uneven, _⟩ :=
        @restored_doubleRight _ l x 0 rl rr rx rh left right high (by omega) (by omega)
      rw [if_neg (by omega), if_pos (by omega), refreshHeight_eq balanced]
      have result := uneven id
      exact ⟨balanced, by omega, by omega⟩

/-- Subtrees that differ by at most two are put into balance again. Where they already
are in balance the result is one higher than the higher of them; after a rotation it is
that or as high as it. -/
theorem balanced_avlrebalance (left : Balanced l) (right : Balanced r)
    (lower : depth l ≤ depth r + 2) (upper : depth r ≤ depth l + 2) :
    Balanced (avlrebalance l x r) ∧
      max (depth l) (depth r) ≤ depth (avlrebalance l x r) ∧
      depth (avlrebalance l x r) ≤ max (depth l) (depth r) + 1 ∧
      (depth l ≤ depth r + 1 ∧ depth r ≤ depth l + 1 →
        depth (avlrebalance l x r) = max (depth l) (depth r) + 1) := by
  by_cases highL : depth l = depth r + 2
  · obtain ⟨balanced, low, high⟩ := avlrebalance_left x left right highL
    exact ⟨balanced, by omega, by omega, by omega⟩
  · by_cases highR : depth r = depth l + 2
    · obtain ⟨balanced, low, high⟩ := avlrebalance_right x left right highR
      exact ⟨balanced, by omega, by omega, by omega⟩
    · rw [avlrebalance_close x left right (by omega) (by omega), depth_withHeight]
      exact ⟨balanced_withHeight x left right (by omega) (by omega), by omega, by omega,
        fun _ => rfl⟩

end Rebalance

section Operations
universe v
variable {κ : Type v} [Ord κ] (key : α → κ)

theorem withHeight_eq {l r : Avl α} {x : α} {height : Int}
    (h : Balanced (node l x r height)) : withHeight l x r = node l x r height := by
  cases h with
  | node left right stored _ _ =>
    rw [withHeight, heightOf_eq left, heightOf_eq right, stored, depth_node]

/-- What an insertion does to a balanced tree. Where the tree has grown, its root is the
one that it had, and the side on which the value went is the higher one. -/
structure Grown (t : Avl α) (value : α) : Prop where
  balanced : Balanced (avlinsert key t value)
  depth : depth (avlinsert key t value) = depth t ∨
    depth (avlinsert key t value) = depth t + 1 ∧ (t ≠ nil →
      ∃ l x r height, avlinsert key t value = node l x r height ∧
        (compare (key value) (key x) = .lt ∧ AvlHeight.depth l = AvlHeight.depth r + 1 ∨
          compare (key value) (key x) = .gt ∧ AvlHeight.depth r = AvlHeight.depth l + 1))

theorem grown_left {l r : Avl α} {x value : α} {height : Int} (left : Balanced l)
    (right : Balanced r) (lower : depth l ≤ depth r + 1) (upper : depth r ≤ depth l + 1)
    (went : compare (key value) (key x) = .lt) (grown : Grown key l value) :
    Grown key (node l x r height) value := by
  obtain ⟨balanced, same | ⟨higher, shape⟩⟩ := grown
  · -- the subtree is as high as it was, and so is the tree
    have level : ¬ heightOf (avlinsert key l value) - heightOf r = 2 := by
      rw [heightOf_eq balanced, heightOf_eq right]
      omega
    have result : avlinsert key (node l x r height) value =
        withHeight (avlinsert key l value) x r := by
      rw [avlinsert, went]
      exact if_neg level
    refine ⟨?_, Or.inl ?_⟩
    · rw [result]
      exact balanced_withHeight x balanced right (by omega) (by omega)
    · rw [result, depth_withHeight, depth_node]
      omega
  · by_cases high : depth l = depth r + 1
    · -- the subtree has become too high, and its own higher side picks the rotation
      have level : heightOf (avlinsert key l value) - heightOf r = 2 := by
        rw [heightOf_eq balanced, heightOf_eq right]
        omega
      have bound := depth_ge r
      obtain ⟨ll, lx, lr, lh, made, side⟩ := shape (by
        rintro rfl
        rw [depth] at high
        omega)
      have tall : depth (node ll lx lr lh) = depth r + 2 := by
        rw [← made]
        omega
      have split := depth_node ll lx lr lh
      rw [made] at balanced
      rcases side with ⟨outer, higherSide⟩ | ⟨inner, higherSide⟩
      · have result : avlinsert key (node l x r height) value =
            avlSingleRotateLeft (node (node ll lx lr lh) x r height) := by
          rw [avlinsert, went]
          dsimp only
          rw [if_pos level, made, rootOrd, outer]
        obtain ⟨kept, uneven, _⟩ :=
          @restored_singleLeft _ r x height ll lr lx lh balanced right tall (by omega)
        have asHigh := uneven (by omega)
        refine ⟨?_, Or.inl ?_⟩
        · rw [result]
          exact kept
        · rw [result, depth_node]
          omega
      · have result : avlinsert key (node l x r height) value =
            avlDoubleRotateLeft (node (node ll lx lr lh) x r height) := by
          rw [avlinsert, went]
          dsimp only
          rw [if_pos level, made, rootOrd, inner]
        obtain ⟨kept, uneven, _⟩ :=
          @restored_doubleLeft _ r x height ll lr lx lh balanced right tall (by omega) (by omega)
        have asHigh := uneven id
        refine ⟨?_, Or.inl ?_⟩
        · rw [result]
          exact kept
        · rw [result, depth_node]
          omega
    · have level : ¬ heightOf (avlinsert key l value) - heightOf r = 2 := by
        rw [heightOf_eq balanced, heightOf_eq right]
        omega
      have result : avlinsert key (node l x r height) value =
          withHeight (avlinsert key l value) x r := by
        rw [avlinsert, went]
        exact if_neg level
      refine ⟨?_, ?_⟩
      · rw [result]
        exact balanced_withHeight x balanced right (by omega) (by omega)
      · rw [result, depth_withHeight, depth_node]
        by_cases even : depth l = depth r
        · exact Or.inr ⟨by omega, fun _ => ⟨_, _, _, _, rfl, Or.inl ⟨went, by omega⟩⟩⟩
        · exact Or.inl (by omega)

theorem grown_right {l r : Avl α} {x value : α} {height : Int} (left : Balanced l)
    (right : Balanced r) (lower : depth l ≤ depth r + 1) (upper : depth r ≤ depth l + 1)
    (went : compare (key value) (key x) = .gt) (grown : Grown key r value) :
    Grown key (node l x r height) value := by
  obtain ⟨balanced, same | ⟨higher, shape⟩⟩ := grown
  · have level : ¬ heightOf (avlinsert key r value) - heightOf l = 2 := by
      rw [heightOf_eq balanced, heightOf_eq left]
      omega
    have result : avlinsert key (node l x r height) value =
        withHeight l x (avlinsert key r value) := by
      rw [avlinsert, went]
      exact if_neg level
    refine ⟨?_, Or.inl ?_⟩
    · rw [result]
      exact balanced_withHeight x left balanced (by omega) (by omega)
    · rw [result, depth_withHeight, depth_node]
      omega
  · by_cases high : depth r = depth l + 1
    · have level : heightOf (avlinsert key r value) - heightOf l = 2 := by
        rw [heightOf_eq balanced, heightOf_eq left]
        omega
      have bound := depth_ge l
      obtain ⟨rl, rx, rr, rh, made, side⟩ := shape (by
        rintro rfl
        rw [depth] at high
        omega)
      have tall : depth (node rl rx rr rh) = depth l + 2 := by
        rw [← made]
        omega
      have split := depth_node rl rx rr rh
      rw [made] at balanced
      rcases side with ⟨inner, higherSide⟩ | ⟨outer, higherSide⟩
      · have result : avlinsert key (node l x r height) value =
            avlDoubleRotateRight (node l x (node rl rx rr rh) height) := by
          rw [avlinsert, went]
          dsimp only
          rw [if_pos level, made, rootOrd, inner]
        obtain ⟨kept, uneven, _⟩ :=
          @restored_doubleRight _ l x height rl rr rx rh left balanced tall (by omega) (by omega)
        have asHigh := uneven id
        refine ⟨?_, Or.inl ?_⟩
        · rw [result]
          exact kept
        · rw [result, depth_node]
          omega
      · have result : avlinsert key (node l x r height) value =
            avlSingleRotateRight (node l x (node rl rx rr rh) height) := by
          rw [avlinsert, went]
          dsimp only
          rw [if_pos level, made, rootOrd, outer]
        obtain ⟨kept, uneven, _⟩ :=
          @restored_singleRight _ l x height rl rr rx rh left balanced tall (by omega)
        have asHigh := uneven (by omega)
        refine ⟨?_, Or.inl ?_⟩
        · rw [result]
          exact kept
        · rw [result, depth_node]
          omega
    · have level : ¬ heightOf (avlinsert key r value) - heightOf l = 2 := by
        rw [heightOf_eq balanced, heightOf_eq left]
        omega
      have result : avlinsert key (node l x r height) value =
          withHeight l x (avlinsert key r value) := by
        rw [avlinsert, went]
        exact if_neg level
      refine ⟨?_, ?_⟩
      · rw [result]
        exact balanced_withHeight x left balanced (by omega) (by omega)
      · rw [result, depth_withHeight, depth_node]
        by_cases even : depth l = depth r
        · exact Or.inr ⟨by omega, fun _ => ⟨_, _, _, _, rfl, Or.inr ⟨went, by omega⟩⟩⟩
        · exact Or.inl (by omega)

theorem grown_avlinsert {t : Avl α} (h : Balanced t) (value : α) : Grown key t value := by
  induction t with
  | nil =>
    refine ⟨.node .nil .nil rfl ?_ ?_, Or.inr ⟨rfl, fun ne => absurd rfl ne⟩⟩
    · rw [depth]
      omega
    · rw [depth]
      omega
  | node l x r height ihl ihr =>
    have whole := h
    cases h with
    | node left right _ lower upper =>
      cases went : compare (key value) (key x) with
      | lt => exact grown_left key left right lower upper went (ihl left)
      | gt => exact grown_right key left right lower upper went (ihr right)
      | eq =>
        have same : avlinsert key (node l x r height) value = node l x r height := by
          rw [avlinsert, went]
        refine ⟨?_, Or.inl (by rw [same])⟩
        rw [same]
        exact whole

theorem balanced_avlinsert {t : Avl α} (h : Balanced t) (value : α) :
    Balanced (avlinsert key t value) := (grown_avlinsert key h value).balanced

theorem avlgetmin_isSome {t : Avl α} (h : t ≠ nil) : ∃ least, avlgetmin t = some least := by
  cases t with
  | nil => exact absurd rfl h
  | node l x r height =>
    have first := head_toList_avlgetmin (node l x r height)
    cases found : avlgetmin (node l x r height) with
    | none => simp [found, toList] at first
    | some least => exact ⟨least, rfl⟩

/-- A removal lowers a balanced tree by one at most. -/
theorem balanced_avlremove {t : Avl α} (h : Balanced t) (k : κ) :
    Balanced (avlremove key t k) ∧ depth t - 1 ≤ depth (avlremove key t k) ∧
      depth (avlremove key t k) ≤ depth t := by
  induction t generalizing k with
  | nil =>
    refine ⟨.nil, ?_, Int.le_refl _⟩
    rw [avlremove]
    omega
  | node l x r height ihl ihr =>
    cases h with
    | node left right _ lower upper =>
      have split := depth_node l x r height
      cases went : compare k (key x) with
      | lt =>
        have result : avlremove key (node l x r height) k =
            avlrebalance (avlremove key l k) x r := by
          rw [avlremove.eq_def]
          simp only [went]
        obtain ⟨balanced, low, high⟩ := ihl left k
        obtain ⟨kept, above, below, exactly⟩ :=
          balanced_avlrebalance x balanced right (by omega) (by omega)
        rw [result]
        exact ⟨kept, by omega, by omega⟩
      | gt =>
        have result : avlremove key (node l x r height) k =
            avlrebalance l x (avlremove key r k) := by
          rw [avlremove.eq_def]
          simp only [went]
        obtain ⟨balanced, low, high⟩ := ihr right k
        obtain ⟨kept, above, below, exactly⟩ :=
          balanced_avlrebalance x left balanced (by omega) (by omega)
        rw [result]
        exact ⟨kept, by omega, by omega⟩
      | eq =>
        rw [avlremove.eq_def]
        simp only [went]
        rcases r with _ | ⟨rl, rx, rr, rh⟩
        · -- no right child: the left one takes the place
          have empty : depth (nil : Avl α) = -1 := rfl
          rcases l with _ | ⟨ll, lx, lr, lh⟩
          · dsimp only
            exact ⟨.nil, by omega, by omega⟩
          · have bound := depth_ge (node ll lx lr lh)
            dsimp only
            exact ⟨left, by omega, by omega⟩
        · rcases l with _ | ⟨ll, lx, lr, lh⟩
          · have empty : depth (nil : Avl α) = -1 := rfl
            have bound := depth_ge (node rl rx rr rh)
            dsimp only
            exact ⟨right, by omega, by omega⟩
          · -- two children: the least value of the right one moves up
            obtain ⟨least, found⟩ := avlgetmin_isSome (t := node rl rx rr rh) (by simp)
            obtain ⟨balanced, low, high⟩ := ihr right (key least)
            obtain ⟨kept, above, below, exactly⟩ :=
              balanced_avlrebalance least left balanced (by omega) (by omega)
            simp only [found]
            exact ⟨kept, by omega, by omega⟩

/-- A value whose key is there is not taken, and no height changes on the way to it. -/
theorem avlinsert_present {t : Avl α} (h : Balanced t) {value x : α}
    (found : avlsearch key t (key value) = some x) : avlinsert key t value = t := by
  induction t with
  | nil => cases found
  | node l y r height ihl ihr =>
    have same := withHeight_eq h
    rw [avlsearch] at found
    cases h with
    | node left right _ lower upper =>
      rw [avlinsert]
      cases went : compare (key value) (key y) with
      | lt =>
        simp only [went] at found
        have level : ¬ heightOf l - heightOf r = 2 := by
          rw [heightOf_eq left, heightOf_eq right]
          omega
        simp only [ihl left found]
        rw [if_neg level, same]
      | gt =>
        simp only [went] at found
        have level : ¬ heightOf r - heightOf l = 2 := by
          rw [heightOf_eq left, heightOf_eq right]
          omega
        simp only [ihr right found]
        rw [if_neg level, same]
      | eq => rfl

/-- A search that finds nothing is a removal that changes nothing. -/
theorem avlremove_absent {t : Avl α} (h : Balanced t) {k : κ}
    (missing : avlsearch key t k = none) : avlremove key t k = t := by
  induction t with
  | nil => rfl
  | node l y r height ihl ihr =>
    have same := withHeight_eq h
    rw [avlsearch] at missing
    cases h with
    | node left right _ lower upper =>
      have close := avlrebalance_close y left right lower upper
      rw [avlremove.eq_def]
      cases went : compare k (key y) with
      | lt =>
        simp only [went] at missing
        simp only [went]
        rw [ihl left missing, close, same]
      | gt =>
        simp only [went] at missing
        simp only [went]
        rw [ihr right missing, close, same]
      | eq =>
        simp only [went] at missing
        cases missing

end Operations

end AvlHeight
