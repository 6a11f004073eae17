import Cfgd.ReadBack
import Cfgd.Reload

/-!
# Keys in a document that is written to

A key that leads to a node leads to the item under it, by the names and numbers that the
loader goes by. Other children of an item leave the way to it as it is, and what `rt_append`
adds is where the rest of the key leads.
-/

namespace WrittenDocument

open AvlTree CText CJson Item Request ConfigNode Loader Runtime DocTree DocSearch DeleteRange
open KeyShape Reach AppendSteps ReadBack HeapEdit Levels Backing SideBySide Reload

variable {ν : Type}

section Steps
variable {l : List (Item ν)} {x y : Item ν} {a : Addr} {g : List (Item ν) → List (Item ν)}

theorem memberName_update : memberName (x.update a (setChild g)) = memberName x := by
  rw [memberName, memberName, string_update, kind_update]

theorem itemJsl_update : itemJsl (x.update a (setChild g)) = itemJsl x := by
  rw [itemJsl, itemJsl, string_update, kind_update]

/-- A key means the same member after a write below the members. -/
theorem memberOf_update (key : Bytes) : memberOf (l.map (Item.update a (setChild g))) key =
    (memberOf l key).map (Item.update a (setChild g)) := by
  have same : (fun c : Item ν => decide ((memberName c).map fold = some key)) ∘
      Item.update a (setChild g) = fun c => decide ((memberName c).map fold = some key) := by
    funext c
    rw [Function.comp, memberName_update]
  rw [memberOf, List.find?_map, same, memberOf]

theorem memberOf_appended {key : Bytes} (free : memberOf l key = none)
    (named : (memberName y).map fold = some key) : memberOf (l ++ [y]) key = some y := by
  rw [memberOf] at free ⊢
  rw [List.find?_append, free, Option.none_or, List.find?_singleton, named]
  exact if_pos (decide_eq_true rfl)

theorem elementAt_map (write : Item ν → Item ν) (index : Int) :
    elementAt (l.map write) index = (elementAt l index).map write := by
  rw [elementAt, elementAt, List.length_map]
  split
  · rfl
  · split
    · rw [List.getLast?_map]
    · split
      · rw [List.getElem?_map]
      · rfl

/-- The element that an index of the tree means. -/
theorem elementAt_of_place {index : Int} {k : Nat} (place : placeOf l.length index = some k)
    (room : (l.length : Int) < jaSymLast) : elementAt l index = l[k]? := by
  obtain ⟨notSize, notAdd, notEntire, filled⟩ := placeOf_symbols place room
  rw [elementAt, if_neg (not_or.mpr ⟨notSize, not_or.mpr ⟨notAdd, notEntire⟩⟩)]
  rw [placeOf] at place
  split at place
  · rename_i inside
    obtain rfl := Option.some.inj place
    rw [if_neg (by omega), if_pos ⟨inside.2, inside.1⟩]
  · split at place
    · rename_i last
      obtain rfl := Option.some.inj place
      rw [if_pos last.2, List.getLast?_eq_getElem?]
      congr 1
      omega
    · cases place

end Steps

section Ways
variable [DoubleText ν]
variable {full : Prop} {next : Nat} {n m c : Node} {j x d : Item ν} {path : Path}
variable {segms passed left before : List Segment}

/-- Nothing is below a value. -/
theorem inner_of_follow {s : Step} (h : Over full next n x) (found : n.follow s = some c) :
    isLeaf n.info.jsl = false := by
  by_contra leaf
  rw [h.nowhere (h.here.leaf (Bool.not_eq_false _ ▸ leaf))] at found
  cases found

theorem inner_of_walks (walk : Walks n segms path passed m left) (h : Over full next n j)
    (inner : isLeaf m.info.jsl = false) : isLeaf n.info.jsl = false := by
  cases walk with
  | stop => exact inner
  | scope found => exact inner_of_follow h found
  | item found => exact inner_of_follow h found

/-- Over an item of the document, with the level that it gives. -/
abbrev Levelled (n : Node) (j : Item ν) : Prop :=
  n.info.jsl = itemJsl j ∨ (n.info.jsl = .archive ∧ j.kind = .cjsonObject)

/-- The key after which `left` is left leads from one item to another, whatever is written at
that or below it. -/
structure Leads (n m : Node) (j x : Item ν) (segms left before : List Segment) : Prop where
  inside : x ∈ j.items
  key : readKey (some n) segms = before ++ readKey (some m) left
  reaches : ∀ b ∈ x.addrs, ∀ (g : List (Item ν) → List (Item ν)) (tail : List Segment) (v : Bytes),
    Denotes (x.update b (setChild g)).child tail v →
      Denotes (j.update b (setChild g)).child (before ++ tail) v

omit [DoubleText ν] in
theorem addrs_of_items (inside : x ∈ j.items) {b : Addr} (mem : b ∈ x.addrs) : b ∈ j.addrs := by
  obtain ⟨z, below, rfl⟩ := List.mem_map.mp mem
  exact items_addrs (items_trans inside below)

/-- A scope or an array under a key, as the loader finds it. -/
theorem memberOf_of_follow (h : Over True next n j) (level : Levelled n j)
    (taken : ∀ x ∈ j.items, Taken x) {key : Bytes} (found : n.follow (.scope key) = some c) :
    ∃ d ∈ j.child, memberOf j.child key = some d ∧ Tells c d ∧ Over True next c d := by
  obtain ⟨d, seat, tells, overlay⟩ := h.down found
  have step := follow_of_seat h trivial level
    (fun x child => taken x (mem_items_of_child child (self_mem_items x))) seat
  rw [DocTree.follow.eq_def] at step
  dsimp only at step
  split at step
  · exact ⟨d, seat.child, step, tells, overlay⟩
  · cases step

/-- An index of an array, as the loader counts. -/
theorem elementAt_of_entered (h : Over full next c d) (array : c.info.jsl = .array) {index : Int}
    {k : Nat} (place : placeOf c.info.arraysize index = some k) {z : Item ν}
    (there : d.child[k]? = some z) : elementAt d.child index = some z := by
  have size : c.info.arraysize = d.child.length := by
    rw [h.here.linked.size, h.here.length array]
  have room := h.here.room
  rw [size] at place room
  rw [elementAt_of_place place room, there]

theorem leads_of_walks (walk : Walks n segms path passed m left) (h : Over True next n j)
    (level : Levelled n j) (taken : ∀ x ∈ j.items, Taken x) (nodup : j.addrs.Nodup)
    (below : Below segms) (more : left ≠ []) (inner : isLeaf m.info.jsl = false) :
    ∃ x before, Over True next m x ∧ Levelled m x ∧ Below left ∧
      Leads n m j x segms left before := by
  induction walk generalizing j with
  | stop n segms =>
    exact ⟨j, [], h, level, below, self_mem_items j, rfl, fun b _ g tail v denotes => denotes⟩
  | @scope n c m segm rest passed left path found notArray notArray' further ih =>
    obtain ⟨d, child, member, tells, overlay⟩ := memberOf_of_follow h level taken found
    have rest_ne : rest ≠ [] := by
      rintro rfl
      exact more (List.suffix_nil.mp (suffix_of_walks further))
    have nodup' := nodup
    rw [addrs_eq, List.nodup_cons, List.nodup_flatMap] at nodup'
    cases below with
    | field => exact absurd rfl rest_ne
    | array => exact absurd rfl notArray'
    | item => exact absurd rfl notArray'
    | @scope name _ fits below =>
      have scope : itemJsl d = .logicScope := by
        rcases itemJsl_of_memberOf member with scope | field | array
        · exact scope
        · have isLeaf := inner_of_walks further overlay inner
          rw [tells.jsl, field] at isLeaf
          cases isLeaf
        · exact absurd (tells.jsl.trans array) notArray
      obtain ⟨x, before, overlay', level', below', inside, key, reaches⟩ :=
        ih overlay (Or.inl tells.jsl)
          (fun z inside => taken z (mem_items_of_child child inside))
          (nodup'.2.1 d child) below more
          inner
      refine ⟨x, ⟨name, -1, .logicScope⟩ :: before, overlay', level', below',
        mem_items_of_child child inside, ?_, fun b hb g tail v denotes => ?_⟩
      · have plain : (-1 : Int) ≠ jaSymAdd := by decide
        rw [readKey]
        simp only [Option.bind_some, found, if_neg plain, if_neg notArray, key, List.cons_append]
      · have mem := addrs_of_items inside hb
        have apart : j.addr ≠ b := by
          rintro rfl
          exact nodup'.1 (List.mem_flatMap.mpr ⟨d, child, mem⟩)
        rw [update_below apart, child_setChild, List.cons_append]
        refine .scope (d := d.update b (setChild g)) ?_ (itemJsl_update.trans scope) rfl
          (reaches b hb g tail v denotes)
        rw [memberOf_update, member, Option.map_some]
  | @item n c e m segm rest passed left path k found isArray isArray' place entered further ih =>
    obtain ⟨d, child, member, tells, overlay⟩ := memberOf_of_follow h level taken found
    obtain ⟨z, seat, tells', overlay'⟩ := overlay.down entered
    have rest_ne : rest ≠ [] := by
      rintro rfl
      exact more (List.suffix_nil.mp (suffix_of_walks further))
    have nodup' := nodup
    rw [addrs_eq, List.nodup_cons, List.nodup_flatMap] at nodup'
    have nodupD := nodup'.2.1 d child
    rw [addrs_eq, List.nodup_cons, List.nodup_flatMap] at nodupD
    have array : itemJsl d = .array := tells.jsl ▸ isArray
    have object : itemJsl z = .arrayItem := by
      rcases itemJsl_unnamed seat.2 with object | leaf | dir
      · exact object
      · have isLeaf := inner_of_walks further overlay' inner
        rw [tells'.jsl, leaf] at isLeaf
        cases isLeaf
      · exact absurd (tells'.jsl.trans dir) (overlay'.here.known trivial)
    cases below with
    | field => cases isArray'
    | scope => cases isArray'
    | array => exact absurd rfl rest_ne
    | @item name index _ fits range single below =>
      obtain ⟨x, before, overlay'', level', below', inside, key, reaches⟩ :=
        ih overlay' (Or.inl tells'.jsl)
          (fun w inside =>
            taken w (mem_items_of_child child (mem_items_of_child seat.child inside)))
          (nodupD.2.1 z seat.child) below more inner
      refine ⟨x, ⟨name, index, .array⟩ :: before, overlay'', level', below',
        mem_items_of_child child (mem_items_of_child seat.child inside), ?_,
        fun b hb g tail v denotes => ?_⟩
      · have plain := (placeOf_symbols place overlay.here.room).2.1
        rw [readKey]
        simp only [Option.bind_some, found, if_neg plain, if_pos isArray, place, entered, key,
          List.cons_append]
      · have mem := addrs_of_items inside hb
        have apart : j.addr ≠ b := by
          rintro rfl
          exact nodup'.1 (List.mem_flatMap.mpr ⟨d, child, mem_addrs_of_child seat.child mem⟩)
        have apart' : d.addr ≠ b := by
          rintro rfl
          exact nodupD.1 (List.mem_flatMap.mpr ⟨z, seat.child, mem⟩)
        rw [update_below apart, child_setChild, List.cons_append]
        refine .through (d := d.update b (setChild g)) (e := z.update b (setChild g)) ?_
          (itemJsl_update.trans array) rfl ?_ (itemJsl_update.trans object)
          (reaches b hb g tail v denotes)
        · rw [memberOf_update, member, Option.map_some]
        · rw [update_below apart', child_setChild, elementAt_map,
            elementAt_of_entered overlay isArray place seat.1, Option.map_some]

end Ways

section Appends
variable {store store₁ : Store ν} {node : Node} {x y₀ y₁ : Item ν} {v : Bytes} {rest : List Segment}

/-- What is added below a new item is part of adding it. -/
theorem roots_below (separate : Separate store.heap) (inHeap : x ∈ store.heap.roots.flatMap items)
    (added : Added store x y₀ store₁) {roots : List (Item ν)}
    (below : roots = store₁.heap.roots.map (Item.update y₀.addr (setChild (· ++ [y₁])))) :
    roots = store.heap.roots.map
      (Item.update x.addr (setChild (· ++ [y₀.setChild (· ++ [y₁])]))) := by
  have unused : y₀.addr ∉ store.heap.roots.flatMap Item.addrs := by
    rw [added.addr]
    exact fun mem => absurd (separate.below _ mem) (Nat.lt_irrefl _)
  rw [below, added.roots, update_appended separate.apart inHeap unused]

variable [DoubleText ν]

/-- What `rt_append` adds below an item is where its segments lead. -/
def AppendsRead (ν : Type) [DoubleText ν] (v : Bytes) (segms : List Segment) : Prop :=
  ∀ (store : Store ν) (node : Node) (x : Item ν), Separate store.heap →
    x ∈ store.heap.roots.flatMap items → node.info.jsonptr = some x.addr →
    node.info.jsl ≠ .array → node.info.arraysize = 0 →
    (∀ segm ∈ segms.head?, memberOf x.child (fold segm.name) = none) →
    0 ≤ (rtAppend v store node segms).retval →
    ∃ y, (rtAppend v store node segms).store.heap.roots =
        store.heap.roots.map (Item.update x.addr (setChild (· ++ [y]))) ∧
      Denotes (x.child ++ [y]) (readKey none segms) v

/-- The element is the value, or where the rest of the key leads. -/
def ElementReads (v : Bytes) (rest : List Segment) (y : Item ν) : Prop :=
  (rest = [] ∧ itemJsl y = .arrayItemAsField ∧ valueText y = v) ∨
    (itemJsl y = .arrayItem ∧ Denotes y.child (readKey none rest) v)

theorem denotes_element {members : List (Item ν)} {d y : Item ν} {name : Bytes} {index : Int}
    (found : memberOf members (fold name) = some d) (array : itemJsl d = .array)
    (place : elementAt d.child index = some y) (reads : ElementReads v rest y) :
    Denotes members (⟨name, index, .array⟩ :: readKey none rest) v := by
  rcases reads with ⟨rfl, leaf, rfl⟩ | ⟨object, below⟩
  · exact .element found array rfl place leaf
  · exact .through found array rfl place object below

omit [DoubleText ν] in
theorem elementAt_appended {l : List (Item ν)} (room : (l.length : Int) < maxArySize) :
    elementAt (l ++ [y₀]) l.length = some y₀ := by
  have order : maxArySize < jaSymLast ∧ maxArySize < jaSymEntire ∧ maxArySize < jaSymAdd ∧
      maxArySize < jaSymQuerySize := by decide
  have inside : (l.length : Int) < (l ++ [y₀]).length ∧ 0 ≤ (l.length : Int) := by
    rw [List.length_append, List.length_singleton]
    omega
  rw [elementAt, if_neg (by omega), if_neg (by omega), if_pos inside, Int.toNat_natCast,
    List.getElem?_append_right (Nat.le_refl _), Nat.sub_self]
  rfl

/-- A new element of an array. -/
theorem addTo_reads (short : v.length < maxValueSize) (later : rest = [] ∨ AppendsRead ν v rest)
    (separate : Separate store.heap) (inHeap : x ∈ store.heap.roots.flatMap items)
    (ptr : node.info.jsonptr = some x.addr) (ok : 0 ≤ (addTo v store node rest).retval) :
    ∃ y, (addTo v store node rest).store.heap.roots =
        store.heap.roots.map (Item.update x.addr (setChild (· ++ [y]))) ∧
      y.string = none ∧ ElementReads v rest y := by
  rw [addTo] at ok ⊢
  split at ok
  · rename_i last
    rw [if_pos last]
    have added : Added store x (.mk store.heap.nextAddr none (.cjsonString v) [])
        (rtAllocateArrayField store node v).1 := added_element ptr ..
    exact ⟨_, added.roots, rfl, Or.inl ⟨last, rfl, PlainDoc.limitValue_short short⟩⟩
  · rename_i more
    rw [if_neg more]
    have added : Added store x (.mk store.heap.nextAddr none .cjsonObject [])
        (rtAllocateArrayItem store node).1 := added_element ptr ..
    obtain ⟨separate', inHeap'⟩ := separate_added separate inHeap added
    obtain ⟨y, roots, denotes⟩ := later.resolve_left more _ (rtAllocateArrayItem store node).2 _
      separate' inHeap' rfl (by rintro ⟨⟩) rfl (fun _ _ => rfl) ok
    exact ⟨_, roots_below separate inHeap added roots, rfl, Or.inr ⟨rfl, denotes⟩⟩

theorem appendsRead_of_below (short : v.length < maxValueSize) {segms : List Segment}
    (below : Below segms)
    (legal : ∀ segm ∈ segms, segm.jsl ≠ .array → PlainDoc.LegalName segm.name) :
    AppendsRead ν v segms := by
  -- the segment for an array, whether something follows or not
  have array : ∀ {name : Bytes} {index : Int} {rest : List Segment},
      rest = [] ∨ AppendsRead ν v rest → AppendsRead ν v (⟨name, index, .array⟩ :: rest) := by
    intro name index rest later store node x separate inHeap ptr scopes size free ok
    rw [rtAppend_array] at ok ⊢
    split at ok
    · rename_i takes
      rw [if_pos takes, if_neg scopes]
      rw [makeArray] at ok
      split at ok
      · rename_i fits
        rw [makeArray, if_pos fits]
        have added : Added store x (setString name (.mk store.heap.nextAddr none .cjsonArray []))
            (rtAllocateArray store node name).1 := added_member ptr ..
        obtain ⟨separate', inHeap'⟩ := separate_added separate inHeap added
        obtain ⟨y, roots, _, reads⟩ := addTo_reads short later separate' inHeap' rfl ok
        refine ⟨_, roots_below separate inHeap added roots, ?_⟩
        have first : (if index = jaSymAdd then (0 : Int) else index) = 0 := by
          rcases index_of_appendable takes size with rfl | rfl
          · exact if_neg (by decide)
          · exact if_pos rfl
        have key : readKey none (⟨name, index, .array⟩ :: rest) =
            ⟨name, 0, .array⟩ :: readKey none rest := by
          simp [readKey, first]
        rw [key]
        refine denotes_element (memberOf_appended (free _ rfl) ?_) rfl ?_ reads
        · rfl
        · have few : (0 : Int) < maxArySize := by decide
          exact @elementAt_appended ν y [] few
      · cases ok
    · cases ok
  induction below with
  | @field name fits =>
    intro store node x separate inHeap ptr scopes size free ok
    rw [rtAppend_field]
    have added : Added store x (setString name (.mk store.heap.nextAddr none (.cjsonString v) []))
        (rtAllocateField store node name v).1 := added_member ptr ..
    refine ⟨_, added.roots, ?_⟩
    have legalName : PlainDoc.LegalName name := legal _ (List.mem_singleton.mpr rfl) (by simp)
    have own : (memberName (setString name
        (.mk store.heap.nextAddr none (.cjsonString v) []) : Item ν)).map fold = some (fold name) :=
      congrArg (Option.map fold) legalName
    have shown : valueText (setString name
        (.mk store.heap.nextAddr none (.cjsonString v) []) : Item ν) = v :=
      PlainDoc.limitValue_short short
    have denotes := Denotes.field (memberOf_appended (free _ rfl) own) rfl
      (show (Segment.mk name (-1) .field).jsl = .field from rfl)
    rwa [shown] at denotes
  | @scope name rest fits below ih =>
    intro store node x separate inHeap ptr scopes size free ok
    rw [rtAppend_scope] at ok ⊢
    have added : Added store x (setString name (.mk store.heap.nextAddr none .cjsonObject []))
        (rtAllocateLogicScope store node name).1 := added_member ptr ..
    obtain ⟨separate', inHeap'⟩ := separate_added separate inHeap added
    obtain ⟨y, roots, denotes⟩ := ih (fun s mem => legal s (List.mem_cons_of_mem _ mem)) _
      (rtAllocateLogicScope store node name).2 _ separate' inHeap' rfl (by rintro ⟨⟩) rfl
      (fun _ _ => rfl) ok
    refine ⟨_, roots_below separate inHeap added roots, ?_⟩
    have legalName : PlainDoc.LegalName name := legal _ List.mem_cons_self (by simp)
    have own : (memberName ((setString name (.mk store.heap.nextAddr none .cjsonObject []) :
        Item ν).setChild (· ++ [y]))).map fold = some (fold name) :=
      congrArg (Option.map fold) legalName
    have key : readKey none (⟨name, -1, .logicScope⟩ :: rest) =
        ⟨name, -1, .logicScope⟩ :: readKey none rest := by
      have plain : (-1 : Int) ≠ jaSymAdd := by decide
      simp [readKey, plain]
    rw [key]
    exact .scope (memberOf_appended (free _ rfl) own) rfl rfl denotes
  | array fits range => exact array (Or.inl rfl)
  | item fits range single below ih =>
    exact array (Or.inr (ih fun s mem => legal s (List.mem_cons_of_mem _ mem)))

end Appends

end WrittenDocument
