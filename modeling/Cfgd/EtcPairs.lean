import Mathlib.Data.List.Find
import Cfgd.EtcLines

/-!
# The pairs of an `etc_reader` file

`_etcr_parse_kvpair` goes through the kept lines in the order of the buffer. What it
has made of the lines behind it stays as it is: the strings that the pairs point to,
and with them the order of the tree.
-/

namespace EtcReader

open CText AvlTree

/-- The key and the value in a line's characters. -/
def pairOf (s : Bytes) : Option (Bytes × Bytes) :=
  if 61 ∈ s then
    some (trimmed (s.takeWhile (· != 61)), trimmed (s.dropWhile (· != 61)).tail)
  else none

/-- A line with `=` is its key, the first `=` and its value. -/
theorem pairOf_split {s : Bytes} (sign : 61 ∈ s) : ∃ k v, s = k ++ 61 :: v ∧ 61 ∉ k ∧
    pairOf s = some (trimmed k, trimmed v) := by
  have whole := @List.takeWhile_append_dropWhile _ (· != 61) s
  have first : 61 ∉ s.takeWhile (· != 61) := fun member =>
    absurd (@List.mem_takeWhile_imp _ (· != 61) s 61 member) (by decide)
  refine ⟨s.takeWhile (· != 61), (s.dropWhile (· != 61)).tail, ?_, first, if_pos sign⟩
  cases rest : s.dropWhile (· != 61) with
  | nil =>
    rw [rest, List.append_nil] at whole
    rw [whole] at first
    exact absurd sign first
  | cons c v =>
    have head := List.head?_dropWhile_not (· != 61) s
    rw [rest] at head
    obtain rfl : c = 61 := by simpa using head
    rw [rest] at whole
    exact whole.symm

section Strings

/-- The C string at an index of the buffer. -/
def Holds (data : Bytes) (p : Nat) (s : Bytes) : Prop :=
  ∃ pre post, data = pre ++ (s ++ 0 :: post) ∧ pre.length = p ∧ 0 ∉ s

variable {data : Bytes} {p : Nat} {s : Bytes}

theorem Holds.append (holds : Holds data p s) (rest : Bytes) : Holds (data ++ rest) p s := by
  obtain ⟨pre, post, rfl, place, nul⟩ := holds
  exact ⟨pre, post ++ rest, by simp, place, nul⟩

theorem Holds.text_eq (holds : Holds data p s) : text data p = s := by
  obtain ⟨pre, post, rfl, rfl, nul⟩ := holds
  exact text_at nul

theorem Holds.terminated (holds : Holds data p s) :
    scan (· == 0) data p = some (p + s.length) := by
  obtain ⟨pre, post, rfl, rfl, nul⟩ := holds
  exact scan_at _ _ _ (fun b member => beq_eq_false_iff_ne.mpr fun zero => nul (zero ▸ member)) rfl

end Strings

section Index

variable {data data' : Bytes} {kvpairs : List KvPair} {root : Avl KvPair}

/-- The tree finds the first of the pairs with a key. -/
structure Indexed (data : Bytes) (kvpairs : List KvPair) (root : Avl KvPair) : Prop where
  ordered : Ordered (keyText data) root
  finds : ∀ k, avlsearch (keyText data) root k = kvpairs.find? (fun ptr => keyText data ptr = k)
  members : ∀ ptr ∈ root.toList, ptr ∈ kvpairs

theorem indexed_nil (data : Bytes) : Indexed data [] .nil where
  ordered := ordered_nil _
  finds := fun _ => rfl
  members := fun _ h => h

/-- Another buffer in which the pairs have the same keys. -/
theorem Indexed.transfer (indexed : Indexed data kvpairs root)
    (same : ∀ ptr ∈ kvpairs, keyText data' ptr = keyText data ptr) :
    Indexed data' kvpairs root := by
  have inside : ∀ ptr ∈ root.toList, keyText data' ptr = keyText data ptr :=
    fun ptr member => same ptr (indexed.members ptr member)
  have ordered : Ordered (keyText data') root := by
    refine List.Pairwise.imp_of_mem ?_ indexed.ordered
    intro a b ha hb lt
    rw [inside a ha, inside b hb]
    exact lt
  refine ⟨ordered, fun k => ?_, indexed.members⟩
  calc avlsearch (keyText data') root k
    _ = root.toList.find? (fun ptr => keyText data' ptr = k) := avlsearch_eq_find _ ordered k
    _ = root.toList.find? (fun ptr => keyText data ptr = k) :=
        List.find?_congr fun ptr member => by rw [inside ptr member]
    _ = avlsearch (keyText data) root k := (avlsearch_eq_find _ indexed.ordered k).symm
    _ = kvpairs.find? (fun ptr => keyText data ptr = k) := indexed.finds k
    _ = kvpairs.find? (fun ptr => keyText data' ptr = k) :=
        List.find?_congr fun ptr member => by rw [same ptr member]

theorem Indexed.insert (indexed : Indexed data kvpairs root) (ptr : KvPair) :
    Indexed data (kvpairs ++ [ptr]) (avlinsert (keyText data) root ptr) where
  ordered := ordered_avlinsert _ indexed.ordered ptr
  finds := by
    intro k
    rw [avlsearch_avlinsert _ indexed.ordered, indexed.finds, List.find?_append]
    by_cases same : keyText data ptr = k
    · rw [if_pos same, List.find?_cons_of_pos (by simpa using same)]
      cases kvpairs.find? (fun ptr => keyText data ptr = k) <;> rfl
    · rw [if_neg same, List.find?_cons_of_neg (by simpa using same)]
      simp
  members := by
    intro x member
    rw [toList_avlinsert _ indexed.ordered] at member
    rcases mem_insertOrd _ member with rfl | before
    · exact List.mem_append_right _ List.mem_cons_self
    · exact List.mem_append_left _ (indexed.members x before)

end Index

section Parse

variable {pre post t k v : Bytes}

/-- A line without `=` makes no pair. -/
theorem kvpairStep_skip {file : File} (nul : 0 ∉ t) (none : 61 ∉ t)
    (layout : file.data = pre ++ (t ++ 0 :: post)) : kvpairStep file pre.length = some file := by
  have skips : ∀ b ∈ t, (b == 0 || b == 61) = false := by
    intro b member
    have zero : (b == 0) = false := beq_eq_false_iff_ne.mpr fun zero => nul (zero ▸ member)
    have sign : (b == 61) = false := beq_eq_false_iff_ne.mpr fun sign => none (sign ▸ member)
    rw [zero, sign, Bool.or_false]
  have stop := scan_at (fun c => c == 0 || c == 61) pre post (c := 0) skips rfl
  have last : (pre ++ (t ++ 0 :: post))[pre.length + t.length]? = some 0 := by
    rw [← List.append_assoc, ← List.length_append, get_at]
  simp only [kvpairStep, layout, Option.bind_eq_bind, stop, Option.bind_some, last, if_true]

/-- What `_etcr_parse_kvpair` makes of a line with `=` stays within the line. -/
theorem kvpairStep_take (post : Bytes) (nul : 0 ∉ k ++ 61 :: v) (first : 61 ∉ k)
    (named : trimmed k ≠ []) :
    ∃ mid key value, mid.length = (k ++ 61 :: v).length + 1 ∧
      Holds (pre ++ mid) key (trimmed k) ∧ Holds (pre ++ mid) value (trimmed v) ∧
      ∀ file : File, file.data = pre ++ (k ++ 61 :: v ++ 0 :: post) →
        kvpairStep file pre.length =
          if Terminated (pre ++ (mid ++ post)) (file.kvpairs ++ [⟨key, value⟩]) then
            some ⟨pre ++ (mid ++ post), file.kvpairs ++ [⟨key, value⟩],
              avlinsert (keyText (pre ++ (mid ++ post))) file.root ⟨key, value⟩⟩
          else none := by
  have nulk : 0 ∉ k := fun zero => nul (List.mem_append_left _ zero)
  have nulv : 0 ∉ v := fun zero => nul (List.mem_append_right _ (List.mem_cons_of_mem _ zero))
  have solid : ∃ b ∈ k, space b = false := by
    by_contra none
    refine named (trimmed_spaces fun b member => ?_)
    by_contra other
    exact none ⟨b, member, Bool.not_eq_true _ ▸ other⟩
  obtain ⟨before, n, sizes, trim⟩ := etcrTrim_eq pre (v ++ 0 :: post) nulk (Or.inl solid)
  have stops : Stops (pre ++ (before ++ (trimmed k ++ (List.replicate n 0 ++ [0])))) :=
    ⟨pre ++ (before ++ (trimmed k ++ List.replicate n 0)), 0, by simp, by decide⟩
  obtain ⟨before', n', sizes', trim'⟩ := etcrTrim_eq _ post nulv (Or.inr stops)
  have chr := scan_at (fun c => c == 0 || c == 61) pre (v ++ 0 :: post) (s := k) (c := 61) (by
    intro b member
    have zero : (b == 0) = false := beq_eq_false_iff_ne.mpr fun zero => nulk (zero ▸ member)
    have sign : (b == 61) = false := beq_eq_false_iff_ne.mpr fun sign => first (sign ▸ member)
    rw [zero, sign, Bool.or_false]) rfl
  have sign : (pre ++ (k ++ 61 :: (v ++ 0 :: post)))[pre.length + k.length]? = some 61 := by
    rw [← List.append_assoc, ← List.length_append, get_at]
  have cut : (pre ++ (k ++ 61 :: (v ++ 0 :: post))).set (pre.length + k.length) 0 =
      pre ++ (k ++ 0 :: (v ++ 0 :: post)) := by
    rw [← List.append_assoc, ← List.length_append, set_at, List.append_assoc]
  have place : (pre ++ (before ++ (trimmed k ++ (List.replicate n 0 ++ [0])))).length =
      pre.length + k.length + 1 := by
    simp only [List.length_append, List.length_replicate, List.length_singleton]
    omega
  have turned : ∀ rest : Bytes, 0 :: (List.replicate n 0 ++ rest) =
      List.replicate n 0 ++ 0 :: rest := fun rest => (replicate_cons n 0 rest).symm
  have handed : pre ++ (before ++ (trimmed k ++ 0 :: (List.replicate n 0 ++ (v ++ 0 :: post)))) =
      pre ++ (before ++ (trimmed k ++ (List.replicate n 0 ++ [0]))) ++ (v ++ 0 :: post) := by
    rw [turned]
    simp only [List.append_assoc, List.singleton_append]
  have done : pre ++ (before ++ (trimmed k ++ (List.replicate n 0 ++ [0]))) ++
        (before' ++ (trimmed v ++ 0 :: (List.replicate n' 0 ++ post))) =
      pre ++ (before ++ (trimmed k ++ 0 :: (List.replicate n 0 ++ (before' ++
        (trimmed v ++ 0 :: List.replicate n' 0)))) ++ post) := by
    rw [turned]
    simp only [List.append_assoc, List.cons_append, List.nil_append]
  rw [place, done] at trim'
  refine ⟨before ++ (trimmed k ++ 0 :: (List.replicate n 0 ++ (before' ++
    (trimmed v ++ 0 :: List.replicate n' 0)))), pre.length + before.length,
    pre.length + k.length + 1 + before'.length, ?_, ?_, ?_, ?_⟩
  · simp only [List.length_append, List.length_cons, List.length_replicate]
    omega
  · exact ⟨pre ++ before, _, by rw [List.append_assoc], by rw [List.length_append],
      fun zero => nulk (mem_trimmed zero)⟩
  · refine ⟨pre ++ (before ++ (trimmed k ++ (List.replicate n 0 ++ [0]))) ++ before',
      List.replicate n' 0, ?_, ?_, fun zero => nulv (mem_trimmed zero)⟩
    · rw [turned]
      simp only [List.append_assoc, List.cons_append, List.nil_append]
    · rw [List.length_append, place]
  · intro file layout
    have line : pre ++ (k ++ 61 :: v ++ 0 :: post) = pre ++ (k ++ 61 :: (v ++ 0 :: post)) := by
      simp only [List.append_assoc, List.cons_append]
    rw [line] at layout
    have sign0 : (61 : UInt8) ≠ 0 := by decide
    simp only [kvpairStep, layout, Option.bind_eq_bind, chr, Option.bind_some, sign, if_neg sign0,
      cut, trim]
    rw [handed, trim']
    rfl

/-- The pairs of a file, read from the part of the buffer that has been parsed. -/
structure Kept (done : Bytes) (file : File) (pairs : List (Bytes × Bytes)) : Prop where
  reads : List.Forall₂ (fun (ptr : KvPair) pair =>
    Holds done ptr.key pair.1 ∧ Holds done ptr.value pair.2) file.kvpairs pairs
  indexed : Indexed done file.kvpairs file.root

variable {done rest : Bytes} {file : File} {pairs : List (Bytes × Bytes)}

theorem Kept.held (kept : Kept done file pairs) :
    ∀ ptr ∈ file.kvpairs, ∃ key, Holds done ptr.key key := by
  have reads := kept.reads
  clear kept
  intro ptr member
  generalize file.kvpairs = kvpairs at reads member
  induction reads with
  | nil => cases member
  | cons here _ ih =>
    rcases List.mem_cons.mp member with rfl | later
    · exact ⟨_, here.1⟩
    · exact ih later

/-- What is read in the parsed part is read there in the whole buffer. -/
theorem Kept.append (kept : Kept done file pairs) (rest : Bytes) :
    Kept (done ++ rest) file pairs where
  reads := kept.reads.imp fun _ _ holds => ⟨holds.1.append rest, holds.2.append rest⟩
  indexed := by
    refine kept.indexed.transfer fun ptr member => ?_
    obtain ⟨key, holds⟩ := kept.held ptr member
    rw [keyText, keyText, (holds.append rest).text_eq, holds.text_eq]

theorem Kept.terminated (kept : Kept done file pairs) : Terminated done file.kvpairs := by
  intro ptr member
  obtain ⟨key, holds⟩ := kept.held ptr member
  rw [holds.terminated]
  rfl

/-- A pair that is made behind the parsed part joins it. -/
theorem Kept.insert (kept : Kept done file pairs) (mid rest : Bytes) (ptr : KvPair)
    (pair : Bytes × Bytes) (key : Holds (done ++ mid) ptr.key pair.1)
    (value : Holds (done ++ mid) ptr.value pair.2) :
    Terminated (done ++ mid ++ rest) (file.kvpairs ++ [ptr]) ∧
      Kept (done ++ mid) ⟨done ++ mid ++ rest, file.kvpairs ++ [ptr],
        avlinsert (keyText (done ++ mid ++ rest)) file.root ptr⟩ (pairs ++ [pair]) := by
  have before := (kept.append mid).append rest
  have reads : List.Forall₂ (fun (ptr : KvPair) pair =>
      Holds (done ++ mid) ptr.key pair.1 ∧ Holds (done ++ mid) ptr.value pair.2)
      (file.kvpairs ++ [ptr]) (pairs ++ [pair]) :=
    List.rel_append (kept.append mid).reads (.cons ⟨key, value⟩ .nil)
  refine ⟨?_, reads, ?_⟩
  · refine List.forall_mem_append.mpr ⟨before.terminated, List.forall_mem_singleton.mpr ?_⟩
    rw [(key.append rest).terminated]
    rfl
  · refine (before.indexed.insert ptr).transfer ?_
    refine List.forall_mem_append.mpr ⟨fun ptr member => ?_, List.forall_mem_singleton.mpr ?_⟩
    · obtain ⟨k, holds⟩ := (kept.append mid).held ptr member
      rw [keyText, keyText, (holds.append rest).text_eq, holds.text_eq]
    · rw [keyText, keyText, (key.append rest).text_eq, key.text_eq]

def Slot.pair (slot : Slot) : Option (Bytes × Bytes) := slot.line.bind pairOf

def Seg.pair (seg : Seg) : Option (Bytes × Bytes) := (lineOf seg.string).bind pairOf

/-- The turn of the loop for a place, if its line was kept. -/
theorem slot_run (slot : Slot) (kept : Kept done file pairs)
    (layout : file.data = done ++ (slot.bytes ++ rest))
    (named : ∀ pair, slot.pair = some pair → pair.1 ≠ []) :
    ∃ file' done', (slot.pointer done.length).toList.foldlM kvpairStep file = some file' ∧
      file'.data = done' ++ rest ∧ done'.length = done.length + slot.bytes.length ∧
      Kept done' file' (pairs ++ slot.pair.toList) := by
  have nul := slot.nul
  rw [Slot.pair] at named ⊢
  cases line : slot.line with
  | none =>
    refine ⟨file, done ++ slot.bytes, ?_, ?_, List.length_append, ?_⟩
    · rw [Slot.pointer, line]
      rfl
    · rw [layout, List.append_assoc]
    · simpa using kept.append slot.bytes
  | some t =>
    rw [line, Option.getD_some] at nul
    have place : slot.pointer done.length = some (done ++ slot.before).length := by
      rw [Slot.pointer, line, List.length_append]
      rfl
    have bytes : slot.bytes = slot.before ++ (t ++ 0 :: slot.after) := by
      rw [Slot.bytes, line]
      rfl
    have layout' : file.data = done ++ slot.before ++ (t ++ 0 :: (slot.after ++ rest)) := by
      rw [layout, bytes]
      simp only [List.append_assoc, List.cons_append]
    rw [place]
    simp only [Option.toList_some, List.foldlM_cons, List.foldlM_nil, bind_pure, Option.bind_some]
    by_cases sign : 61 ∈ t
    · obtain ⟨k, v, rfl, first, pair⟩ := pairOf_split sign
      rw [line, Option.bind_some, pair] at named
      obtain ⟨mid, key, value, length, holdsKey, holdsValue, turn⟩ :=
        kvpairStep_take (slot.after ++ rest) nul first (named _ rfl)
      have turn := turn file layout'
      have joined : done ++ slot.before ++ (mid ++ (slot.after ++ rest)) =
          done ++ (slot.before ++ (mid ++ slot.after)) ++ rest := by
        simp only [List.append_assoc]
      have inner : done ++ slot.before ++ mid ++ slot.after =
          done ++ (slot.before ++ (mid ++ slot.after)) := by
        simp only [List.append_assoc]
      obtain ⟨terminated, kept⟩ := kept.insert (slot.before ++ (mid ++ slot.after)) rest
        ⟨key, value⟩ (trimmed k, trimmed v)
        (inner ▸ holdsKey.append slot.after) (inner ▸ holdsValue.append slot.after)
      rw [joined, if_pos terminated] at turn
      refine ⟨_, _, turn, rfl, ?_, pair ▸ kept⟩
      rw [List.length_append, bytes]
      simp only [List.length_append, List.length_cons] at length ⊢
      omega
    · have skip := kvpairStep_skip nul sign layout'
      refine ⟨file, done ++ slot.bytes, skip, ?_, List.length_append, ?_⟩
      · rw [layout, List.append_assoc]
      · simpa [pairOf, sign] using kept.append slot.bytes

theorem slots_run {tail : Bytes} (slots : List Slot) (kept : Kept done file pairs)
    (layout : file.data = done ++ (slots.flatMap Slot.bytes ++ tail))
    (named : ∀ slot ∈ slots, ∀ pair, slot.pair = some pair → pair.1 ≠ []) :
    ∃ file' done', (pointers done.length slots).foldlM kvpairStep file = some file' ∧
      file'.data = done' ++ tail ∧
      Kept done' file' (pairs ++ slots.filterMap Slot.pair) := by
  induction slots generalizing done file pairs with
  | nil => exact ⟨file, done, rfl, layout, by simpa using kept⟩
  | cons slot rest ih =>
    obtain ⟨here, later⟩ := List.forall_mem_cons.mp named
    rw [List.flatMap_cons, List.append_assoc] at layout
    obtain ⟨file1, done1, turn, layout1, length, kept1⟩ := slot_run slot kept layout here
    obtain ⟨file2, done2, run, layout2, kept2⟩ := ih kept1 layout1 later
    refine ⟨file2, done2, ?_, layout2, ?_⟩
    · rw [pointers, List.foldlM_append, turn, ← length]
      exact run
    · have split : (slot :: rest).filterMap Slot.pair =
          slot.pair.toList ++ rest.filterMap Slot.pair := by
        rw [List.filterMap_eq_flatMap_toList, List.flatMap_cons, List.filterMap_eq_flatMap_toList]
      rw [split, ← List.append_assoc]
      exact kept2

/-- The pairs of a parsed file are those of the lines that the parser saw. -/
theorem etcrParse_eq {segs : List Seg} (clean : ∀ seg ∈ segs, seg.Clean) (opens : Opens segs)
    {tail : Bytes} (plain : Plain tail.tail)
    (named : ∀ seg ∈ segs, ∀ pair, seg.pair = some pair → pair.1 ≠ []) :
    ∃ file, etcrParse (segs.flatMap Seg.raw ++ tail) = some file ∧
      Kept file.data file (segs.filterMap Seg.pair) := by
  obtain ⟨slots, lines, tail', line, parsed⟩ := etcrParseLine_eq clean opens plain
  have named' : ∀ slot ∈ slots, ∀ pair, slot.pair = some pair → pair.1 ≠ [] := by
    intro slot member pair same
    have inLines : slot.line ∈ segs.map fun seg => lineOf seg.string :=
      lines ▸ List.mem_map_of_mem member
    obtain ⟨seg, seen, eq⟩ := List.mem_map.mp inLines
    exact named seg seen pair (by rw [Seg.pair, eq]; exact same)
  have start : Kept [] ⟨slots.flatMap Slot.bytes ++ tail', [], .nil⟩ [] :=
    ⟨.nil, indexed_nil []⟩
  obtain ⟨file, done, run, layout, kept⟩ := slots_run slots start rfl named'
  refine ⟨file, ?_, ?_⟩
  · rw [etcrParse, parsed, Option.bind_eq_bind, Option.bind_some]
    exact run
  · have pairs : slots.filterMap Slot.pair =
        segs.filterMap Seg.pair := by
      have same := congrArg (List.filterMap fun found => Option.bind found pairOf) lines
      rwa [List.filterMap_map, List.filterMap_map] at same
    rw [List.nil_append, pairs] at kept
    rw [layout]
    exact kept.append tail'

end Parse

section Query

variable {data : Bytes} {kvpairs : List KvPair} {pairs : List (Bytes × Bytes)}

/-- Pointers and pairs are found together. -/
theorem find_together (reads : List.Forall₂ (fun (ptr : KvPair) pair =>
    Holds data ptr.key pair.1 ∧ Holds data ptr.value pair.2) kvpairs pairs) (k : Bytes) :
    (kvpairs.find? (fun ptr => keyText data ptr = k) = none ∧
      pairs.find? (fun pair => pair.1 = k) = none) ∨
    ∃ ptr pair, kvpairs.find? (fun ptr => keyText data ptr = k) = some ptr ∧
      pairs.find? (fun pair => pair.1 = k) = some pair ∧ Holds data ptr.value pair.2 := by
  induction reads with
  | nil => exact Or.inl ⟨rfl, rfl⟩
  | @cons ptr pair ptrs pairs here _ ih =>
    have key : keyText data ptr = pair.1 := here.1.text_eq
    by_cases same : pair.1 = k
    · refine Or.inr ⟨ptr, pair, ?_, ?_, here.2⟩
      · rw [List.find?_cons_of_pos (by simpa [key] using same)]
      · rw [List.find?_cons_of_pos (by simpa using same)]
    · rw [List.find?_cons_of_neg (by simpa [key] using same),
        List.find?_cons_of_neg (by simpa using same)]
      exact ih

/-- A query answers with the value of the first of the pairs with the key. -/
theorem Kept.query {file : File} (kept : Kept file.data file pairs) (k : Bytes) :
    (etcrQueryValueBykey file k = some none ∧ pairs.find? (fun pair => pair.1 = k) = none) ∨
    ∃ ptr pair, etcrQueryValueBykey file k = some (some ptr) ∧
      pairs.find? (fun pair => pair.1 = k) = some pair ∧ Holds file.data ptr pair.2 := by
  rw [etcrQueryValueBykey, if_pos kept.terminated, kept.indexed.finds]
  obtain ⟨none, none'⟩ | ⟨ptr, pair, found, found', holds⟩ := find_together kept.reads k
  · exact Or.inl ⟨by rw [none]; rfl, none'⟩
  · exact Or.inr ⟨ptr.value, pair, by rw [found]; rfl, found', holds⟩

end Query

end EtcReader
