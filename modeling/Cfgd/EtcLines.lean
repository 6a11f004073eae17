import Cfgd.EtcReader

/-!
# The lines of an `etc_reader` file

`_etcr_parse_line` goes through the buffer once. What it leaves behind is a row of
places, one for each line that it has seen the end of, and it writes nothing outside the
place of the line it is in.
-/

namespace EtcReader

open CText

/-- The characters before a comment. -/
def stripped (s : Bytes) : Bytes := s.takeWhile (· != 35)

/-- What `_etcr_filter` keeps of a line. -/
def lineOf (s : Bytes) : Option Bytes :=
  if stripped s = [] then none else some (trimmed (stripped s))

/-- The place of a line in the buffer after `_etcr_parse_line`, its line end included. -/
structure Slot where
  before : Bytes
  line : Option Bytes
  after : Bytes
  nul : 0 ∉ line.getD []
  closed : ∃ front, 0 :: after = front ++ [0]

def Slot.bytes (slot : Slot) : Bytes := slot.before ++ (slot.line.getD [] ++ 0 :: slot.after)

/-- The pointer to the line, if it was kept. -/
def Slot.pointer (slot : Slot) (base : Nat) : Option Nat :=
  slot.line.map fun _ => base + slot.before.length

theorem Slot.stops (slot : Slot) (pre : Bytes) : Stops (pre ++ slot.bytes) := by
  obtain ⟨front, closed⟩ := slot.closed
  refine ⟨pre ++ (slot.before ++ (slot.line.getD [] ++ front)), 0, ?_, by decide⟩
  rw [Slot.bytes, closed]
  simp only [List.append_assoc]

variable {pre post s : Bytes}

theorem mem_stripped {b : UInt8} (h : b ∈ stripped s) : b ∈ s :=
  (List.takeWhile_sublist _).subset h

theorem mem_trimmed {b : UInt8} (h : b ∈ trimmed s) : b ∈ s :=
  (List.dropWhile_sublist _).subset ((List.rdropWhile_prefix space _).sublist.subset h)

/-- The comment is cut off, and the zero that cuts it closes the string. -/
theorem filter_cut (pre post : Bytes) (nul : 0 ∉ s) : ∃ cut,
    (stripped s).length + cut.length = s.length ∧
    (∃ front, 0 :: cut = front ++ [0]) ∧
    ∃ cursor,
      scan (fun c => c == 0 || c == 35) (pre ++ (s ++ 0 :: post)) pre.length = some cursor ∧
      (if (pre ++ (s ++ 0 :: post))[cursor]? = some 35 then (pre ++ (s ++ 0 :: post)).set cursor 0
        else pre ++ (s ++ 0 :: post)) = pre ++ (stripped s ++ 0 :: (cut ++ post)) := by
  have skips : ∀ b ∈ stripped s, (b == 0 || b == 35) = false := by
    intro b member
    have comment := @List.mem_takeWhile_imp _ (· != 35) s b member
    have zero : (b == 0) = false := beq_eq_false_iff_ne.mpr fun zero =>
      nul (zero ▸ mem_stripped member)
    rw [zero, Bool.false_or, ← Bool.not_eq_true']
    exact comment
  cases comment : s.dropWhile (· != 35) with
  | nil =>
    have whole : stripped s = s := by
      rw [stripped]
      conv_rhs => rw [← @List.takeWhile_append_dropWhile _ (· != 35) s, comment, List.append_nil]
    rw [whole] at skips ⊢
    have stop := scan_at _ pre post (c := 0) skips rfl
    refine ⟨[], by simp, ⟨[], rfl⟩, _, stop, ?_⟩
    rw [← List.append_assoc, ← List.length_append, get_at, if_neg (by decide), List.nil_append,
      List.append_assoc]
  | cons c rest =>
    have head := List.head?_dropWhile_not (· != 35) s
    rw [comment] at head
    obtain rfl : c = 35 := by simpa using head
    have whole : s = stripped s ++ 35 :: rest := by
      rw [← comment, stripped, List.takeWhile_append_dropWhile]
    have stop := scan_at _ pre (rest ++ 0 :: post) (c := 35) skips rfl
    have layout : pre ++ (s ++ 0 :: post) = pre ++ stripped s ++ 35 :: (rest ++ 0 :: post) := by
      conv_lhs => rw [whole]
      simp only [List.append_assoc, List.cons_append]
    refine ⟨rest ++ [0], ?_, ⟨0 :: rest, rfl⟩, pre.length + (stripped s).length, ?_, ?_⟩
    · have length := congrArg List.length whole
      simp only [List.length_append, List.length_cons, List.length_nil] at length ⊢
      omega
    · rw [layout, List.append_assoc]
      exact stop
    · rw [layout, ← List.length_append, get_at, if_pos rfl, set_at]
      simp only [List.append_assoc, List.singleton_append]

/-- `_etcr_filter` on a string. -/
theorem etcrFilter_eq (post : Bytes) (nul : 0 ∉ s)
    (stop : stripped s = [] ∨ (∃ b ∈ stripped s, space b = false) ∨ Stops pre) :
    ∃ slot : Slot, slot.line = lineOf s ∧ slot.bytes.length = s.length + 1 ∧
      etcrFilter (pre ++ (s ++ 0 :: post)) pre.length =
        some (pre ++ (slot.bytes ++ post), slot.pointer pre.length) := by
  obtain ⟨cut, length, closed, cursor, found, written⟩ := filter_cut pre post nul
  have nul' : 0 ∉ stripped s := fun zero => nul (mem_stripped zero)
  unfold etcrFilter
  simp only [Option.bind_eq_bind, found, Option.bind_some, written]
  by_cases none : stripped s = []
  · refine ⟨⟨[], Option.none, cut, by simp, closed⟩, by rw [lineOf, if_pos none], ?_, ?_⟩
    · rw [none] at length
      simp only [Slot.bytes, Option.getD_none, List.nil_append, List.length_cons] at length ⊢
      simpa using length
    · rw [none, List.nil_append, get_at]
      rfl
  · obtain ⟨before, n, sizes, trim⟩ := etcrTrim_eq pre (cut ++ post) nul'
      (stop.resolve_left none)
    obtain ⟨front, closed⟩ := closed
    refine ⟨⟨before, some (trimmed (stripped s)), List.replicate n 0 ++ cut,
      fun zero => nul' (mem_trimmed zero), List.replicate n 0 ++ front, ?_⟩, ?_, ?_, ?_⟩
    · rw [← replicate_cons, closed, List.append_assoc]
    · rw [lineOf, if_neg none]
    · simp only [Slot.bytes, Option.getD_some, List.length_append, List.length_cons,
        List.length_replicate]
      omega
    · obtain ⟨c, rest, cons⟩ := List.exists_cons_of_ne_nil none
      have solid : c ≠ 0 := fun zero => nul' (by rw [cons, zero]; exact List.mem_cons_self)
      have first : (pre ++ (stripped s ++ 0 :: (cut ++ post)))[pre.length]? = some c := by
        rw [cons, List.cons_append, get_at]
      simp only [first, Option.bind_some, if_neg solid, trim]
      simp [Slot.bytes, Slot.pointer]

/-- What the line end leaves behind a string belongs to its place. -/
def Slot.extend (slot : Slot) (fill : Bytes) (closed : ∃ front, 0 :: fill = front ++ [0]) :
    Slot where
  before := slot.before
  line := slot.line
  after := slot.after ++ fill
  nul := slot.nul
  closed := by
    obtain ⟨front, shut⟩ := slot.closed
    obtain ⟨front', shut'⟩ := closed
    refine ⟨front ++ front', ?_⟩
    rw [← List.cons_append, shut, List.append_assoc, List.singleton_append, shut',
      List.append_assoc]

theorem Slot.extend_bytes (slot : Slot) (fill : Bytes)
    (closed : ∃ front, 0 :: fill = front ++ [0]) :
    (slot.extend fill closed).bytes = slot.bytes ++ fill := by
  simp [Slot.bytes, Slot.extend]

def pointers : Nat → List Slot → List Nat
  | _, [] => []
  | base, slot :: rest => (slot.pointer base).toList ++ pointers (base + slot.bytes.length) rest

/-- A line as the loop of `_etcr_parse_line` sees it: its first character, whatever that
is, and the characters up to the line end. -/
structure Seg where
  head : UInt8
  body : Bytes

def Seg.raw (seg : Seg) : Bytes := seg.head :: (seg.body ++ [10])

/-- Behind the first character a `\r` ends the string. -/
def Seg.string (seg : Seg) : Bytes := seg.head :: seg.body.takeWhile (· != 13)

/-- The characters of a line. -/
def Plain (s : Bytes) : Prop := ∀ b ∈ s, b ≠ 0 ∧ b ≠ 10

instance (s : Bytes) : Decidable (Plain s) :=
  @List.decidableBAll _ (fun b => b ≠ 0 ∧ b ≠ 10) _ s

structure Seg.Clean (seg : Seg) : Prop where
  head : seg.head ≠ 0
  body : Plain seg.body

theorem Seg.Clean.nul {seg : Seg} (clean : seg.Clean) : 0 ∉ seg.string := by
  intro zero
  rcases List.mem_cons.mp zero with head | body
  · exact clean.head head.symm
  · exact (clean.body 0 ((List.takeWhile_sublist _).subset body)).1 rfl

/-- The loop puts a zero in the place of each `\r`. -/
def zeroed (s : Bytes) : Bytes := s.map fun b => if b = 13 then 0 else b

theorem zeroed_eq {s : Bytes} (clear : ∀ b ∈ s, (b != 13) = true) : zeroed s = s := by
  rw [zeroed]
  conv_rhs => rw [← List.map_id s]
  exact List.map_congr_left fun b member => if_neg (bne_iff_ne.mp (clear b member))

/-- The zeros close the string, and what is behind it ends with a zero. -/
theorem zeroed_cut (body : Bytes) : ∃ fill, (∃ front, 0 :: fill = front ++ [0]) ∧
    zeroed body ++ [0] = body.takeWhile (· != 13) ++ 0 :: fill := by
  have clear := zeroed_eq (s := body.takeWhile (· != 13)) fun b member =>
    @List.mem_takeWhile_imp _ (· != 13) body b member
  have whole := @List.takeWhile_append_dropWhile _ (· != 13) body
  cases rest : body.dropWhile (· != 13) with
  | nil =>
    rw [rest, List.append_nil] at whole
    rw [whole] at clear ⊢
    exact ⟨[], ⟨[], rfl⟩, by rw [clear]⟩
  | cons c more =>
    have head := List.head?_dropWhile_not (· != 13) body
    rw [rest] at head
    obtain rfl : c = 13 := by simpa using head
    refine ⟨zeroed more ++ [0], ⟨0 :: zeroed more, rfl⟩, ?_⟩
    have parts : zeroed body = zeroed (body.takeWhile (· != 13)) ++ 0 :: zeroed more := by
      conv_lhs => rw [← whole, rest]
      rw [zeroed, List.map_append]
      rfl
    rw [parts, clear]
    simp

/-- Inside a line nothing else happens. -/
theorem skip_run (plain : Plain s) (pre post : Bytes) (line : Nat) (lines : List Nat) :
    (List.range' pre.length s.length).foldlM lineStep ⟨pre ++ (s ++ post), some line, lines⟩ =
      some ⟨pre ++ (zeroed s ++ post), some line, lines⟩ := by
  induction s generalizing pre with
  | nil => rfl
  | cons b rest ih =>
    obtain ⟨⟨_, lf⟩, plain⟩ := List.forall_mem_cons.mp plain
    have here : lineStep ⟨pre ++ (b :: rest ++ post), some line, lines⟩ pre.length =
        some ⟨pre ++ ((if b = 13 then 0 else b) :: (rest ++ post)), some line, lines⟩ := by
      simp only [lineStep, List.cons_append, get_at, Option.bind_eq_bind, Option.bind_some,
        if_neg lf, set_at]
      by_cases cr : b = 13
      · rw [if_pos cr, if_pos cr]
      · rw [if_neg cr, if_neg cr]
    have next := ih plain (pre ++ [if b = 13 then 0 else b])
    rw [List.length_append, List.length_singleton, List.append_assoc, List.singleton_append,
      List.append_assoc, List.singleton_append] at next
    rw [List.length_cons, List.range'_succ, List.foldlM_cons, here]
    exact next

/-- The line end closes the string and hands it to `_etcr_filter`. -/
theorem lineStep_lf (pre post : Bytes) (line : Nat) (lines : List Nat) :
    lineStep ⟨pre ++ 10 :: post, some line, lines⟩ pre.length =
      (etcrFilter (pre ++ 0 :: post) line).map fun found =>
        ⟨found.1, none, lines ++ found.2.toList⟩ := by
  simp only [lineStep, get_at, set_at, Option.bind_eq_bind, Option.bind_some, if_true]
  cases etcrFilter (pre ++ 0 :: post) line <;> rfl

/-- What the loop does from the start of a line to its end is `_etcr_filter`. -/
theorem seg_run {seg : Seg} (clean : seg.Clean) (pre post : Bytes) (lines : List Nat) :
    ∃ fill, (∃ front, 0 :: fill = front ++ [0]) ∧
      seg.raw.length = seg.string.length + 1 + fill.length ∧
      (List.range' pre.length seg.raw.length).foldlM lineStep
          ⟨pre ++ (seg.raw ++ post), none, lines⟩ =
        (etcrFilter (pre ++ (seg.string ++ 0 :: (fill ++ post))) pre.length).map fun found =>
          ⟨found.1, none, lines ++ found.2.toList⟩ := by
  obtain ⟨head, body⟩ := seg
  obtain ⟨fill, closed, cut⟩ := zeroed_cut body
  refine ⟨fill, closed, ?_, ?_⟩
  · have length := congrArg List.length cut
    simp only [zeroed, List.length_append, List.length_map, List.length_cons,
      List.length_nil] at length
    simp only [Seg.raw, Seg.string, List.length_append, List.length_cons, List.length_nil]
    omega
  have inside := skip_run clean.body (pre ++ [head]) (10 :: post) pre.length lines
  rw [List.length_append, List.length_singleton] at inside
  have layout : pre ++ (Seg.raw ⟨head, body⟩ ++ post) =
      pre ++ [head] ++ (body ++ 10 :: post) := by
    simp [Seg.raw]
  have length : (Seg.raw ⟨head, body⟩).length = body.length + 1 + 1 := by
    simp [Seg.raw]
  have before : (pre ++ [head] ++ zeroed body).length = pre.length + 1 + body.length := by
    simp only [zeroed, List.length_append, List.length_map, List.length_singleton]
  have first : ∀ data : Bytes, lineStep ⟨data, none, lines⟩ pre.length =
      some ⟨data, some pre.length, lines⟩ := fun data => rfl
  have last := lineStep_lf (pre ++ [head] ++ zeroed body) post pre.length lines
  have closes : pre ++ [head] ++ zeroed body ++ 0 :: post =
      pre ++ (Seg.string ⟨head, body⟩ ++ 0 :: (fill ++ post)) := by
    have again := congrArg (fun mid => pre ++ [head] ++ (mid ++ post)) cut
    simpa [Seg.string] using again
  rw [layout, length, List.range'_succ, ← List.range'_append_1, List.foldlM_cons, first,
    Option.bind_eq_bind, Option.bind_some, List.foldlM_append, inside, Option.bind_eq_bind,
    Option.bind_some, ← before, ← List.append_assoc, List.range'_one, List.foldlM_cons, last,
    closes]
  simp only [List.foldlM_nil, bind_pure]

/-- The first of the lines leaves nothing to run back from, or something to stop at. -/
def Opens : List Seg → Prop
  | [] => True
  | seg :: _ => stripped seg.string = [] ∨ ∃ b ∈ stripped seg.string, space b = false

theorem segs_run {segs : List Seg} (clean : ∀ seg ∈ segs, seg.Clean) (pre : Bytes)
    (stop : Opens segs ∨ Stops pre) (post : Bytes) (lines : List Nat) :
    ∃ slots : List Slot, slots.map Slot.line = segs.map (fun seg => lineOf seg.string) ∧
      (slots.flatMap Slot.bytes).length = (segs.flatMap Seg.raw).length ∧
      (List.range' pre.length (segs.flatMap Seg.raw).length).foldlM lineStep
          ⟨pre ++ (segs.flatMap Seg.raw ++ post), none, lines⟩ =
        some ⟨pre ++ (slots.flatMap Slot.bytes ++ post), none,
          lines ++ pointers pre.length slots⟩ := by
  induction segs generalizing pre lines with
  | nil => exact ⟨[], rfl, rfl, by simp [pointers]⟩
  | cons seg rest ih =>
    obtain ⟨here, later⟩ := List.forall_mem_cons.mp clean
    have open' : stripped seg.string = [] ∨ (∃ b ∈ stripped seg.string, space b = false) ∨
        Stops pre := or_assoc.mp stop
    obtain ⟨fill, closed, size, turn⟩ := seg_run here pre (rest.flatMap Seg.raw ++ post) lines
    obtain ⟨slot, line, length, filter⟩ := etcrFilter_eq
      (fill ++ (rest.flatMap Seg.raw ++ post)) here.nul open'
    rw [filter, Option.map_some, ← List.append_assoc slot.bytes,
      ← slot.extend_bytes fill closed] at turn
    have same : slot.pointer pre.length = (slot.extend fill closed).pointer pre.length := rfl
    have size : (slot.extend fill closed).bytes.length = seg.raw.length := by
      rw [slot.extend_bytes, List.length_append, length, size]
    obtain ⟨slots, named, sizes, run⟩ := ih later _
      (Or.inr ((slot.extend fill closed).stops pre))
      (lines ++ (slot.pointer pre.length).toList)
    refine ⟨slot.extend fill closed :: slots, ?_, ?_, ?_⟩
    · rw [List.map_cons, List.map_cons, named, ← line]
      rfl
    · rw [List.flatMap_cons, List.flatMap_cons, List.length_append, List.length_append, size,
        sizes]
    · rw [List.flatMap_cons, List.length_append, ← List.range'_append_1, List.foldlM_append,
        List.append_assoc, turn, Option.bind_eq_bind, Option.bind_some]
      rw [List.length_append, size, List.append_assoc] at run
      rw [run]
      simp only [List.flatMap_cons, List.append_assoc, pointers, same, size]

/-- The characters behind the last line end. -/
theorem tail_run {tail : Bytes} (plain : Plain tail.tail) (pre : Bytes) (lines : List Nat) :
    ∃ tail' line, (List.range' pre.length tail.length).foldlM lineStep
      ⟨pre ++ tail, none, lines⟩ = some ⟨pre ++ tail', line, lines⟩ := by
  cases tail with
  | nil => exact ⟨[], none, rfl⟩
  | cons b rest =>
    have inside := skip_run plain (pre ++ [b]) [] pre.length lines
    rw [List.length_append, List.length_singleton, List.append_nil, List.append_nil,
      List.append_assoc, List.append_assoc, List.singleton_append, List.singleton_append] at inside
    exact ⟨b :: zeroed rest, some pre.length,
      by rw [List.length_cons, List.range'_succ]; exact inside⟩

/-- The lines that `_etcr_parse_line` keeps, each in its place. -/
theorem etcrParseLine_eq {segs : List Seg} (clean : ∀ seg ∈ segs, seg.Clean) (opens : Opens segs)
    {tail : Bytes} (plain : Plain tail.tail) :
    ∃ slots : List Slot, slots.map Slot.line = segs.map (fun seg => lineOf seg.string) ∧
      ∃ tail' line, etcrParseLine (segs.flatMap Seg.raw ++ tail) =
        some ⟨slots.flatMap Slot.bytes ++ tail', line, pointers 0 slots⟩ := by
  obtain ⟨slots, named, sizes, run⟩ := segs_run clean [] (Or.inl opens) tail []
  obtain ⟨tail', line, last⟩ := tail_run plain (slots.flatMap Slot.bytes) (pointers 0 slots)
  refine ⟨slots, named, tail', line, ?_⟩
  rw [sizes] at last
  rw [etcrParseLine, List.length_append, List.range_eq_range', ← List.range'_append_1,
    List.foldlM_append, Nat.zero_add]
  simp only [List.nil_append, List.length_nil] at run
  rw [run, Option.bind_eq_bind, Option.bind_some, last]

/-- A first line of spaces alone makes the parser read in front of the buffer. -/
theorem etcrParseLine_outside {seg : Seg} {rest : Bytes} (clean : seg.Clean)
    (text : stripped seg.string ≠ []) (blank : ∀ b ∈ stripped seg.string, space b = true) :
    etcrParseLine (seg.raw ++ rest) = none := by
  obtain ⟨fill, _, _, turn⟩ := seg_run clean [] rest []
  have outside : etcrFilter ([] ++ (seg.string ++ 0 :: (fill ++ rest)))
      ([] : Bytes).length = none := by
    obtain ⟨cut, _, _, cursor, found, written⟩ := filter_cut [] (fill ++ rest) clean.nul
    obtain ⟨c, more, cons⟩ := List.exists_cons_of_ne_nil text
    have solid : c ≠ 0 := fun zero => clean.nul
      (mem_stripped (by rw [cons, zero]; exact List.mem_cons_self))
    have trim := etcrTrim_outside (cut ++ (fill ++ rest)) blank
    unfold etcrFilter
    simp only [Option.bind_eq_bind, found, Option.bind_some, written]
    have first : (stripped seg.string ++ 0 :: (cut ++ (fill ++ rest)))[0]? = some c := by
      rw [cons]
      rfl
    simp only [List.nil_append, List.length_nil, first, Option.bind_some, if_neg solid, trim,
      Option.bind_none]
  rw [outside] at turn
  rw [etcrParseLine, List.length_append, List.range_eq_range', ← List.range'_append_1,
    List.foldlM_append, Nat.zero_add]
  simp only [List.nil_append, List.length_nil] at turn
  rw [turn]
  rfl

end EtcReader
