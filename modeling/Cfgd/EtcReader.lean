import Mathlib.Data.List.DropRight
import Mathlib.Data.List.Forall2
import Cfgd.AvlTree
import Cfgd.CText

/-!
# The key-value files of `etc_reader.c`

A file is parsed in place: lines, keys and values are indices into the copied buffer,
in which line ends, comments, `=` and spaces are overwritten by zeros. A read outside
the buffer makes a function answer `none`. Every allocation is taken to succeed.
-/

namespace EtcReader

open CText AvlTree

section Source

/-- A loop over the characters from `p` on, up to the first where it stops. -/
def scan (stops : UInt8 → Bool) (data : Bytes) (p : Nat) : Option Nat :=
  ((data.drop p).findIdx? stops).map (p + ·)

/-- The second loop of `_etcr_trim`; the argument is `tail + 1`. -/
def wipe (data : Bytes) : Nat → Option Bytes
  | 0 => none
  | tail + 1 => do
    let c ← data[tail]?
    if c = 0x20 then wipe (data.set tail 0) tail else some data

/-- `_etcr_trim`; `head + strlen(head)` is where the scan for the terminator stops. -/
def etcrTrim (data : Bytes) (p : Nat) : Option (Bytes × Nat) := do
  let head ← scan (· != 0x20) data p
  let stop ← scan (· == 0) data head
  let data ← wipe data stop
  some (data, head)

/-- `_etcr_filter` -/
def etcrFilter (data : Bytes) (line : Nat) : Option (Bytes × Option Nat) := do
  let cursor ← scan (fun c => c == 0 || c == 35) data line
  let data := if data[cursor]? = some 35 then data.set cursor 0 else data
  let first ← data[line]?
  if first = 0 then some (data, none)
  else
    let (data, head) ← etcrTrim data line
    some (data, some head)

structure LineState where
  data : Bytes
  line : Option Nat
  lines : List Nat
  deriving DecidableEq

/-- One turn of the loop of `_etcr_parse_line`: the character where a line starts is
not looked at. -/
def lineStep (st : LineState) (i : Nat) : Option LineState :=
  match st.line with
  | none => some { st with line := some i }
  | some line => do
    let cursor ← st.data[i]?
    if cursor = 10 then
      let (data, kept) ← etcrFilter (st.data.set i 0) line
      some ⟨data, none, st.lines ++ kept.toList⟩
    else if cursor = 13 then some { st with data := st.data.set i 0 }
    else some st

def etcrParseLine (data : Bytes) : Option LineState :=
  (List.range data.length).foldlM lineStep ⟨data, none, []⟩

structure KvPair where
  key : Nat
  value : Nat
  deriving DecidableEq

structure File where
  data : Bytes
  kvpairs : List KvPair
  root : Avl KvPair

/-- The C string at an index. -/
def text (data : Bytes) (p : Nat) : Bytes := (data.drop p).takeWhile (· ≠ 0)

/-- What `_etcr_key_compare` hands to `strcmp`. -/
def keyText (data : Bytes) (pair : KvPair) : Bytes := text data pair.key

/-- `strcmp` reads no further than the terminators of the two keys. -/
def Terminated (data : Bytes) (pairs : List KvPair) : Prop :=
  ∀ pair ∈ pairs, (scan (· == 0) data pair.key).isSome

instance (data : Bytes) (pairs : List KvPair) : Decidable (Terminated data pairs) :=
  inferInstanceAs (Decidable (∀ pair ∈ pairs, (scan (· == 0) data pair.key).isSome))

/-- One turn of the loop of `_etcr_parse_kvpair`, in which the pair is allocated: where
`ztrymalloc` fails the code goes on to the next line, drops this pair and reports nothing. -/
def kvpairStep (file : File) (line : Nat) : Option File := do
  let chr ← scan (fun c => c == 0 || c == 61) file.data line
  let c ← file.data[chr]?
  if c = 0 then some file
  else
    let (data, key) ← etcrTrim (file.data.set chr 0) line
    let (data, value) ← etcrTrim data (chr + 1)
    let kvpairs := file.kvpairs ++ [⟨key, value⟩]
    if Terminated data kvpairs then
      some ⟨data, kvpairs, avlinsert (keyText data) file.root ⟨key, value⟩⟩
    else none

def etcrParse (data : Bytes) : Option File := do
  let st ← etcrParseLine data
  st.lines.foldlM kvpairStep ⟨st.data, [], .nil⟩

/-- An empty buffer is refused with `EINVAL`. -/
def etcrLoadFromMemory (buffer : Bytes) : Option (Option File) :=
  if buffer.length = 0 then some none else (etcrParse buffer).map some

/-- The pointer that `etcr_query_value_bykey` returns, or `none` for `ENOENT`. -/
def etcrQueryValueBykey (file : File) (key : Bytes) : Option (Option Nat) :=
  if Terminated file.data file.kvpairs then
    some ((avlsearch (keyText file.data) file.root key).map (·.value))
  else none

end Source

section Strings

variable {pre post s : Bytes}

/-- A scan from the end of `pre`. -/
theorem scan_at (stops : UInt8 → Bool) (pre post : Bytes) {c : UInt8}
    (skips : ∀ b ∈ s, stops b = false) (stop : stops c = true) :
    scan stops (pre ++ (s ++ c :: post)) pre.length = some (pre.length + s.length) := by
  have none : s.findIdx? stops = none := List.findIdx?_eq_none_iff.mpr skips
  rw [scan, List.drop_left, List.findIdx?_append, none, List.findIdx?_cons, stop]
  simp

theorem get_at (c : UInt8) : (pre ++ c :: post)[pre.length]? = some c := by
  rw [List.getElem?_append_right (Nat.le_refl _), Nat.sub_self]
  rfl

theorem set_at (c d : UInt8) : (pre ++ c :: post).set pre.length d = pre ++ d :: post := by
  rw [List.set_append_right pre.length d (Nat.le_refl _), Nat.sub_self]
  rfl

theorem text_at (nul : 0 ∉ s) : text (pre ++ (s ++ 0 :: post)) pre.length = s := by
  have all : ∀ b ∈ s, decide (b ≠ 0) = true := fun b member =>
    decide_eq_true fun zero => nul (zero ▸ member)
  rw [text, List.drop_left, List.takeWhile_append_of_pos all, List.takeWhile_cons_of_neg (by simp),
    List.append_nil]

/-- The spaces before the end of `pre` are overwritten. -/
theorem wipe_spaces (pre : Bytes) (n : Nat) (rest : Bytes) :
    wipe (pre ++ (List.replicate n 0x20 ++ rest)) (pre.length + n) =
      wipe (pre ++ (List.replicate n 0 ++ rest)) pre.length := by
  induction n generalizing rest with
  | zero => rfl
  | succ n ih =>
    have here : pre ++ (List.replicate (n + 1) 0x20 ++ rest) =
        (pre ++ List.replicate n 0x20) ++ 0x20 :: rest := by
      simp [List.replicate_succ', List.append_assoc]
    have length : (pre ++ List.replicate n (0x20 : UInt8)).length = pre.length + n := by simp
    have next := ih (0 :: rest)
    rw [here, ← Nat.add_assoc, wipe, ← length, get_at, set_at, length]
    simp only [Option.bind_eq_bind, Option.bind_some, if_true, List.append_assoc]
    rw [next]
    simp [List.replicate_succ', List.append_assoc]

/-- What stops the wiping: a character that is not a space. -/
def Stops (pre : Bytes) : Prop := ∃ before b, pre = before ++ [b] ∧ b ≠ 0x20

theorem wipe_stops (stops : Stops pre) (rest : Bytes) :
    wipe (pre ++ rest) pre.length = some (pre ++ rest) := by
  obtain ⟨before, b, rfl, solid⟩ := stops
  rw [List.length_append, List.length_singleton, List.append_assoc, wipe, List.singleton_append,
    get_at]
  simp only [Option.bind_eq_bind, Option.bind_some, if_neg solid]

def space (b : UInt8) : Bool := b == 0x20

/-- A string without the spaces around it. -/
def trimmed (s : Bytes) : Bytes := (s.dropWhile space).rdropWhile space

theorem eq_spaces {s : Bytes} (all : ∀ b ∈ s, space b = true) :
    s = List.replicate s.length 0x20 :=
  List.eq_replicate_of_mem fun b member => eq_of_beq (all b member)

theorem trimmed_spaces {s : Bytes} (all : ∀ b ∈ s, space b = true) : trimmed s = [] := by
  rw [trimmed, List.dropWhile_eq_nil_iff.mpr all, List.rdropWhile_nil]

theorem trimmed_spaces_append {lead : Bytes} (all : ∀ b ∈ lead, space b = true) (s : Bytes) :
    trimmed (lead ++ s) = trimmed s := by
  rw [trimmed, List.dropWhile_append_of_pos all, trimmed]

theorem trimmed_append_spaces (s : Bytes) {trail : Bytes} (all : ∀ b ∈ trail, space b = true) :
    trimmed (s ++ trail) = trimmed s := by
  have removed : ∀ t : Bytes, (t ++ trail).rdropWhile space = t.rdropWhile space := by
    intro t
    rw [List.rdropWhile, List.reverse_append,
      List.dropWhile_append_of_pos fun b member => all b (List.mem_reverse.mp member),
      List.rdropWhile]
  rw [trimmed, List.dropWhile_append]
  split
  · rename_i none
    rw [List.dropWhile_eq_nil_iff.mpr all, trimmed, List.isEmpty_iff.mp none]
  · rw [removed, trimmed]

/-- A string with a character that is not a space, between its spaces. -/
theorem trimmed_split {s : Bytes} (solid : ∃ b ∈ s, space b = false) :
    ∃ m n, s = List.replicate m 0x20 ++ (trimmed s ++ List.replicate n 0x20) ∧
      Stops (trimmed s) ∧ ∃ c rest, trimmed s = c :: rest ∧ space c = false := by
  obtain ⟨b, member, hb⟩ := solid
  have lead := eq_spaces (s := s.takeWhile space) fun c hc => List.mem_takeWhile_imp hc
  have trail := eq_spaces (s := (s.dropWhile space).rtakeWhile space) fun c hc =>
    List.mem_rtakeWhile_imp hc
  have whole : s = s.takeWhile space ++ (trimmed s ++ (s.dropWhile space).rtakeWhile space) := by
    rw [trimmed, List.rdropWhile_append_rtakeWhile, List.takeWhile_append_dropWhile]
  have nonempty : trimmed s ≠ [] := by
    intro none
    rw [none, List.nil_append] at whole
    rw [whole] at member
    rcases List.mem_append.mp member with left | right
    · exact absurd (List.mem_takeWhile_imp left) (by simp [hb])
    · exact absurd (List.mem_rtakeWhile_imp right) (by simp [hb])
  refine ⟨_, _, lead ▸ trail ▸ whole, ?_, ?_⟩
  · refine ⟨(trimmed s).dropLast, (trimmed s).getLast nonempty,
      (List.dropLast_append_getLast nonempty).symm, fun same => ?_⟩
    exact List.rdropWhile_last_not space _ nonempty (beq_iff_eq.mpr same)
  · obtain ⟨c, rest, cons⟩ := List.exists_cons_of_ne_nil nonempty
    have first : s.dropWhile space = c :: (rest ++ (s.dropWhile space).rtakeWhile space) := by
      rw [← List.cons_append, ← cons, trimmed, List.rdropWhile_append_rtakeWhile]
    refine ⟨c, rest, cons, ?_⟩
    have head := List.head?_dropWhile_not space s
    rw [first] at head
    exact head

theorem Stops.append {core : Bytes} (stops : Stops core) (before : Bytes) :
    Stops (before ++ core) := by
  obtain ⟨front, b, rfl, solid⟩ := stops
  exact ⟨before ++ front, b, (List.append_assoc ..).symm, solid⟩

theorem replicate_cons (n : Nat) (b : UInt8) (rest : Bytes) :
    List.replicate n b ++ b :: rest = b :: (List.replicate n b ++ rest) := by
  rw [← List.cons_append, ← List.replicate_succ, List.replicate_succ', List.append_assoc,
    List.singleton_append]

/-- `_etcr_trim` on characters between spaces. -/
theorem etcrTrim_between (pre post : Bytes) {core : Bytes} (m n : Nat) (stops : Stops core)
    (first : ∃ c rest, core = c :: rest ∧ space c = false) (nul : 0 ∉ core) :
    etcrTrim (pre ++ (List.replicate m 0x20 ++ (core ++ (List.replicate n 0x20 ++ 0 :: post))))
      pre.length = some (pre ++ (List.replicate m 0x20 ++
        (core ++ (List.replicate n 0 ++ 0 :: post))), pre.length + m) := by
  obtain ⟨c, rest, rfl, hc⟩ := first
  have head := scan_at (· != 0x20) pre (rest ++ (List.replicate n 0x20 ++ 0 :: post))
    (s := List.replicate m 0x20) (c := c)
    (fun b member => by rw [List.eq_of_mem_replicate member]; rfl)
    (by rw [bne, Bool.not_eq_true']; exact hc)
  have inner : ∀ b ∈ c :: rest ++ List.replicate n 0x20, (b == 0) = false := by
    intro b member
    refine beq_eq_false_iff_ne.mpr fun zero => ?_
    rcases List.mem_append.mp (zero ▸ member) with left | right
    · exact nul left
    · exact absurd (List.eq_of_mem_replicate right) (by decide)
  have stop := scan_at (· == 0) (pre ++ List.replicate m 0x20) post (c := 0) inner rfl
  have wiped := wipe_spaces (pre ++ (List.replicate m 0x20 ++ c :: rest)) n (0 :: post)
  rw [wipe_stops ((stops.append _).append _)] at wiped
  simp only [List.length_append, List.length_replicate, List.append_assoc, List.cons_append,
    List.length_cons] at head stop wiped
  have place : pre.length + m + (rest.length + n + 1) =
      pre.length + (m + (rest.length + 1)) + n := by omega
  rw [place] at stop
  rw [etcrTrim]
  simp only [List.cons_append, Option.bind_eq_bind, head, stop, wiped, Option.bind_some]

/-- `_etcr_trim` on spaces alone runs back over them. -/
theorem etcrTrim_blank (post : Bytes) (m : Nat) (stops : Stops pre) :
    etcrTrim (pre ++ (List.replicate m 0x20 ++ 0 :: post)) pre.length =
      some (pre ++ (List.replicate m 0 ++ 0 :: post), pre.length + m) := by
  have head := scan_at (· != 0x20) pre post (s := List.replicate m 0x20) (c := 0)
    (fun b member => by rw [List.eq_of_mem_replicate member]; rfl) rfl
  have stop := scan_at (· == 0) (pre ++ List.replicate m 0x20) post (s := []) (c := 0)
    (fun b member => nomatch member) rfl
  have wiped := wipe_spaces pre m (0 :: post)
  rw [wipe_stops stops] at wiped
  simp only [List.length_append, List.length_replicate, List.append_assoc, List.nil_append,
    List.length_nil, Nat.add_zero] at head stop
  rw [etcrTrim]
  simp only [Option.bind_eq_bind, head, stop, wiped, Option.bind_some]

/-- In front of the buffer nothing stops the second loop. -/
theorem etcrTrim_outside (post : Bytes) (all : ∀ b ∈ s, space b = true) :
    etcrTrim (s ++ 0 :: post) 0 = none := by
  rw [eq_spaces all]
  have head := scan_at (· != 0x20) [] post (s := List.replicate s.length 0x20) (c := 0)
    (fun b member => by rw [List.eq_of_mem_replicate member]; rfl) rfl
  have stop := scan_at (· == 0) (List.replicate s.length 0x20) post (s := []) (c := 0)
    (fun b member => nomatch member) rfl
  have wiped := wipe_spaces [] s.length (0 :: post)
  simp only [List.length_replicate, List.nil_append, List.length_nil, Nat.add_zero,
    Nat.zero_add] at head stop wiped
  rw [etcrTrim]
  simp only [Option.bind_eq_bind, head, stop, wiped, Option.bind_some]
  rfl

/-- `_etcr_trim` on a string: what is left of it is closed by a zero of its own, and
nothing outside the string is written. -/
theorem etcrTrim_eq (pre post : Bytes) (nul : 0 ∉ s)
    (stop : (∃ b ∈ s, space b = false) ∨ Stops pre) :
    ∃ before n, before.length + (trimmed s).length + n = s.length ∧
      etcrTrim (pre ++ (s ++ 0 :: post)) pre.length =
        some (pre ++ (before ++ (trimmed s ++ 0 :: (List.replicate n 0 ++ post))),
          pre.length + before.length) := by
  by_cases solid : ∃ b ∈ s, space b = false
  · obtain ⟨m, n, split, stops, first⟩ := trimmed_split solid
    have nul' : 0 ∉ trimmed s := by
      intro member
      refine nul ?_
      rw [split]
      exact List.mem_append_right _ (List.mem_append_left _ member)
    refine ⟨List.replicate m 0x20, n, ?_, ?_⟩
    · have length := congrArg List.length split
      simp only [List.length_append, List.length_replicate] at length ⊢
      omega
    have trim := etcrTrim_between pre post m n stops first nul'
    have layout : s ++ 0 :: post =
        List.replicate m 0x20 ++ (trimmed s ++ (List.replicate n 0x20 ++ 0 :: post)) := by
      conv_lhs => rw [split]
      simp only [List.append_assoc]
    rw [layout, trim, List.length_replicate, replicate_cons]
  · have all : ∀ b ∈ s, space b = true := by
      intro b member
      by_contra other
      exact solid ⟨b, member, Bool.not_eq_true _ ▸ other⟩
    have stops := stop.resolve_left solid
    refine ⟨List.replicate s.length 0, 0, by simp [trimmed_spaces all], ?_⟩
    have trim := etcrTrim_blank post s.length stops
    rw [← eq_spaces all] at trim
    rw [trim, trimmed_spaces all]
    simp

end Strings

end EtcReader
