import Cfgd.CText

/-!
# The server's own configuration file

`os_analy_conf` cuts the text of the file in place: a line is terminated where its end
was, and `os_analy_line` terminates the key and the value inside the line. The records
are offsets into the text. Each turn looks for a CRLF in all that is left before it
looks for an LF, so a line that ends in an LF is one line with all that follows it up to
the next CRLF.
-/

namespace ServerConf

open CText

/-! ## The text in its block -/

def byteAt (buf : Bytes) (cursor : Nat) : UInt8 := buf.getD cursor 0

def cStringAt (buf : Bytes) (cursor : Nat) : Bytes := (buf.drop cursor).takeWhile (· ≠ 0)

def blank (c : UInt8) : Bool := c = 32 || c = 9

/-- A byte that the loops over a key and over a value go past. -/
def inToken (c : UInt8) : Bool := !blank c && c ≠ 0

/-- A loop that moves the cursor. -/
def skipWhile (test : UInt8 → Bool) (buf : Bytes) (cursor : Nat) : Nat :=
  cursor + ((buf.drop cursor).takeWhile test).length

/-- `memset` with zero. -/
def clear (buf : Bytes) (cursor n : Nat) : Bytes :=
  buf.take cursor ++ List.replicate n 0 ++ buf.drop (cursor + n)

/-- A loop that clears what it goes past. -/
def clearWhile (test : UInt8 → Bool) (buf : Bytes) (cursor : Nat) : Bytes × Nat :=
  (clear buf cursor (skipWhile test buf cursor - cursor), skipWhile test buf cursor)

/-- `struct conf_node`: where the key and the value are in the text. -/
structure ConfNode where
  key : Nat
  value : Nat
  deriving DecidableEq, Repr

/-- `os_analy_line` for the line at the cursor. -/
def osAnalyLine (buf : Bytes) (line : Nat) : Bytes × Option ConfNode :=
  let cursor := skipWhile blank buf line
  if byteAt buf cursor = 35 then (buf, none)
  else
    let key := cursor
    let cursor := skipWhile inToken buf cursor
    if byteAt buf cursor = 0 then (buf, none)
    else
      let (buf, cursor) := clearWhile blank buf cursor
      let value := cursor
      let cursor := skipWhile inToken buf cursor
      let (buf, _) := clearWhile (· ≠ 0) buf cursor
      (buf, some ⟨key, value⟩)

/-- The loop of `os_analy_conf`. There is no result when it does not end within the fuel. -/
def osAnalyLoop : Nat → Bytes → Nat → Option (Bytes × List ConfNode)
  | 0, _, _ => none
  | fuel + 1, buf, cursor =>
    if byteAt buf cursor = 0 then some (buf, [])
    else
      let line := cursor
      let (buf, cursor) := match strstr crlf (cStringAt buf cursor) with
        | some (before, _) =>
          (clear buf (cursor + before.length) 2, cursor + before.length + 2)
        | none => match strstr [10] (cStringAt buf cursor) with
          | some (before, _) =>
            (clear buf (cursor + before.length) 1, cursor + before.length + 1)
          | none => (buf, cursor + (cStringAt buf cursor).length)
      let (buf, node) := osAnalyLine buf line
      (osAnalyLoop fuel buf cursor).map fun (buf, nodes) => (buf, node.toList ++ nodes)

/-- `_conf`, after the file was read. -/
structure ConfObject where
  fptr : Bytes
  confHead : List ConfNode
  deriving DecidableEq, Repr

/-- `os_analy_conf`, for a text with its terminator. -/
def osAnalyConf (text : Bytes) : Option ConfObject :=
  (osAnalyLoop (text.length + 1) (text ++ [0]) 0).map fun (buf, nodes) => ⟨buf, nodes⟩

/-- What the records say. -/
def ConfObject.pairs (conf : ConfObject) : List (Bytes × Bytes) :=
  conf.confHead.map fun node => (cStringAt conf.fptr node.key, cStringAt conf.fptr node.value)

/-- `os_query_conf`. -/
def osQueryConf (conf : ConfObject) (key : Bytes) : Option Bytes :=
  (conf.confHead.find? fun node => strcasecmp (cStringAt conf.fptr node.key) key = .eq).map
    fun node => cStringAt conf.fptr node.value

/-! ## What the file says -/

/-- A line with one byte more in front. -/
def consLine (c : UInt8) : List Bytes → List Bytes
  | [] => [[c]]
  | line :: lines => (c :: line) :: lines

/-- The lines of a text: each ends in an LF or in a CRLF, the last one with the text. -/
def confLines : Bytes → List Bytes
  | [] => [[]]
  | 13 :: 10 :: rest => [] :: confLines rest
  | c :: rest => if c = 10 then [] :: confLines rest else consLine c (confLines rest)

def trimHead (line : Bytes) : Bytes := line.dropWhile blank

def commentLine (line : Bytes) : Bool := (trimHead line).head? = some 35

/-- The first token of a line, and what follows it. -/
def keyToken (line : Bytes) : Bytes := (trimHead line).takeWhile fun c => !blank c

def afterKey (line : Bytes) : Bytes := (trimHead line).dropWhile fun c => !blank c

/-- The second token of a line, and what follows it. -/
def valueToken (line : Bytes) : Bytes := (trimHead (afterKey line)).takeWhile fun c => !blank c

def afterValue (line : Bytes) : Bytes := (trimHead (afterKey line)).dropWhile fun c => !blank c

/-- The pair that a line stands for. -/
def linePair (line : Bytes) : Option (Bytes × Bytes) :=
  if commentLine line ∨ afterKey line = [] then none else some (keyToken line, valueToken line)

def confPairs (text : Bytes) : List (Bytes × Bytes) := (confLines text).filterMap linePair

/-- The file is read as its lines say, and a query finds the first pair with its key. -/
def ReadsAsWritten (text : Bytes) : Prop :=
  ∃ conf, osAnalyConf text = some conf ∧ conf.pairs = confPairs text ∧
    ∀ key, osQueryConf conf key =
      ((confPairs text).find? fun pair => fold pair.1 = fold key).map Prod.snd

/-! ## When it is -/

/-- The text cut at each CRLF only, and at each LF only. -/
def crlfLines : Bytes → List Bytes
  | [] => [[]]
  | 13 :: 10 :: rest => [] :: crlfLines rest
  | c :: rest => consLine c (crlfLines rest)

def lfLines : Bytes → List Bytes
  | [] => [[]]
  | c :: rest => if c = 10 then [] :: lfLines rest else consLine c (lfLines rest)

/-- Lines that end in an LF in front of a CRLF do no harm: there is one line only, or
what is read of the first one ends inside it and the others say nothing, or there is
nothing to be read in any of them up to the CRLF. -/
def Harmless : List Bytes → Prop
  | [] => True
  | first :: later => later = [] ∨
    ((commentLine first ∨ afterValue first ≠ []) ∧ ∀ line ∈ later, linePair line = none) ∨
    (linePair first = none ∧ ∀ line ∈ later, ∀ c ∈ line, blank c = false)

instance : ∀ lines, Decidable (Harmless lines)
  | [] => .isTrue trivial
  | _ :: _ => inferInstanceAs (Decidable (_ ∨ (_ ∨ _) ∧ _ ∨ _ ∧ _))

/-- All that a text has in front of its CRLFs is harmless. -/
def Unmixed (text : Bytes) : Prop :=
  ∀ stretch ∈ (crlfLines text).dropLast, Harmless (lfLines stretch)

instance (text : Bytes) : Decidable (Unmixed text) :=
  inferInstanceAs (Decidable (∀ stretch ∈ (crlfLines text).dropLast, _))

section Buffer
variable {test : UInt8 → Bool}

theorem takeWhile_stop {part tail : Bytes} (all : ∀ c ∈ part, test c = true)
    (stop : ∀ c ∈ tail.head?, test c = false) : (part ++ tail).takeWhile test = part := by
  rw [List.takeWhile_append_of_pos all]
  cases tail with
  | nil => rw [List.takeWhile_nil, List.append_nil]
  | cons c tail =>
    have here : test c = false := stop c rfl
    rw [List.takeWhile_cons_of_neg (by rw [here]; decide), List.append_nil]

theorem skipWhile_part {done part tail : Bytes} (all : ∀ c ∈ part, test c = true)
    (stop : ∀ c ∈ tail.head?, test c = false) :
    skipWhile test (done ++ (part ++ tail)) done.length = (done ++ part).length := by
  rw [skipWhile, List.drop_left, takeWhile_stop all stop, List.length_append]

theorem clear_part (done part tail : Bytes) :
    clear (done ++ (part ++ tail)) done.length part.length =
      done ++ (List.replicate part.length 0 ++ tail) := by
  rw [clear, List.take_left, ← List.drop_drop, List.drop_left, List.drop_left, List.append_assoc]

theorem clearWhile_part {done part tail : Bytes} (all : ∀ c ∈ part, test c = true)
    (stop : ∀ c ∈ tail.head?, test c = false) :
    clearWhile test (done ++ (part ++ tail)) done.length =
      (done ++ (List.replicate part.length 0 ++ tail), (done ++ part).length) := by
  have room : (done ++ part).length - done.length = part.length := by
    rw [List.length_append]
    omega
  rw [clearWhile, skipWhile_part all stop, room, clear_part]

theorem byteAt_part (done tail : Bytes) :
    byteAt (done ++ tail) done.length = tail.head?.getD 0 := by
  rw [byteAt, List.getD_eq_getElem?_getD, List.getElem?_append_right (le_refl _), Nat.sub_self,
    List.head?_eq_getElem?]

theorem cStringAt_part {done text tail : Bytes} (full : 0 ∉ text) :
    cStringAt (done ++ (text ++ 0 :: tail)) done.length = text := by
  rw [cStringAt, List.drop_left]
  apply takeWhile_stop
  · intro c mem
    have other : c ≠ 0 := fun zero => full (zero ▸ mem)
    exact decide_eq_true other
  · rintro _ ⟨⟩
    rfl

/-- What a line leaves of itself, and the offsets in it that are recorded. -/
structure LineRead (done line : Bytes) (found : Option ConfNode) (left : Bytes) : Prop where
  length : left.length = line.length
  pair : ∀ tail : Bytes, found.map (fun node =>
    (cStringAt (done ++ (left ++ 0 :: tail)) node.key,
      cStringAt (done ++ (left ++ 0 :: tail)) node.value)) = linePair line

end Buffer

section Tokens

theorem blank_zero : blank 0 = false := rfl

theorem inToken_eq {c : UInt8} (full : c ≠ 0) : inToken c = !blank c := by
  rw [inToken, decide_eq_true full, Bool.and_true]

/-- A line is blanks, its key, blanks, its value and the rest. -/
structure Tokens (line lead gap : Bytes) : Prop where
  whole : line = lead ++ (keyToken line ++ (gap ++ (valueToken line ++ afterValue line)))
  leadBlank : ∀ c ∈ lead, blank c = true
  gapBlank : ∀ c ∈ gap, blank c = true
  after : afterKey line = gap ++ (valueToken line ++ afterValue line)

theorem tokens (line : Bytes) :
    Tokens line (line.takeWhile blank) ((afterKey line).takeWhile blank) := by
  have after : afterKey line = (afterKey line).takeWhile blank ++
      (valueToken line ++ afterValue line) := by
    rw [valueToken, afterValue, List.takeWhile_append_dropWhile, trimHead,
      List.takeWhile_append_dropWhile]
  constructor
  · rw [← after, keyToken, afterKey, List.takeWhile_append_dropWhile, trimHead,
      List.takeWhile_append_dropWhile]
  · exact fun c mem => List.mem_takeWhile_imp mem
  · exact fun c mem => List.mem_takeWhile_imp mem
  · exact after

theorem keyToken_plain {line : Bytes} : ∀ c ∈ keyToken line, blank c = false := by
  intro c mem
  have token := List.mem_takeWhile_imp mem
  exact (Bool.not_eq_true' (blank c)).mp token

theorem valueToken_plain {line : Bytes} : ∀ c ∈ valueToken line, blank c = false := by
  intro c mem
  have token := List.mem_takeWhile_imp mem
  exact (Bool.not_eq_true' (blank c)).mp token

theorem head_dropWhile (test : UInt8 → Bool) (s : Bytes) :
    ∀ c ∈ (s.dropWhile test).head?, test c = false := by
  intro c head
  have stop := List.head?_dropWhile_not test s
  rw [Option.mem_def.mp head] at stop
  exact stop

/-- A loop that has stopped in a line also stops before the terminator of the line. -/
theorem head_stop {test : UInt8 → Bool} (zero : test 0 = false) {s : Bytes}
    (stop : ∀ c ∈ s.head?, test c = false) (tail : Bytes) :
    ∀ c ∈ (s ++ 0 :: tail).head?, test c = false := by
  cases s with
  | nil =>
    rintro _ ⟨⟩
    exact zero
  | cons c s => exact stop

theorem commentLine_iff (line tail : Bytes) :
    (trimHead line ++ 0 :: tail).head?.getD 0 = 35 ↔ commentLine line = true := by
  rw [commentLine, decide_eq_true_eq]
  cases trimHead line with
  | nil => simp
  | cons c rest => simp

theorem byteAt_zero_iff {s : Bytes} (full : 0 ∉ s) (tail : Bytes) :
    (s ++ 0 :: tail).head?.getD 0 = 0 ↔ s = [] := by
  cases s with
  | nil => simp
  | cons c rest =>
    have other : c ≠ 0 := fun zero => full (zero ▸ List.mem_cons_self)
    simp [other]

end Tokens

section Line
variable (done tail : Bytes) {line : Bytes}

/-- The first loop stops at the first token. -/
theorem skip_lead : skipWhile blank (done ++ (line ++ 0 :: tail)) done.length =
    (done ++ line.takeWhile blank).length := by
  have split : line ++ 0 :: tail = line.takeWhile blank ++ (trimHead line ++ 0 :: tail) := by
    rw [trimHead, ← List.append_assoc, List.takeWhile_append_dropWhile]
  rw [split]
  exact skipWhile_part (tokens line).leadBlank
    (head_stop blank_zero (head_dropWhile blank line) tail)

theorem token_stop {s : Bytes} (stop : ∀ c ∈ s.head?, (!blank c) = false) :
    ∀ c ∈ (s ++ 0 :: tail).head?, inToken c = false := by
  apply head_stop rfl
  intro c head
  rw [inToken, stop c head]
  rfl

theorem token_all {s : Bytes} (plain : ∀ c ∈ s, blank c = false) (full : ∀ c ∈ s, c ≠ 0) :
    ∀ c ∈ s, inToken c = true := by
  intro c mem
  rw [inToken_eq (full c mem), plain c mem]
  rfl

theorem line_shape (lead : Bytes) (split : line = lead ++ trimHead line) :
    done ++ (line ++ 0 :: tail) =
      (done ++ lead) ++ (keyToken line ++ (afterKey line ++ 0 :: tail)) := by
  have trimmed : trimHead line = keyToken line ++ afterKey line := by
    rw [keyToken, afterKey, List.takeWhile_append_dropWhile]
  conv_lhs => rw [split, trimmed]
  simp only [List.append_assoc]

/-- A cleared stretch in front of a terminator is a terminator itself. -/
theorem zeros_cons (n : Nat) : ∃ more, List.replicate n (0 : UInt8) ++ 0 :: tail = 0 :: more := by
  cases n with
  | zero => exact ⟨tail, rfl⟩
  | succ n => exact ⟨List.replicate n 0 ++ 0 :: tail, rfl⟩

variable {done} in
/-- A line that was cut behind its key and behind its value is read back. -/
theorem cut_reads {lead key gap value rest : Bytes} (fullKey : 0 ∉ key) (fullValue : 0 ∉ value)
    (apart : gap ≠ []) :
    let buf := done ++ ((lead ++ key ++ List.replicate gap.length 0 ++ value ++
      List.replicate rest.length 0) ++ 0 :: tail)
    cStringAt buf (done ++ lead).length = key ∧
      cStringAt buf (done ++ lead ++ key ++ gap).length = value := by
  intro buf
  obtain ⟨more, behind⟩ := zeros_cons tail rest.length
  constructor
  · obtain ⟨c, gap, rfl⟩ := List.exists_cons_of_ne_nil apart
    have shape : buf = (done ++ lead) ++ (key ++ 0 :: (List.replicate gap.length 0 ++ value ++
        List.replicate rest.length 0 ++ 0 :: tail)) := by
      simp only [buf, List.length_cons, List.replicate_succ, List.append_assoc, List.cons_append]
    rw [shape]
    exact cStringAt_part fullKey
  · have shape : buf = (done ++ lead ++ key ++ List.replicate gap.length 0) ++
        (value ++ 0 :: more) := by
      rw [← behind]
      simp only [buf, List.append_assoc]
    have size : (done ++ lead ++ key ++ gap).length =
        (done ++ lead ++ key ++ List.replicate gap.length 0).length := by
      simp only [List.length_append, List.length_replicate]
    rw [shape, size]
    exact cStringAt_part fullValue

/-- What `os_analy_line` makes of a line with its terminator. -/
theorem osAnalyLine_reads (full : 0 ∉ line) :
    ∃ left found, osAnalyLine (done ++ (line ++ 0 :: tail)) done.length =
      (done ++ (left ++ 0 :: tail), found) ∧ LineRead done line found left := by
  have start := @skip_lead done tail line
  obtain ⟨whole, leadBlank, gapBlank, after⟩ := tokens line
  have split : line = line.takeWhile blank ++ trimHead line := by
    rw [trimHead, List.takeWhile_append_dropWhile]
  have gapSome : afterKey line ≠ [] → (afterKey line).takeWhile blank ≠ [] := by
    intro some
    obtain ⟨c, rest, eq⟩ := List.exists_cons_of_ne_nil some
    have stop := head_dropWhile (fun c => !blank c) (trimHead line) c
    have spaced : blank c = true := by
      simpa using stop (show (afterKey line).head? = _ by rw [eq]; rfl)
    rw [eq, List.takeWhile_cons_of_pos spaced]
    exact List.cons_ne_nil _ _
  generalize line.takeWhile blank = lead at *
  generalize (afterKey line).takeWhile blank = gap at *
  have fullAll : ∀ c ∈ line, c ≠ 0 := fun c mem zero => full (zero ▸ mem)
  have fullKey : ∀ c ∈ keyToken line, c ≠ 0 := by
    refine fun c mem => fullAll c ?_
    rw [whole]
    simp [mem]
  have fullAfter : ∀ c ∈ afterKey line, c ≠ 0 := by
    refine fun c mem => fullAll c ?_
    rw [whole, ← after]
    simp [mem]
  have fullValue : ∀ c ∈ valueToken line, c ≠ 0 := by
    refine fun c mem => fullAfter c ?_
    rw [after]
    simp [mem]
  have fullRest : ∀ c ∈ afterValue line, c ≠ 0 := by
    refine fun c mem => fullAfter c ?_
    rw [after]
    simp [mem]
  have shape := line_shape done tail lead split
  have atKey : byteAt (done ++ (line ++ 0 :: tail)) (done ++ lead).length =
      (trimHead line ++ 0 :: tail).head?.getD 0 := by
    conv_lhs => rw [split, List.append_assoc, ← List.append_assoc]
    exact byteAt_part _ _
  by_cases comment : commentLine line = true
  · refine ⟨line, none, ?_, rfl, fun tail => ?_⟩
    · rw [osAnalyLine, start, atKey, if_pos ((commentLine_iff line tail).mpr comment)]
    · rw [linePair, if_pos (Or.inl comment), Option.map_none]
  have other : ¬ (trimHead line ++ 0 :: tail).head?.getD 0 = 35 :=
    fun h => comment ((commentLine_iff line tail).mp h)
  have behindKey : skipWhile inToken (done ++ (line ++ 0 :: tail)) (done ++ lead).length =
      (done ++ lead ++ keyToken line).length := by
    rw [shape]
    exact skipWhile_part (token_all keyToken_plain fullKey)
      (token_stop tail (head_dropWhile (fun c => !blank c) (trimHead line)))
  have atBehind : byteAt (done ++ (line ++ 0 :: tail)) (done ++ lead ++ keyToken line).length =
      (afterKey line ++ 0 :: tail).head?.getD 0 := by
    rw [shape, ← List.append_assoc]
    exact byteAt_part _ _
  have ends := byteAt_zero_iff (fun mem => fullAfter 0 mem rfl) tail
  by_cases alone : afterKey line = []
  · refine ⟨line, none, ?_, rfl, fun tail => ?_⟩
    · rw [osAnalyLine, start, atKey, if_neg other]
      dsimp only
      rw [behindKey, atBehind, if_pos (ends.mpr alone)]
    · rw [linePair, if_pos (Or.inr alone), Option.map_none]
  have goes : ¬ (afterKey line ++ 0 :: tail).head?.getD 0 = 0 := fun h => alone (ends.mp h)
  -- the blanks behind the key are cleared
  have cutGap : clearWhile blank (done ++ (line ++ 0 :: tail))
      (done ++ lead ++ keyToken line).length =
      (done ++ lead ++ keyToken line ++ (List.replicate gap.length 0 ++
        (valueToken line ++ (afterValue line ++ 0 :: tail))),
        (done ++ lead ++ keyToken line ++ gap).length) := by
    have here : done ++ (line ++ 0 :: tail) = done ++ lead ++ keyToken line ++
        (gap ++ (valueToken line ++ (afterValue line ++ 0 :: tail))) := by
      rw [shape, after]
      simp only [List.append_assoc]
    have stop : ∀ c ∈ (valueToken line ++ (afterValue line ++ 0 :: tail)).head?,
        blank c = false := by
      have trimmed : valueToken line ++ afterValue line = trimHead (afterKey line) := by
        rw [valueToken, afterValue, List.takeWhile_append_dropWhile]
      rw [← List.append_assoc, trimmed]
      exact head_stop blank_zero (head_dropWhile blank (afterKey line)) tail
    rw [here]
    exact clearWhile_part gapBlank stop
  -- and all that is behind the value
  have sized : (done ++ lead ++ keyToken line ++ gap).length =
      (done ++ lead ++ keyToken line ++ List.replicate gap.length 0).length := by
    simp only [List.length_append, List.length_replicate]
  have behindValue : skipWhile inToken (done ++ lead ++ keyToken line ++
      (List.replicate gap.length 0 ++ (valueToken line ++ (afterValue line ++ 0 :: tail))))
      (done ++ lead ++ keyToken line ++ gap).length =
      (done ++ lead ++ keyToken line ++ List.replicate gap.length 0 ++ valueToken line).length := by
    rw [sized, ← List.append_assoc]
    exact skipWhile_part (token_all valueToken_plain fullValue)
      (token_stop tail (head_dropWhile (fun c => !blank c) (trimHead (afterKey line))))
  have cutRest : (clearWhile (· ≠ 0) (done ++ lead ++ keyToken line ++
      (List.replicate gap.length 0 ++ (valueToken line ++ (afterValue line ++ 0 :: tail))))
      (done ++ lead ++ keyToken line ++ List.replicate gap.length 0 ++ valueToken line).length).1 =
      done ++ lead ++ keyToken line ++ List.replicate gap.length 0 ++ valueToken line ++
        (List.replicate (afterValue line).length 0 ++ 0 :: tail) := by
    have stop : ∀ c ∈ (0 :: tail).head?, decide (c ≠ 0) = false := by
      rintro _ ⟨⟩
      rfl
    rw [← List.append_assoc, ← List.append_assoc,
      clearWhile_part (fun c mem => decide_eq_true (fullRest c mem)) stop]
  have cut := fun tail => @cut_reads done tail lead _ _ _ (afterValue line)
    (fun mem => fullKey 0 mem rfl) (fun mem => fullValue 0 mem rfl) (gapSome alone)
  refine ⟨lead ++ keyToken line ++ List.replicate gap.length 0 ++ valueToken line ++
    List.replicate (afterValue line).length 0,
    some ⟨(done ++ lead).length, (done ++ lead ++ keyToken line ++ gap).length⟩, ?_, ?_,
    fun tail => ?_⟩
  · rw [osAnalyLine, start, atKey, if_neg other]
    dsimp only
    rw [behindKey, atBehind, if_neg goes, cutGap]
    dsimp only
    rw [behindValue, cutRest]
    simp only [List.append_assoc]
  · have sizes := congrArg List.length whole
    simp only [List.length_append, List.length_replicate] at sizes ⊢
    omega
  · rw [Option.map_some, (cut tail).1, (cut tail).2, linePair, if_neg]
    exact fun h => h.elim comment alone

end Line

section Lines

theorem consLine_ne_nil (c : UInt8) (lines : List Bytes) : consLine c lines ≠ [] := by
  cases lines with
  | nil => exact List.cons_ne_nil _ _
  | cons line lines => exact List.cons_ne_nil _ _

theorem consLine_append {c : UInt8} {lines : List Bytes} (some : lines ≠ []) (more : List Bytes) :
    consLine c (lines ++ more) = consLine c lines ++ more := by
  cases lines with
  | nil => exact absurd rfl some
  | cons line lines => rfl

theorem strstr_sound {needle text before after : Bytes}
    (found : strstr needle text = some (before, after)) : text = before ++ needle ++ after := by
  induction text generalizing before with
  | nil => cases found
  | cons c rest ih =>
    rw [strstr] at found
    split at found
    · rename_i here
      obtain ⟨more, eq⟩ := List.isPrefixOf_iff_prefix.mp here
      obtain ⟨rfl, rfl⟩ := Prod.mk.inj (Option.some.inj found)
      rw [← eq, List.drop_left, List.nil_append]
    · obtain ⟨⟨first, last⟩, later, eq⟩ := Option.map_eq_some_iff.mp found
      obtain ⟨rfl, rfl⟩ := Prod.mk.inj eq
      rw [ih later]
      rfl

theorem lfLines_ne_nil (text : Bytes) : lfLines text ≠ [] := by
  cases text with
  | nil => exact List.cons_ne_nil _ _
  | cons c rest =>
    rw [lfLines]
    split
    · exact List.cons_ne_nil _ _
    · exact consLine_ne_nil c _

theorem crlfLines_ne_nil (text : Bytes) : crlfLines text ≠ [] := by
  fun_cases crlfLines text with
  | case1 => exact List.cons_ne_nil _ _
  | case2 rest => exact List.cons_ne_nil _ _
  | case3 c rest => exact consLine_ne_nil c _

/-- A byte that does not start a CRLF is passed over. -/
theorem strstr_crlf_cons {c : UInt8} {rest : Bytes} (other : ∀ more, c :: rest ≠ 13 :: 10 :: more) :
    strstr crlf (c :: rest) = (strstr crlf rest).map fun found => (c :: found.1, found.2) := by
  rw [strstr, if_neg]
  intro here
  obtain ⟨more, eq⟩ := List.isPrefixOf_iff_prefix.mp here
  exact other more eq.symm

theorem crlfLines_eq (text : Bytes) : crlfLines text = match strstr crlf text with
    | none => [text]
    | some (before, after) => before :: crlfLines after := by
  induction text using crlfLines.induct with
  | case1 => rfl
  | case2 rest ih => rfl
  | case3 c rest other ih =>
    rw [crlfLines.eq_3 c rest other, ih, strstr_crlf_cons fun more eq => by
      obtain ⟨rfl, rfl⟩ := List.cons.inj eq
      exact other more rfl rfl]
    cases strstr crlf rest with
    | none => rfl
    | some found => rfl

theorem lfLines_eq (text : Bytes) : lfLines text = match strstr [10] text with
    | none => [text]
    | some (before, after) => before :: lfLines after := by
  induction text with
  | nil => rfl
  | cons c rest ih =>
    rw [lfLines, strstr]
    by_cases ends : c = 10
    · subst ends
      rfl
    · have other : ¬ [10].isPrefixOf (c :: rest) = true := by
        intro here
        obtain ⟨more, eq⟩ := List.isPrefixOf_iff_prefix.mp here
        exact ends (List.cons.inj eq).1.symm
      rw [if_neg ends, if_neg other, ih]
      cases strstr [10] rest with
      | none => rfl
      | some found => rfl

/-- The lines as the loop cuts them. -/
def cutLines (text : Bytes) : List Bytes :=
  (crlfLines text).dropLast ++ lfLines ((crlfLines text).getLastD [])

theorem cutLines_crlf {text before after : Bytes}
    (found : strstr crlf text = some (before, after)) :
    cutLines text = before :: cutLines after := by
  have lines := crlfLines_eq text
  rw [found] at lines
  obtain ⟨line, more, eq⟩ := List.exists_cons_of_ne_nil (crlfLines_ne_nil after)
  rw [cutLines, lines, cutLines]
  dsimp only
  rw [eq]
  rfl

theorem cutLines_none {text : Bytes} (absent : strstr crlf text = none) :
    cutLines text = lfLines text := by
  have lines := crlfLines_eq text
  rw [absent] at lines
  rw [cutLines, lines]
  rfl

/-- Behind a line that ends in an LF there is no CRLF, if there was none before. -/
theorem strstr_crlf_after {before after : Bytes}
    (absent : strstr crlf (before ++ [10] ++ after) = none) : strstr crlf after = none := by
  have pass : ∀ (c : UInt8) (rest : Bytes), strstr crlf (c :: rest) = none →
      strstr crlf rest = none := by
    intro c rest absent
    rw [strstr] at absent
    split at absent
    · cases absent
    · exact Option.map_eq_none_iff.mp absent
  induction before with
  | nil => exact pass 10 after absent
  | cons c before ih => exact ih (pass c _ absent)

theorem confLines_cons {c : UInt8} {rest : Bytes} (other : ∀ more, c :: rest ≠ 13 :: 10 :: more) :
    confLines (c :: rest) =
      if c = 10 then [] :: confLines rest else consLine c (confLines rest) := by
  rw [confLines.eq_3 c rest fun more h1 h2 => other more (by rw [h1, h2])]

/-- Every line ends where an LF or a CRLF does. -/
theorem confLines_eq (text : Bytes) : confLines text = match strstr crlf text with
    | none => lfLines text
    | some (before, after) => lfLines before ++ confLines after := by
  induction text using crlfLines.induct with
  | case1 => rfl
  | case2 rest ih => rfl
  | case3 c rest other ih =>
    have apart : ∀ more, c :: rest ≠ 13 :: 10 :: more := fun more eq =>
      other more (List.cons.inj eq).1 (List.cons.inj eq).2
    rw [confLines_cons apart, ih, strstr_crlf_cons apart]
    cases strstr crlf rest with
    | none => rfl
    | some found =>
      dsimp only [Option.map_some]
      rw [lfLines]
      split
      · rfl
      · exact consLine_append (lfLines_ne_nil found.1) _

theorem confLines_crlf (text : Bytes) : confLines text =
    (crlfLines text).dropLast.flatMap lfLines ++ lfLines ((crlfLines text).getLastD []) := by
  generalize size : text.length = n
  induction n using Nat.strongRecOn generalizing text with
  | ind n ih =>
    rw [confLines_eq, crlfLines_eq]
    cases cut : strstr crlf text with
    | none => rfl
    | some found =>
      have whole := strstr_sound cut
      have shorter : found.2.length < n := by
        rw [← size, whole]
        simp only [List.length_append]
        have two : crlf.length = 2 := rfl
        omega
      obtain ⟨line, more, eq⟩ := List.exists_cons_of_ne_nil (crlfLines_ne_nil found.2)
      have rest := ih found.2.length shorter found.2 rfl
      dsimp only
      rw [rest, eq]
      simp [List.append_assoc]

end Lines

section Loop

/-- What a number of turns from behind `done` make of the rest of the text. -/
def Reads (done rest : Bytes) (turns : Option (Bytes × List ConfNode)) : Prop :=
  ∃ left nodes, turns = some (done ++ (left ++ [0]), nodes) ∧ left.length = rest.length ∧
    nodes.map (fun node => (cStringAt (done ++ (left ++ [0])) node.key,
      cStringAt (done ++ (left ++ [0])) node.value)) = (cutLines rest).filterMap linePair

/-- A turn on a line whose end, of `n` bytes, is cleared, and the turns behind it. -/
theorem reads_turn (done : Bytes) {line more : Bytes} {n fuel : Nat} (full : 0 ∉ line)
    (ends : n ≠ 0 ∨ more = [])
    (later : ∀ done, Reads done more (osAnalyLoop fuel (done ++ (more ++ [0])) done.length)) :
    ∃ left nodes, left.length = line.length + n + more.length ∧
      (let turn := osAnalyLine (done ++ (line ++ (List.replicate n 0 ++ (more ++ [0]))))
        done.length
       (osAnalyLoop fuel turn.1 (done.length + line.length + n)).map fun (buf, nodes) =>
        (buf, turn.2.toList ++ nodes)) = some (done ++ (left ++ [0]), nodes) ∧
      nodes.map (fun node => (cStringAt (done ++ (left ++ [0])) node.key,
        cStringAt (done ++ (left ++ [0])) node.value)) =
        (linePair line).toList ++ (cutLines more).filterMap linePair := by
  have terminated : ∀ s : Bytes, s.length = more.length →
      ∃ tail, List.replicate n (0 : UInt8) ++ (s ++ [0]) = 0 :: tail := by
    intro s size
    cases n with
    | zero =>
      have none : s = [] := by
        rcases ends with h | h
        · exact absurd rfl h
        · rw [← List.length_eq_zero_iff, size, h]
          rfl
      exact ⟨[], by rw [none]; rfl⟩
    | succ n => exact ⟨List.replicate n 0 ++ (s ++ [0]), rfl⟩
  obtain ⟨tail, here⟩ := terminated more rfl
  obtain ⟨left, found, run, size, pair⟩ := osAnalyLine_reads done tail full
  obtain ⟨left2, nodes, turns, size2, pairs⟩ := later (done ++ left ++ List.replicate n 0)
  obtain ⟨tail2, there⟩ := terminated left2 size2
  have cursor : done.length + line.length + n =
      (done ++ left ++ List.replicate n 0).length := by
    simp only [List.length_append, List.length_replicate, size]
  have whole : done ++ left ++ List.replicate n 0 ++ (left2 ++ [0]) =
      done ++ ((left ++ List.replicate n 0 ++ left2) ++ [0]) := by
    simp only [List.append_assoc]
  refine ⟨left ++ List.replicate n 0 ++ left2, found.toList ++ nodes, ?_, ?_, ?_⟩
  · simp only [List.length_append, List.length_replicate, size, size2]
  · rw [here, run]
    dsimp only
    rw [← here, cursor]
    have shape : done ++ (left ++ (List.replicate n 0 ++ (more ++ [0]))) =
        done ++ left ++ List.replicate n 0 ++ (more ++ [0]) := by
      simp only [List.append_assoc]
    rw [shape, turns, Option.map_some, whole]
  · rw [whole] at pairs
    have first : done ++ ((left ++ List.replicate n 0 ++ left2) ++ [0]) =
        done ++ (left ++ 0 :: tail2) := by
      rw [← there]
      simp only [List.append_assoc]
    rw [List.map_append, pairs, first]
    congr 1
    rw [← pair tail2]
    cases found with
    | none => rfl
    | some node => rfl

/-- A turn on a line with its end. -/
theorem reads_ended (done : Bytes) {rest line eol more : Bytes} {fuel : Nat} (full : 0 ∉ rest)
    (whole : rest = line ++ eol ++ more) (ends : eol ≠ [])
    (lines : cutLines rest = line :: cutLines more)
    (later : ∀ done, Reads done more (osAnalyLoop fuel (done ++ (more ++ [0])) done.length)) :
    Reads done rest
      (let turn := osAnalyLine
        (clear (done ++ (rest ++ [0])) (done.length + line.length) eol.length) done.length
       (osAnalyLoop fuel turn.1 (done.length + line.length + eol.length)).map fun (buf, nodes) =>
        (buf, turn.2.toList ++ nodes)) := by
  have fullLine : 0 ∉ line := by
    intro mem
    apply full
    rw [whole, List.append_assoc]
    exact List.mem_append_left _ mem
  have clears : eol.length ≠ 0 ∨ more = [] :=
    Or.inl fun none => ends (List.length_eq_zero_iff.mp none)
  have cut : clear (done ++ (rest ++ [0])) (done.length + line.length) eol.length =
      done ++ (line ++ (List.replicate eol.length 0 ++ (more ++ [0]))) := by
    have shape : done ++ (rest ++ [0]) = (done ++ line) ++ (eol ++ (more ++ [0])) := by
      rw [whole]
      simp only [List.append_assoc]
    rw [shape, ← List.length_append, clear_part, List.append_assoc]
  obtain ⟨left, nodes, size, run, pairs⟩ := reads_turn done fullLine clears later
  refine ⟨left, nodes, ?_, ?_, ?_⟩
  · rw [cut]
    exact run
  · rw [size, whole]
    simp only [List.length_append]
  · rw [pairs, lines]
    cases pair : linePair line with
    | none => rw [List.filterMap_cons_none pair]; rfl
    | some _ => rw [List.filterMap_cons_some pair]; rfl

/-- The last turn, on a line that has no end. -/
theorem reads_last {done rest : Bytes} {fuel : Nat} (full : 0 ∉ rest)
    (lines : cutLines rest = [rest])
    (later : ∀ done, Reads done [] (osAnalyLoop fuel (done ++ ([] ++ [0])) done.length)) :
    Reads done rest
      (let turn := osAnalyLine (done ++ (rest ++ [0])) done.length
       (osAnalyLoop fuel turn.1 (done.length + rest.length)).map fun (buf, nodes) =>
        (buf, turn.2.toList ++ nodes)) := by
  obtain ⟨left, nodes, size, run, pairs⟩ :=
    @reads_turn done rest [] 0 fuel full (Or.inr rfl) later
  refine ⟨left, nodes, run, size, ?_⟩
  rw [pairs, lines]
  cases pair : linePair rest with
  | none => rw [List.filterMap_cons_none pair]; rfl
  | some _ => rw [List.filterMap_cons_some pair]; rfl

/-- The loop, from behind what is done. -/
theorem osAnalyLoop_reads {fuel : Nat} {rest : Bytes} (done : Bytes) (full : 0 ∉ rest)
    (enough : rest.length < fuel) :
    Reads done rest (osAnalyLoop fuel (done ++ (rest ++ [0])) done.length) := by
  induction fuel generalizing done rest with
  | zero => exact absurd enough (Nat.not_lt_zero _)
  | succ fuel ih =>
    by_cases empty : rest = []
    · subst empty
      refine ⟨[], [], ?_, rfl, rfl⟩
      rw [osAnalyLoop, if_pos]
      exact byteAt_part done [0]
    · have goes : ¬ byteAt (done ++ (rest ++ [0])) done.length = 0 := by
        rw [byteAt_part, byteAt_zero_iff full []]
        exact empty
      -- what stands behind the end of a line is shorter than the rest
      have later : ∀ line eol more : Bytes, rest = line ++ eol ++ more → eol ≠ [] →
          ∀ done, Reads done more (osAnalyLoop fuel (done ++ (more ++ [0])) done.length) := by
        intro line eol more whole ends done
        have size := congrArg List.length whole
        simp only [List.length_append] at size
        have some := List.length_pos_iff.mpr ends
        apply ih done _ (by omega)
        intro mem
        apply full
        rw [whole]
        exact List.mem_append_right _ mem
      have stops : ∀ done,
          Reads done [] (osAnalyLoop fuel (done ++ ([] ++ [0])) done.length) := by
        have some := List.length_pos_iff.mpr empty
        exact fun done => ih done (List.not_mem_nil) (by rw [List.length_nil]; omega)
      rw [osAnalyLoop, if_neg goes, cStringAt_part full]
      cases crlfAt : strstr crlf rest with
      | some found =>
        have whole := strstr_sound crlfAt
        have turn := reads_ended done full whole (List.cons_ne_nil _ _)
          (cutLines_crlf crlfAt) (later found.1 crlf found.2 whole (List.cons_ne_nil _ _))
        have two : crlf.length = 2 := rfl
        rw [two] at turn
        exact turn
      | none => cases lfAt : strstr [10] rest with
        | some found =>
          have whole := strstr_sound lfAt
          have lines : cutLines rest = found.1 :: cutLines found.2 := by
            have rest := lfLines_eq rest
            rw [lfAt] at rest
            have absent := crlfAt
            rw [whole] at absent
            rw [cutLines_none crlfAt, rest, cutLines_none (strstr_crlf_after absent)]
          have turn := reads_ended done full whole (List.cons_ne_nil _ _) lines
            (later found.1 [10] found.2 whole (List.cons_ne_nil _ _))
          rw [List.length_singleton] at turn
          exact turn
        | none =>
          have lines : cutLines rest = [rest] := by
            have whole := lfLines_eq rest
            rw [lfAt] at whole
            rw [cutLines_none crlfAt, whole]
          exact reads_last full lines stops

/-- The records of the whole file, and what a query finds in them. -/
theorem osAnalyConf_pairs {text : Bytes} (full : 0 ∉ text) :
    ∃ conf, osAnalyConf text = some conf ∧ conf.pairs = (cutLines text).filterMap linePair := by
  obtain ⟨left, nodes, run, -, pairs⟩ :=
    osAnalyLoop_reads [] full (Nat.lt_succ_self text.length)
  rw [List.nil_append] at run pairs
  refine ⟨⟨left ++ [0], nodes⟩, ?_, pairs⟩
  have start : osAnalyLoop (text.length + 1) (text ++ [0]) 0 = some (left ++ [0], nodes) := run
  rw [osAnalyConf, start]
  rfl

theorem osQueryConf_eq (conf : ConfObject) (key : Bytes) : osQueryConf conf key =
    (conf.pairs.find? fun pair => fold pair.1 = fold key).map Prod.snd := by
  rw [osQueryConf, ConfObject.pairs, List.find?_map, Option.map_map]
  have same : ∀ name : Bytes,
      (strcasecmp name key = .eq) ↔ (fold name = fold key) := fun name => strcasecmp_eq_iff
  congr 2
  funext node
  exact decide_eq_decide.mpr (same _)

end Loop

/-! ## Lines that end in an LF before a CRLF -/

section Stretch
variable (first rest : Bytes)

theorem trimHead_lf : trimHead (first ++ 10 :: rest) = trimHead first ++ 10 :: rest := by
  rw [trimHead, trimHead, List.dropWhile_append]
  split
  · rename_i none
    rw [List.isEmpty_iff.mp none]
    rfl
  · rfl

theorem commentLine_lf : commentLine (first ++ 10 :: rest) = commentLine first := by
  rw [commentLine, commentLine, trimHead_lf]
  cases trimHead first with
  | nil => rfl
  | cons c text => rfl

/-- A token that goes up to the end of its line goes on behind the LF. -/
theorem takeToken_lf : (first ++ 10 :: rest).takeWhile (fun c => !blank c) =
    if first.dropWhile (fun c => !blank c) = [] then
      first ++ 10 :: rest.takeWhile fun c => !blank c
    else first.takeWhile fun c => !blank c := by
  rw [List.takeWhile_append]
  have split := congrArg List.length
    (List.takeWhile_append_dropWhile (p := fun c => !blank c) (l := first))
  rw [List.length_append] at split
  by_cases ends : first.dropWhile (fun c => !blank c) = []
  · rw [if_pos (by rw [ends] at split; exact split), if_pos ends]
    rfl
  · have some := List.length_pos_iff.mpr ends
    rw [if_neg (by omega), if_neg ends]

theorem dropToken_lf : (first ++ 10 :: rest).dropWhile (fun c => !blank c) =
    if first.dropWhile (fun c => !blank c) = [] then rest.dropWhile fun c => !blank c
    else first.dropWhile (fun c => !blank c) ++ 10 :: rest := by
  rw [List.dropWhile_append]
  simp only [List.isEmpty_iff]
  rfl

theorem afterKey_lf : afterKey (first ++ 10 :: rest) =
    if afterKey first = [] then rest.dropWhile fun c => !blank c
    else afterKey first ++ 10 :: rest := by
  rw [afterKey, trimHead_lf, dropToken_lf]
  rfl

theorem keyToken_lf : keyToken (first ++ 10 :: rest) =
    if afterKey first = [] then trimHead first ++ 10 :: rest.takeWhile fun c => !blank c
    else keyToken first := by
  rw [keyToken, trimHead_lf, takeToken_lf]
  rfl

theorem linePair_none_iff (line : Bytes) :
    linePair line = none ↔ commentLine line = true ∨ afterKey line = [] := by
  rw [linePair]
  split
  · rename_i silent
    exact iff_of_true rfl silent
  · rename_i speaks
    exact iff_of_false (fun h => by cases h) speaks

/-- A pair whose key or value goes across an LF. -/
def Crosses (pair : Bytes × Bytes) : Prop := 10 ∈ pair.1 ∨ 10 ∈ pair.2

/-- What is read of a first line with more lines behind it: its own pair, nothing, or a
pair that no line has. -/
theorem linePair_stretch :
    (commentLine first = true ∧ linePair (first ++ 10 :: rest) = none) ∨
    (commentLine first = false ∧ afterKey first ≠ [] ∧ afterValue first ≠ [] ∧
      linePair (first ++ 10 :: rest) = linePair first) ∨
    (commentLine first = false ∧ afterKey first = [] ∧ (∀ c ∈ rest, blank c = false) ∧
      linePair (first ++ 10 :: rest) = none) ∨
    (commentLine first = false ∧
      (afterKey first = [] → ¬ ∀ c ∈ rest, blank c = false) ∧
      (afterKey first ≠ [] → afterValue first = []) ∧
      ∃ pair, linePair (first ++ 10 :: rest) = some pair ∧ Crosses pair) := by
  by_cases comment : commentLine first = true
  · refine Or.inl ⟨comment, ?_⟩
    rw [linePair_none_iff, commentLine_lf]
    exact Or.inl comment
  have speaks : commentLine first = false := Bool.eq_false_iff.mpr comment
  refine Or.inr ?_
  by_cases alone : afterKey first = []
  · have plain : rest.dropWhile (fun c => !blank c) = [] ↔ ∀ c ∈ rest, blank c = false := by
      rw [List.dropWhile_eq_nil_iff]
      simp only [Bool.not_eq_true']
    by_cases free : ∀ c ∈ rest, blank c = false
    · refine Or.inr (Or.inl ⟨speaks, alone, free, ?_⟩)
      rw [linePair_none_iff, afterKey_lf, if_pos alone]
      exact Or.inr (plain.mpr free)
    · refine Or.inr (Or.inr ⟨speaks, fun _ => free, fun some => absurd alone some,
        (keyToken (first ++ 10 :: rest), valueToken (first ++ 10 :: rest)), ?_, Or.inl ?_⟩)
      · rw [linePair, if_neg]
        rw [commentLine_lf, afterKey_lf, if_pos alone, plain]
        exact not_or.mpr ⟨comment, free⟩
      · rw [keyToken_lf, if_pos alone]
        exact List.mem_append_right _ List.mem_cons_self
  · have some : linePair (first ++ 10 :: rest) =
        some (keyToken first, valueToken (first ++ 10 :: rest)) := by
      rw [linePair, if_neg, keyToken_lf, if_neg alone]
      rw [commentLine_lf, afterKey_lf, if_neg alone]
      exact not_or.mpr ⟨comment, List.append_ne_nil_of_left_ne_nil alone _⟩
    have value : valueToken (first ++ 10 :: rest) =
        if afterValue first = [] then
          trimHead (afterKey first) ++ 10 :: rest.takeWhile fun c => !blank c
        else valueToken first := by
      rw [valueToken, afterKey_lf, if_neg alone, trimHead_lf, takeToken_lf]
      rfl
    by_cases ends : afterValue first = []
    · refine Or.inr (Or.inr ⟨speaks, fun none => absurd none alone, fun _ => ends, _, some,
        Or.inr ?_⟩)
      rw [value, if_pos ends]
      exact List.mem_append_right _ List.mem_cons_self
    · refine Or.inl ⟨speaks, alone, ends, ?_⟩
      rw [some, value, if_neg ends, linePair, if_neg (not_or.mpr ⟨comment, alone⟩)]

/-- The lines of a stretch, put together again. -/
theorem lfLines_join (text : Bytes) : ∃ first later, lfLines text = first :: later ∧
    text = first ++ later.flatMap (10 :: ·) ∧ 10 ∉ first ∧ ∀ line ∈ later, 10 ∉ line := by
  induction text with
  | nil => exact ⟨[], [], rfl, rfl, List.not_mem_nil, fun _ mem => absurd mem List.not_mem_nil⟩
  | cons c rest ih =>
    obtain ⟨first, later, lines, whole, plain, each⟩ := ih
    rw [lfLines]
    by_cases ends : c = 10
    · refine ⟨[], first :: later, ?_, ?_, List.not_mem_nil, ?_⟩
      · rw [if_pos ends, lines]
      · rw [ends, whole]
        rfl
      · exact List.forall_mem_cons.mpr ⟨plain, each⟩
    · refine ⟨c :: first, later, ?_, ?_, ?_, each⟩
      · rw [if_neg ends, lines]
        rfl
      · rw [whole]
        rfl
      · rintro (_ | ⟨_, mem⟩)
        · exact ends rfl
        · exact plain mem

/-- No line of its own says a pair that goes across an LF. -/
theorem linePair_within {line : Bytes} {pair : Bytes × Bytes} (plain : 10 ∉ line)
    (said : linePair line = some pair) : ¬ Crosses pair := by
  rw [linePair] at said
  split at said
  · cases said
  · obtain rfl := Option.some.inj said
    have whole := (tokens line).whole
    rintro (mem | mem)
    · apply plain
      rw [whole]
      simp only [List.mem_append]
      exact Or.inr (Or.inl mem)
    · apply plain
      rw [whole]
      simp only [List.mem_append]
      exact Or.inr (Or.inr (Or.inr (Or.inl mem)))

/-- The lines of a stretch say what is read of it as one line. -/
def Same (stretch : Bytes) : Prop :=
  (linePair stretch).toList = (lfLines stretch).filterMap linePair

theorem filterMap_lines (first : Bytes) (later : List Bytes) :
    (first :: later).filterMap linePair =
      (linePair first).toList ++ later.filterMap linePair := by
  cases pair : linePair first with
  | none => rw [List.filterMap_cons_none pair]; rfl
  | some _ => rw [List.filterMap_cons_some pair]; rfl

theorem silent_iff (later : List Bytes) :
    later.filterMap linePair = [] ↔ ∀ line ∈ later, linePair line = none :=
  List.filterMap_eq_nil_iff

/-- What is read of a stretch is part of what its lines say, or crosses an LF. -/
theorem stretch_sublist (stretch : Bytes) :
    (linePair stretch).toList.Sublist ((lfLines stretch).filterMap linePair) ∨
      ∃ pair, linePair stretch = some pair ∧ Crosses pair := by
  obtain ⟨first, later, lines, whole, -⟩ := lfLines_join stretch
  rw [lines, filterMap_lines]
  cases later with
  | nil =>
    rw [whole, List.flatMap_nil, List.append_nil]
    exact Or.inl (List.sublist_append_left _ _)
  | cons line later =>
    rw [whole, List.flatMap_cons, List.cons_append]
    rcases linePair_stretch first (line ++ later.flatMap (10 :: ·)) with
      ⟨-, none⟩ | ⟨-, -, -, own⟩ | ⟨-, -, -, none⟩ | ⟨-, -, -, crossing⟩
    · rw [none]
      exact Or.inl (List.nil_sublist _)
    · rw [own]
      exact Or.inl (List.sublist_append_left _ _)
    · rw [none]
      exact Or.inl (List.nil_sublist _)
    · exact Or.inr crossing

/-- A stretch is read as its lines say exactly when its LFs are harmless. -/
theorem harmless_iff (stretch : Bytes) : Harmless (lfLines stretch) ↔ Same stretch := by
  obtain ⟨first, later, lines, whole, plain, each⟩ := lfLines_join stretch
  rw [Same, lines, filterMap_lines, Harmless]
  cases later with
  | nil =>
    rw [whole, List.flatMap_nil, List.append_nil, List.filterMap_nil, List.append_nil]
    exact iff_of_true (Or.inl rfl) rfl
  | cons line later =>
    have blanks : (∀ c ∈ line ++ later.flatMap (10 :: ·), blank c = false) ↔
        ∀ l ∈ line :: later, ∀ c ∈ l, blank c = false := by
      simp only [List.mem_append, List.mem_flatMap, List.mem_cons]
      constructor
      · rintro free l (rfl | mem) c at_
        · exact free c (Or.inl at_)
        · exact free c (Or.inr ⟨l, mem, Or.inr at_⟩)
      · rintro free c (at_ | ⟨l, mem, rfl | at_⟩)
        · exact free line (Or.inl rfl) c at_
        · rfl
        · exact free l (Or.inr mem) c at_
    have none_of_free : (∀ l ∈ line :: later, ∀ c ∈ l, blank c = false) →
        ∀ l ∈ line :: later, linePair l = none := by
      intro free l mem
      rw [linePair_none_iff]
      refine Or.inr (List.dropWhile_eq_nil_iff.mpr fun c at_ => ?_)
      have here : c ∈ l := List.dropWhile_sublist _ |>.subset at_
      rw [free l mem c here]
      rfl
    rw [whole, List.flatMap_cons, List.cons_append]
    have some : line :: later ≠ [] := List.cons_ne_nil _ _
    have said : [] = (line :: later).filterMap linePair ↔ ∀ l ∈ line :: later, linePair l = none :=
      eq_comm.trans (silent_iff _)
    rcases linePair_stretch first (line ++ later.flatMap (10 :: ·)) with
      ⟨comment, none⟩ | ⟨speaks, key, value, own⟩ | ⟨speaks, alone, free, none⟩ |
        ⟨speaks, busy, ends, pair, read, crosses⟩
    · have silent : linePair first = Option.none := (linePair_none_iff first).mpr (Or.inl comment)
      rw [none, silent, Option.toList_none, List.nil_append, said]
      constructor
      · rintro (h | h | h)
        · exact absurd h some
        · exact h.2
        · exact none_of_free h.2
      · exact fun h => Or.inr (Or.inl ⟨Or.inl comment, h⟩)
    · rw [own, List.self_eq_append_right, silent_iff]
      constructor
      · rintro (h | h | h)
        · exact absurd h some
        · exact h.2
        · exact none_of_free h.2
      · exact fun h => Or.inr (Or.inl ⟨Or.inr value, h⟩)
    · have silent : linePair first = Option.none := (linePair_none_iff first).mpr (Or.inr alone)
      rw [none, silent, Option.toList_none, List.nil_append, said]
      have free := blanks.mp free
      exact iff_of_true (Or.inr (Or.inr ⟨rfl, free⟩)) (none_of_free free)
    · -- a pair across an LF is said by no line
      refine iff_of_false ?_ ?_
      · rintro (h | ⟨h, -⟩ | ⟨silent, free⟩)
        · exact some h
        · rcases h with comment | value
          · rw [speaks] at comment
            cases comment
          · by_cases alone : afterKey first = []
            · apply value
              rw [afterValue, alone]
              rfl
            · exact value (ends alone)
        · rcases (linePair_none_iff first).mp silent with comment | alone
          · rw [speaks] at comment
            cases comment
          · exact busy alone (blanks.mpr free)
      · intro same
        have mem : pair ∈ (linePair first).toList ++ (line :: later).filterMap linePair := by
          rw [← same, read]
          exact List.mem_singleton_self pair
        rcases List.mem_append.mp mem with mem | mem
        · exact linePair_within plain (Option.mem_toList.mp mem) crosses
        · obtain ⟨l, at_, said⟩ := List.mem_filterMap.mp mem
          exact linePair_within (each l at_) said crosses

/-- Lists that are parts of others, one by one, are equal to them if they are in all. -/
theorem each_same {stretches : List Bytes} {last : List (Bytes × Bytes)}
    (all : stretches.flatMap (fun s => (linePair s).toList) ++ last =
      stretches.flatMap (fun s => (lfLines s).filterMap linePair) ++ last) :
    ∀ stretch ∈ stretches, Same stretch := by
  have within : ∀ stretch ∈ stretches,
      (linePair stretch).toList.Sublist ((lfLines stretch).filterMap linePair) := by
    intro stretch mem
    rcases stretch_sublist stretch with part | ⟨pair, read, crosses⟩
    · exact part
    · have listed : pair ∈ stretches.flatMap fun s => (lfLines s).filterMap linePair := by
        rw [← List.append_cancel_right all]
        exact List.mem_flatMap.mpr ⟨stretch, mem, by rw [read]; exact List.mem_singleton_self pair⟩
      obtain ⟨other, -, said⟩ := List.mem_flatMap.mp listed
      obtain ⟨line, at_, said⟩ := List.mem_filterMap.mp said
      obtain ⟨first, later, lines, -, plain, each⟩ := lfLines_join other
      rw [lines] at at_
      have own := (List.forall_mem_cons (p := fun l => 10 ∉ l)).mpr ⟨plain, each⟩ line at_
      exact absurd crosses (linePair_within own said)
  have sizes := congrArg List.length (List.append_cancel_right all)
  clear all
  induction stretches with
  | nil => exact fun _ mem => absurd mem List.not_mem_nil
  | cons stretch stretches ih =>
    obtain ⟨here, later⟩ := List.forall_mem_cons.mp within
    have rest : (stretches.flatMap fun s => (linePair s).toList).length ≤
        (stretches.flatMap fun s => (lfLines s).filterMap linePair).length := by
      clear ih sizes within
      induction stretches with
      | nil => exact le_refl _
      | cons s stretches ih =>
        have size := (later s List.mem_cons_self).length_le
        have sizes := ih fun s mem => later s (List.mem_cons_of_mem _ mem)
        simp only [List.flatMap_cons, List.length_append]
        omega
    have size := here.length_le
    simp only [List.flatMap_cons, List.length_append] at sizes
    refine List.forall_mem_cons.mpr ⟨here.eq_of_length (by omega), ih later (by omega)⟩

end Stretch

/-- The file is read as its lines say exactly when the LFs before its CRLFs are harmless. -/
theorem readsAsWritten_iff (text : Bytes) (full : 0 ∉ text) :
    ReadsAsWritten text ↔ Unmixed text := by
  obtain ⟨conf, run, pairs⟩ := osAnalyConf_pairs full
  have said : confPairs text =
      (crlfLines text).dropLast.flatMap (fun s => (lfLines s).filterMap linePair) ++
        (lfLines ((crlfLines text).getLastD [])).filterMap linePair := by
    rw [confPairs, confLines_crlf, List.filterMap_append, List.filterMap_flatMap]
  have read : conf.pairs = (crlfLines text).dropLast.flatMap (fun s => (linePair s).toList) ++
      (lfLines ((crlfLines text).getLastD [])).filterMap linePair := by
    rw [pairs, cutLines, List.filterMap_append, List.filterMap_eq_flatMap_toList]
  constructor
  · rintro ⟨other, again, same, -⟩
    obtain rfl := Option.some.inj (run.symm.trans again)
    rw [read, said] at same
    exact fun stretch mem => (harmless_iff stretch).mpr (each_same same stretch mem)
  · intro unmixed
    have same : conf.pairs = confPairs text := by
      rw [read, said]
      congr 1
      apply List.flatMap_congr
      exact fun stretch mem => (harmless_iff stretch).mp (unmixed stretch mem)
    refine ⟨conf, run, same, fun key => ?_⟩
    rw [osQueryConf_eq, same]

/-- A comment and a full line with an LF before a CRLF, and a last line with an LF. -/
def harmlessMix : Bytes :=
  ofChars ['#', '\n', 'x', '\r', '\n', 'a', ' ', '1', ' ', '\n', 'x', '\r', '\n', 'b', '\t', '\n']

theorem readsAsWritten_harmlessMix : ReadsAsWritten harmlessMix :=
  (readsAsWritten_iff harmlessMix (by decide)).mpr (by decide)

/-- A line that ends in an LF, and one that ends in a CRLF. -/
def mixedLines : Bytes := ofChars ['a', ' ', '1', '\n', 'b', ' ', '2', '\r', '\n']

/-- The first value takes in the second line, which is not recorded. -/
theorem mixedLines_misread : 0 ∉ mixedLines ∧ ¬ ReadsAsWritten mixedLines := by
  refine ⟨by decide, ?_⟩
  rintro ⟨conf, run, same, -⟩
  have read : (osAnalyConf mixedLines).map ConfObject.pairs =
      some [(ofChars ['a'], ofChars ['1', '\n', 'b'])] := by decide
  have said : confPairs mixedLines =
      [(ofChars ['a'], ofChars ['1']), (ofChars ['b'], ofChars ['2'])] := by decide
  rw [run, Option.map_some, same, said] at read
  revert read
  decide

end ServerConf
