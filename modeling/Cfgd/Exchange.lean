import Cfgd.Payload
import Cfgd.Response

/-!
# A request and its response between client and server

The client `easycfgd2` writes a request, `rt_analyze_req_head` takes its head apart,
`pro_execute_task` writes the head of the response and the client takes it apart
again. Buffers may hold zero bytes, where the library's string functions stop.
-/

namespace Exchange

open CText Request Payload Response

def maxTitleSize : Nat := 16
def maxOptSize : Nat := 128
def maxReqSize : Nat := maxTitleSize + maxOptSize + maxPayloadSize * maxReqSect

def jessReqDubEnd : Bytes := crlf ++ crlf

/-- The string that starts at a buffer. -/
def cString (buffer : Bytes) : Bytes := buffer.takeWhile (· ≠ 0)

/-! ## The server reads -/

structure ReqHead where
  title : Bytes
  option : Option Bytes
  payload : Bytes
  deriving DecidableEq

/-- Empty lines in front of the title. -/
def skipCrlf : Bytes → Bytes
  | 13 :: 10 :: rest => skipCrlf rest
  | cursor => cursor

def rtAnalyzeReqHead (request : Bytes) : Option ReqHead :=
  let cursor := skipCrlf request
  match strstr crlf (cString cursor) with
  | none => none
  | some (title, _) =>
    if maxTitleSize ≤ title.length then none
    else
      let cursor := cursor.drop (title.length + 2)
      match strstr jessReqDubEnd (cString cursor) with
      | none => some ⟨title, none, cursor⟩
      | some (option, _) =>
        if maxOptSize ≤ option.length then none
        else some ⟨title, some option, cursor.drop (option.length + 4)⟩

/-! ## The client writes and reads -/

/-- The two option lines of `easycfgd2`. -/
def optionLines (reqseq timestamp : Int) : Bytes :=
  ofChars ['i', 'd', '='] ++ printInt reqseq ++ crlf ++
    ofChars ['t', 'i', 'm', 'e', 's', 't', 'a', 'm', 'p', '='] ++ printInt timestamp

/-- What `main` of `easycfgd2` writes for its arguments. -/
def clientRequest (title : Bytes) (reqseq timestamp : Int) (segments : List Bytes) : Bytes :=
  title ++ crlf ++ (optionLines reqseq timestamp ++ jessReqDubEnd) ++
    (segments.map (· ++ crlf)).flatten

/-- What the stack of the client holds before it is assigned. -/
structure Stale where
  kv : List (Bytes × Bytes)
  ackseq : Int
  timestamp : Int

/-- The loop of `analy_option` while `room` more pairs fit. -/
def analyLoop : Nat → Bytes → Option (List (Bytes × Bytes))
  | room, cursor => match strstr crlf cursor with
    | none => some []
    | some (line, rest) => match room with
      | 0 => none
      | room + 1 =>
        if equalSign ∈ line then
          (analyLoop room rest).map ((keyPart line, valuePart line) :: ·)
        else none

/-- The value of the last pair that has the key, if there is one. -/
def assigned (convert : Bytes → Int) (key : Bytes) (kv : List (Bytes × Bytes)) (value : Int) :
    Int :=
  kv.foldl (fun value pair => if pair.1 = key then convert pair.2 else value) value

/-- The sequence number and the timestamp, or nothing for options that are malformed. -/
def analyOption (stale : Stale) (data : Bytes) : Option (Int × Int) :=
  (analyLoop 2 data).map fun pairs =>
    let kv := (pairs ++ stale.kv.drop pairs.length).take 2
    (assigned (fun s => intOfLong (strtoll s)) (ofChars ['i', 'd']) kv stale.ackseq,
      assigned strtoll (ofChars ['t', 'i', 'm', 'e', 's', 't', 'a', 'm', 'p']) kv
        stale.timestamp)

/-- What the client shows of a response. -/
structure Received where
  title : Bytes
  ackseq : Int
  timestamp : Int
  response : Bytes
  deriving DecidableEq

def onReceiveData (reqseq : Int) (stale : Stale) (data : Bytes) : Option Received :=
  match strstr crlf (cString data) with
  | none => none
  | some (title, _) =>
    let cursor := data.drop (title.length + 2)
    match strstr jessReqDubEnd (cString cursor) with
    | none => none
    | some (option, _) =>
      match analyOption stale (option ++ crlf) with
      | none => none
      | some (ackseq, timestamp) =>
        if reqseq ≠ ackseq then none
        else some ⟨title, ackseq, timestamp, cString (cursor.drop (option.length + 4))⟩

section Texts

/-- A text that a client may put in a request as a title or as a segment. -/
structure Plain (text : Bytes) : Prop where
  filled : text ≠ []
  noCr : 13 ∉ text
  noLf : 10 ∉ text
  noZero : 0 ∉ text

/-- A sequence number is an `int`, a timestamp has 64 bits. -/
structure Stamped (reqseq timestamp : Int) : Prop where
  lower : -2 ^ 31 ≤ reqseq
  upper : reqseq < 2 ^ 31
  lowerTime : -2 ^ 63 ≤ timestamp
  upperTime : timestamp < 2 ^ 63

/-- A needle that starts with CR is not found before the first CR. -/
theorem strstr_skip {needle text : Bytes} (first : needle.head? = some 13) (noCr : 13 ∉ text)
    (rest : Bytes) : strstr needle (text ++ rest) =
      (strstr needle rest).map fun found => (text ++ found.1, found.2) := by
  induction text with
  | nil => simp
  | cons c text ih =>
    obtain ⟨here, later⟩ := not_or.mp (List.mem_cons.not.mp noCr)
    have other : ¬ needle.isPrefixOf (c :: (text ++ rest)) = true := by
      rw [List.isPrefixOf_iff_prefix]
      rintro ⟨after, same⟩
      cases needle with
      | nil => cases first
      | cons d needle =>
        obtain rfl := Option.some.inj first
        exact here (List.cons.inj same).1
    rw [List.cons_append, strstr, if_neg other, ih later, Option.map_map]
    rfl

theorem cString_append {text : Bytes} (noZero : 0 ∉ text) (rest : Bytes) :
    cString (text ++ rest) = text ++ cString rest := by
  rw [cString, List.takeWhile_append_of_pos]
  · rfl
  · intro c mem
    have other : c ≠ 0 := by
      rintro rfl
      exact noZero mem
    simpa using other

theorem cString_of_not_mem {text : Bytes} (noZero : 0 ∉ text) : cString text = text := by
  have whole := cString_append noZero []
  simpa [cString] using whole

theorem cString_terminated (text : Bytes) : cString (text ++ [0]) = cString text := by
  induction text with
  | nil => rfl
  | cons c text ih =>
    rw [cString, List.cons_append, List.takeWhile_cons, cString, List.takeWhile_cons]
    split
    · exact congrArg (c :: ·) ih
    · rfl

/-- The first line of a buffer. -/
theorem strstr_firstLine {title : Bytes} (plain : Plain title) (rest : Bytes) :
    strstr crlf (cString (title ++ crlf ++ rest)) = some (title, cString rest) := by
  have line : 0 ∉ title ++ crlf := by
    rw [List.mem_append]
    rintro (h | h)
    · exact plain.noZero h
    · exact absurd h (by decide)
  have found : strstr crlf (crlf ++ cString rest) = some ([], cString rest) := rfl
  rw [cString_append line, List.append_assoc, strstr_skip rfl plain.noCr, found]
  simp

/-- Two lines are found up to the empty line behind them. -/
theorem strstr_twoLines {first second : Bytes} (noCr : 13 ∉ first) (plain : Plain second)
    (rest : Bytes) : strstr jessReqDubEnd (first ++ crlf ++ second ++ jessReqDubEnd ++ rest) =
      some (first ++ crlf ++ second, rest) := by
  obtain ⟨c, later, second_eq⟩ := List.exists_cons_of_ne_nil plain.filled
  have c_ne : ¬ 13 = c := by
    rintro rfl
    exact plain.noCr (second_eq ▸ List.mem_cons_self)
  have found : strstr jessReqDubEnd (jessReqDubEnd ++ rest) = some ([], rest) := rfl
  have free : 13 ∉ 10 :: second := by simp [plain.noCr]
  -- the CRLF between the lines is not followed by another one
  have other : ¬ jessReqDubEnd.isPrefixOf (13 :: (10 :: second ++ (jessReqDubEnd ++ rest))) =
      true := by
    simp [jessReqDubEnd, crlf, second_eq, List.isPrefixOf, c_ne]
  have text : first ++ crlf ++ second ++ jessReqDubEnd ++ rest =
      first ++ 13 :: (10 :: second ++ (jessReqDubEnd ++ rest)) := by simp [crlf]
  rw [text, strstr_skip rfl noCr, strstr, if_neg other, strstr_skip rfl free, found]
  simp [crlf]

end Texts

section Options

theorem printInt_free (n : Int) : 13 ∉ printInt n ∧ 10 ∉ printInt n ∧ 0 ∉ printInt n ∧
    equalSign ∉ printInt n := by
  refine ⟨fun h => ?_, fun h => ?_, fun h => ?_, fun h => ?_⟩ <;>
    rcases printInt_byte h with digit | sign <;>
    first
    | exact absurd digit (by decide)
    | exact absurd sign (by decide)

def idLine (reqseq : Int) : Bytes := ofChars ['i', 'd', '='] ++ printInt reqseq

def timestampLine (timestamp : Int) : Bytes :=
  ofChars ['t', 'i', 'm', 'e', 's', 't', 'a', 'm', 'p', '='] ++ printInt timestamp

theorem optionLines_eq (reqseq timestamp : Int) :
    optionLines reqseq timestamp = idLine reqseq ++ crlf ++ timestampLine timestamp := by
  simp [optionLines, idLine, timestampLine]

theorem idLine_plain (reqseq : Int) : Plain (idLine reqseq) := by
  obtain ⟨noCr, noLf, noZero, _⟩ := printInt_free reqseq
  refine ⟨by simp [idLine, ofChars], ?_, ?_, ?_⟩ <;>
    rw [idLine, List.mem_append, not_or]
  · exact ⟨by decide, noCr⟩
  · exact ⟨by decide, noLf⟩
  · exact ⟨by decide, noZero⟩

theorem timestampLine_plain (timestamp : Int) : Plain (timestampLine timestamp) := by
  obtain ⟨noCr, noLf, noZero, _⟩ := printInt_free timestamp
  refine ⟨by simp [timestampLine, ofChars], ?_, ?_, ?_⟩ <;>
    rw [timestampLine, List.mem_append, not_or]
  · exact ⟨by decide, noCr⟩
  · exact ⟨by decide, noLf⟩
  · exact ⟨by decide, noZero⟩

theorem optionLines_noZero (reqseq timestamp : Int) : 0 ∉ optionLines reqseq timestamp := by
  rw [optionLines_eq, List.mem_append, List.mem_append]
  rintro ((h | h) | h)
  · exact (idLine_plain reqseq).noZero h
  · exact absurd h (by decide)
  · exact (timestampLine_plain timestamp).noZero h

/-- The two option lines are found up to the empty line behind them. -/
theorem strstr_optionLines (reqseq timestamp : Int) (rest : Bytes) :
    strstr jessReqDubEnd (cString (optionLines reqseq timestamp ++ jessReqDubEnd ++ rest)) =
      some (optionLines reqseq timestamp, cString rest) := by
  have noZero : 0 ∉ optionLines reqseq timestamp ++ jessReqDubEnd := by
    rw [List.mem_append]
    rintro (h | h)
    · exact optionLines_noZero reqseq timestamp h
    · exact absurd h (by decide)
  rw [cString_append noZero, optionLines_eq]
  exact strstr_twoLines (idLine_plain reqseq).noCr (timestampLine_plain timestamp) _

theorem length_optionLines {reqseq timestamp : Int} (stamped : Stamped reqseq timestamp) :
    (optionLines reqseq timestamp).length < maxOptSize := by
  have lower := stamped.lower
  have upper := stamped.upper
  have id := length_printInt (show -2 ^ 63 ≤ reqseq by omega) (by omega)
  have time := length_printInt stamped.lowerTime stamped.upperTime
  have limit : maxOptSize = 128 := rfl
  simp only [optionLines, ofChars, crlf, List.length_append, List.length_map, List.length_cons,
    List.length_nil]
  omega

theorem keyPart_pair {key value : Bytes} (noEqual : equalSign ∉ key) :
    keyPart (key ++ equalSign :: value) = key ∧ valuePart (key ++ equalSign :: value) = value := by
  have key_eq : keyPart (key ++ equalSign :: value) = key := by
    rw [keyPart, List.takeWhile_append_of_pos]
    · simp
    · intro c mem
      have other : c ≠ equalSign := by
        rintro rfl
        exact noEqual mem
      simpa using other
  refine ⟨key_eq, ?_⟩
  rw [valuePart, key_eq]
  simp

/-- The client reads the numbers from the options that it wrote. -/
theorem analyOption_optionLines (stale : Stale) {reqseq timestamp : Int}
    (stamped : Stamped reqseq timestamp) :
    analyOption stale (optionLines reqseq timestamp ++ crlf) = some (reqseq, timestamp) := by
  have first : strstr crlf (idLine reqseq ++ (crlf ++ (timestampLine timestamp ++ crlf))) =
      some (idLine reqseq, timestampLine timestamp ++ crlf) := by
    have found : strstr crlf (crlf ++ (timestampLine timestamp ++ crlf)) =
        some ([], timestampLine timestamp ++ crlf) := rfl
    rw [strstr_skip rfl (idLine_plain reqseq).noCr, found]
    simp
  have second : strstr crlf (timestampLine timestamp ++ crlf) =
      some (timestampLine timestamp, []) := by
    have found : strstr crlf crlf = some ([], []) := rfl
    rw [strstr_skip rfl (timestampLine_plain timestamp).noCr, found]
    simp
  have last : strstr crlf [] = none := rfl
  have idText : idLine reqseq = ofChars ['i', 'd'] ++ equalSign :: printInt reqseq := rfl
  have timeText : timestampLine timestamp =
      ofChars ['t', 'i', 'm', 'e', 's', 't', 'a', 'm', 'p'] ++ equalSign :: printInt timestamp :=
    rfl
  have idPair : keyPart (idLine reqseq) = ofChars ['i', 'd'] ∧
      valuePart (idLine reqseq) = printInt reqseq := idText ▸ keyPart_pair (by decide)
  have timePair : keyPart (timestampLine timestamp) =
      ofChars ['t', 'i', 'm', 'e', 's', 't', 'a', 'm', 'p'] ∧
      valuePart (timestampLine timestamp) = printInt timestamp :=
    timeText ▸ keyPart_pair (by decide)
  have idEqual : equalSign ∈ idLine reqseq := by simp [idText]
  have timeEqual : equalSign ∈ timestampLine timestamp := by simp [timeText]
  have lower := stamped.lower
  have upper := stamped.upper
  have number : intOfLong (strtoll (printInt reqseq)) = reqseq := by
    rw [strtoll_printInt (by omega) (by omega), intOfLong_eq lower upper]
  have time := strtoll_printInt stamped.lowerTime stamped.upperTime
  have pairs : analyLoop 2 (optionLines reqseq timestamp ++ crlf) =
      some [(ofChars ['i', 'd'], printInt reqseq),
        (ofChars ['t', 'i', 'm', 'e', 's', 't', 'a', 'm', 'p'], printInt timestamp)] := by
    rw [optionLines_eq, List.append_assoc, List.append_assoc]
    simp [analyLoop, first, second, last, idEqual, timeEqual, idPair, timePair]
  have apart : ofChars ['t', 'i', 'm', 'e', 's', 't', 'a', 'm', 'p'] ≠ ofChars ['i', 'd'] := by
    decide
  rw [analyOption, pairs]
  simp [assigned, number, time, apart, apart.symm]

end Options

section Requests

theorem skipCrlf_plain {title : Bytes} (plain : Plain title) (rest : Bytes) :
    skipCrlf (title ++ rest) = title ++ rest := by
  obtain ⟨c, later, rfl⟩ := List.exists_cons_of_ne_nil plain.filled
  have c_ne : c ≠ 13 := by
    rintro rfl
    exact plain.noCr List.mem_cons_self
  rw [List.cons_append, skipCrlf]
  intro after same
  exact c_ne (List.cons.inj same).1

/-- The server finds the title and the options that the client wrote, and the segments
as the payload. -/
theorem rtAnalyzeReqHead_client {title : Bytes} (plain : Plain title)
    (short : title.length < maxTitleSize) {reqseq timestamp : Int}
    (stamped : Stamped reqseq timestamp) (segments : List Bytes) :
    rtAnalyzeReqHead (clientRequest title reqseq timestamp segments) =
      some ⟨title, some (optionLines reqseq timestamp), (segments.map (· ++ crlf)).flatten⟩ := by
  have line := strstr_firstLine plain
    (optionLines reqseq timestamp ++ jessReqDubEnd ++ (segments.map (· ++ crlf)).flatten)
  have options := strstr_optionLines reqseq timestamp (segments.map (· ++ crlf)).flatten
  have bound := length_optionLines stamped
  have cut : (title ++ crlf ++ (optionLines reqseq timestamp ++ jessReqDubEnd ++
      (segments.map (· ++ crlf)).flatten)).drop (title.length + 2) =
      optionLines reqseq timestamp ++ jessReqDubEnd ++ (segments.map (· ++ crlf)).flatten := by
    have two : title.length + 2 = (title ++ crlf).length := by simp [crlf]
    rw [two, List.drop_left]
  have cut' : (optionLines reqseq timestamp ++ jessReqDubEnd ++
      (segments.map (· ++ crlf)).flatten).drop ((optionLines reqseq timestamp).length + 4) =
      (segments.map (· ++ crlf)).flatten := by
    have four : (optionLines reqseq timestamp).length + 4 =
        (optionLines reqseq timestamp ++ jessReqDubEnd).length := by
      simp [jessReqDubEnd, crlf]
    rw [four, List.drop_left]
  rw [rtAnalyzeReqHead, clientRequest, List.append_assoc (title ++ crlf),
    List.append_assoc title crlf, skipCrlf_plain plain, ← List.append_assoc title crlf]
  simp only [line, cut, options, cut']
  rw [if_neg (by omega), if_neg (by omega)]

theorem flatten_closed (lines : List Bytes) :
    (lines.map (· ++ crlf)).flatten = payloadOf lines true := by
  induction lines with
  | nil => rfl
  | cons line rest ih =>
    rw [List.map_cons, List.flatten_cons, ih]
    cases rest with
    | nil => simp [payloadOf]
    | cons next rest => simp [payloadOf]

/-- What a client may write as a segment. -/
def Segmental (segment : Bytes) : Prop := Plain segment ∧ segment.length ≤ maxPayloadSize

theorem line_of_plain {segment : Bytes} (plain : Plain segment) : Line segment := by
  refine ⟨plain.filled, ?_⟩
  rintro ⟨before, after, rfl⟩
  apply plain.noCr
  simp [crlf]

/-- `rt_build_jrp` sees the segments that the client wrote. -/
theorem rtBuildJrp_client {segments : List Bytes} (few : segments.length ≤ maxReqSect)
    (each : ∀ segment ∈ segments, Segmental segment) :
    rtBuildJrp (cString (segments.map (· ++ crlf)).flatten) =
      builtOf (segments.mapM rtCreateJrp) := by
  have noZero : 0 ∉ (segments.map (· ++ crlf)).flatten := by
    rw [List.mem_flatten]
    rintro ⟨line, mem, zero⟩
    obtain ⟨segment, hsegment, rfl⟩ := List.mem_map.mp mem
    rcases List.mem_append.mp zero with h | h
    · exact (each segment hsegment).1.noZero h
    · exact absurd h (by decide)
  have lines : ∀ segment ∈ segments, Line segment :=
    fun segment mem => line_of_plain (each segment mem).1
  rw [cString_of_not_mem noZero, flatten_closed, rtBuildJrp_lines lines, if_pos few]

end Requests

section Responses

theorem replyBytes_responseHead {title : Bytes} (short : title.length < maxTitleSize)
    (reqseq timestamp : Int) :
    replyBytes (responseHead title (optionLines reqseq timestamp)) =
      title ++ crlf ++ (optionLines reqseq timestamp ++ jessReqDubEnd) := by
  have filled : optionLines reqseq timestamp ≠ [] := by
    rw [optionLines_eq]
    simp [(timestampLine_plain timestamp).filled]
  have room : ¬ respBuffSize ≤ offset [.text (title ++ crlf)] := by
    have size : offset [.text (title ++ crlf)] = title.length + 2 := by
      simp [offset, replyBytes, Piece.bytes, crlf]
    have limit : maxTitleSize = 16 := rfl
    have buffer : respBuffSize = 5242880 := rfl
    omega
  have empty : ¬ respBuffSize ≤ offset [] := by decide
  simp only [responseHead, if_pos filled, proAppendResponse, if_neg empty, List.nil_append,
    if_neg room]
  simp [replyBytes, Piece.bytes, jessReqDubEnd]

/-- How much of a body is sent behind a head. The last byte of the buffer is for the
terminator. -/
def bodyRoom (head : Reply) : Nat := respBuffSize - 1 - offset head

/-- However long a response is, its head is sent, and a reader of strings finds behind it
what there is room for. -/
theorem sentBytes_head (head body : Reply) (short : offset head < respBuffSize) :
    ∃ sent, sentBytes (head ++ body) = replyBytes head ++ sent ∧
      cString sent = cString ((replyBytes body).take (bodyRoom head)) := by
  have total := offset_append head body
  rw [sentBytes, replyBytes_append, bodyRoom]
  split
  · rename_i fits
    have whole : (replyBytes body).length ≤ respBuffSize - 1 - offset head := by
      rw [total, offset, offset] at fits
      rw [offset]
      omega
    rw [List.take_of_length_le whole]
    exact ⟨replyBytes body, rfl, rfl⟩
  · have inside : (replyBytes head).length ≤ respBuffSize - 1 := by
      rw [offset] at short
      omega
    rw [List.take_append, List.take_of_length_le inside, List.append_assoc]
    exact ⟨_, rfl, cString_terminated _⟩

/-- What arrives of a body is the body, if nothing of it is cut and no string function
stops in it. -/
theorem cString_take_eq_iff {head body : Reply} (short : offset head < respBuffSize) :
    cString ((replyBytes body).take (bodyRoom head)) = replyBytes body ↔
      0 ∉ replyBytes body ∧ Fits (head ++ body) := by
  have total := offset_append head body
  rw [Fits, total, bodyRoom]
  constructor
  · intro same
    have bound : (replyBytes body).length ≤ respBuffSize - 1 - offset head := by
      calc (replyBytes body).length
          = (cString ((replyBytes body).take (respBuffSize - 1 - offset head))).length := by
            rw [same]
        _ ≤ ((replyBytes body).take (respBuffSize - 1 - offset head)).length :=
            (List.takeWhile_sublist _).length_le
        _ ≤ respBuffSize - 1 - offset head := List.length_take_le _ _
    refine ⟨?_, ?_⟩
    · intro zero
      rw [← same] at zero
      simpa using List.mem_takeWhile_imp zero
    · rw [offset, offset] at *
      omega
  · rintro ⟨noZero, fits⟩
    have whole : (replyBytes body).length ≤ respBuffSize - 1 - offset head := by
      rw [offset, offset] at *
      omega
    rw [List.take_of_length_le whole, cString_of_not_mem noZero]

/-- The client recovers the head that the server wrote, and the rest as a string. -/
theorem onReceiveData_answer {title : Bytes} (plain : Plain title) {reqseq timestamp : Int}
    (stamped : Stamped reqseq timestamp) (stale : Stale) (sent : Bytes) :
    onReceiveData reqseq stale
      (title ++ crlf ++ (optionLines reqseq timestamp ++ jessReqDubEnd) ++ sent) =
        some ⟨title, reqseq, timestamp, cString sent⟩ := by
  have line := strstr_firstLine plain (optionLines reqseq timestamp ++ jessReqDubEnd ++ sent)
  have options := strstr_optionLines reqseq timestamp sent
  have numbers := analyOption_optionLines stale stamped
  have cut : (title ++ crlf ++ (optionLines reqseq timestamp ++ jessReqDubEnd ++ sent)).drop
      (title.length + 2) = optionLines reqseq timestamp ++ jessReqDubEnd ++ sent := by
    have two : title.length + 2 = (title ++ crlf).length := by simp [crlf]
    rw [two, List.drop_left]
  have cut' : (optionLines reqseq timestamp ++ jessReqDubEnd ++ sent).drop
      ((optionLines reqseq timestamp).length + 4) = sent := by
    have four : (optionLines reqseq timestamp).length + 4 =
        (optionLines reqseq timestamp ++ jessReqDubEnd).length := by
      simp [jessReqDubEnd, crlf]
    rw [four, List.drop_left]
  rw [onReceiveData, List.append_assoc (title ++ crlf)]
  simp only [line, cut, options, cut', numbers, ne_eq, not_true, if_false]

theorem offset_responseHead {title : Bytes} (short : title.length < maxTitleSize)
    {reqseq timestamp : Int} (stamped : Stamped reqseq timestamp) :
    offset (responseHead title (optionLines reqseq timestamp)) < respBuffSize := by
  have bound := length_optionLines stamped
  have limits : maxTitleSize = 16 ∧ maxOptSize = 128 ∧ respBuffSize = 5242880 := ⟨rfl, rfl, rfl⟩
  rw [offset, replyBytes_responseHead short]
  simp only [List.length_append, jessReqDubEnd, crlf, List.length_cons, List.length_nil]
  omega

/-- What the client makes of a response. -/
theorem onReceiveData_response {title : Bytes} (plain : Plain title)
    (short : title.length < maxTitleSize) {reqseq timestamp : Int}
    (stamped : Stamped reqseq timestamp) (stale : Stale) (body : Reply) :
    onReceiveData reqseq stale
        (sentBytes (responseHead title (optionLines reqseq timestamp) ++ body)) =
      some ⟨title, reqseq, timestamp, cString ((replyBytes body).take
        (bodyRoom (responseHead title (optionLines reqseq timestamp))))⟩ := by
  obtain ⟨sent, bytes, text⟩ := sentBytes_head _ body (offset_responseHead short stamped)
  rw [bytes, replyBytes_responseHead short, onReceiveData_answer plain stamped stale sent, text]

/-- The server recovers from a request what the client put into it, and the client from
the response what the server put into it, the body up to a zero byte in it or to the end
of the buffer. -/
theorem exchange {title : Bytes} (plain : Plain title) (short : title.length < maxTitleSize)
    {reqseq timestamp : Int} (stamped : Stamped reqseq timestamp) :
    (∀ segments : List Bytes, segments.length ≤ maxReqSect →
      (∀ segment ∈ segments, Segmental segment) →
      ∃ payload, rtAnalyzeReqHead (clientRequest title reqseq timestamp segments) =
          some ⟨title, some (optionLines reqseq timestamp), payload⟩ ∧
        rtBuildJrp (cString payload) = builtOf (segments.mapM rtCreateJrp)) ∧
    (∀ (stale : Stale) (body : Reply), ∃ response,
      onReceiveData reqseq stale
          (sentBytes (responseHead title (optionLines reqseq timestamp) ++ body)) =
        some ⟨title, reqseq, timestamp, response⟩ ∧
      response = cString ((replyBytes body).take
        (bodyRoom (responseHead title (optionLines reqseq timestamp)))) ∧
      (response = replyBytes body ↔ 0 ∉ replyBytes body ∧
        Fits (responseHead title (optionLines reqseq timestamp) ++ body))) := by
  constructor
  · intro segments few each
    exact ⟨_, rtAnalyzeReqHead_client plain short stamped segments, rtBuildJrp_client few each⟩
  · intro stale body
    exact ⟨_, onReceiveData_response plain short stamped stale body, rfl,
      cString_take_eq_iff (offset_responseHead short stamped)⟩

/-- `read` of `d.f.a`, answered with `ok` and the value. -/
theorem exchange_read :
    (∃ payload, rtAnalyzeReqHead (clientRequest (ofChars ['r', 'e', 'a', 'd']) 7 12
          [ofChars ['d', '.', 'f', '.', 'a']]) =
        some ⟨ofChars ['r', 'e', 'a', 'd'], some (optionLines 7 12), payload⟩ ∧
      rtBuildJrp (cString payload) =
        builtOf ([ofChars ['d', '.', 'f', '.', 'a']].mapM rtCreateJrp)) ∧
    onReceiveData 7 ⟨[], 0, 0⟩ (sentBytes
        (responseHead (ofChars ['r', 'e', 'a', 'd']) (optionLines 7 12) ++
          [.status .ok, .text (ofChars ['d', '.', 'f', '.', 'a', '=', '5'] ++ crlf)])) =
      some ⟨ofChars ['r', 'e', 'a', 'd'], 7, 12,
        jessOk ++ ofChars ['d', '.', 'f', '.', 'a', '=', '5'] ++ crlf⟩ := by
  have plain : Plain (ofChars ['r', 'e', 'a', 'd']) := by constructor <;> decide
  have stamped : Stamped 7 12 := by constructor <;> decide
  have segment : Segmental (ofChars ['d', '.', 'f', '.', 'a']) :=
    ⟨by constructor <;> decide, by decide⟩
  have both := exchange plain (by decide) stamped
  obtain ⟨response, received, _, whole⟩ := both.2 ⟨[], 0, 0⟩
    [.status .ok, .text (ofChars ['d', '.', 'f', '.', 'a', '=', '5'] ++ crlf)]
  have body := whole.mpr (by decide)
  refine ⟨both.1 [ofChars ['d', '.', 'f', '.', 'a']] (by decide) (by simpa using segment), ?_⟩
  rw [received, body]
  rfl

/-- The client shows a response as a string, and a body may have a zero byte. -/
theorem exchange_zero_byte :
    ¬ ∀ body : Reply, onReceiveData 7 ⟨[], 0, 0⟩ (sentBytes
        (responseHead (ofChars ['r', 'b', 'i', 'n']) (optionLines 7 12) ++ body)) =
      some ⟨ofChars ['r', 'b', 'i', 'n'], 7, 12, replyBytes body⟩ := by
  intro recovers
  have plain : Plain (ofChars ['r', 'b', 'i', 'n']) := by constructor <;> decide
  have stamped : Stamped 7 12 := by constructor <;> decide
  have shown := onReceiveData_response plain (by decide) stamped ⟨[], 0, 0⟩
    [.status .ok, .binary [0, 1]]
  have same := (cString_take_eq_iff (offset_responseHead (by decide) stamped)).mp
    (congrArg Received.response (Option.some.inj (shown.symm.trans (recovers _))))
  exact same.1 (by decide)

end Responses

end Exchange
