import Cfgd.CText

/-!
# The response of a task

The handlers of a task append to the response buffer of their thread. Here is the
buffer as the list of what was appended, so that a status is told from a text that
looks like one.
-/

namespace Response

open CText

/-- `RESP_BUFF_SIZE`. -/
def respBuffSize : Nat := 5242880

def jessOk : Bytes := ofChars ['o', 'k'] ++ crlf
def jessFatal : Bytes := ofChars ['f', 'a', 't', 'a', 'l'] ++ crlf

inductive Status where
  | ok
  | fatal
  deriving DecidableEq, Repr

/-- One call of `pro_append_response` or of `pro_append_binary_response`. A call
appends a status, a text, or a status with a text behind it. -/
inductive Piece where
  | status (status : Status)
  | text (text : Bytes)
  | okText (text : Bytes)
  | binary (data : Bytes)
  deriving DecidableEq, Repr

namespace Piece

def bytes : Piece → Bytes
  | .status .ok => jessOk
  | .status .fatal => jessFatal
  | .text t => t
  | .okText t => jessOk ++ t
  | .binary data => data

def statuses : Piece → List Status
  | .status s => [s]
  | .okText _ => [.ok]
  | .text _ => []
  | .binary _ => []

end Piece

/-- What was appended so far. -/
abbrev Reply := List Piece

def replyBytes (reply : Reply) : Bytes := reply.flatMap Piece.bytes

def statuses (reply : Reply) : List Status := reply.flatMap Piece.statuses

/-- `thread->offset`, which counts what does not fit as well. -/
def offset (reply : Reply) : Nat := (replyBytes reply).length

def proAppendResponse (reply : Reply) (piece : Piece) : Reply :=
  if respBuffSize ≤ offset reply then reply else reply ++ [piece]

def proAppendBinaryResponse (reply : Reply) (data : Bytes) : Reply :=
  if data = [] ∨ respBuffSize ≤ offset reply + data.length then reply
  else reply ++ [.binary data]

/-- The bytes that `pro_send_response` hands over. A text that does not fit is cut,
and its terminator is the last byte of the buffer. -/
def sentBytes (reply : Reply) : Bytes :=
  if offset reply < respBuffSize then replyBytes reply
  else (replyBytes reply).take (respBuffSize - 1) ++ [0]

def Fits (reply : Reply) : Prop := offset reply < respBuffSize

instance (reply : Reply) : Decidable (Fits reply) := inferInstanceAs (Decidable (_ < _))

/-- The first lines of every response: the title, and the options as they came. -/
def responseHead (title dupopt : Bytes) : Reply :=
  let reply := proAppendResponse [] (.text (title ++ crlf))
  if dupopt ≠ [] then proAppendResponse reply (.text (dupopt ++ crlf ++ crlf)) else reply

@[simp] theorem replyBytes_append (first second : Reply) :
    replyBytes (first ++ second) = replyBytes first ++ replyBytes second :=
  List.flatMap_append

@[simp] theorem statuses_append (first second : Reply) :
    statuses (first ++ second) = statuses first ++ statuses second :=
  List.flatMap_append

theorem offset_append (first second : Reply) :
    offset (first ++ second) = offset first + offset second := by
  rw [offset, replyBytes_append, List.length_append, offset, offset]

theorem offset_le_append (reply : Reply) (piece : Piece) :
    offset reply ≤ offset (proAppendResponse reply piece) := by
  rw [proAppendResponse]
  split
  · exact le_refl _
  · rw [offset_append]
    omega

/-- A response that fits in the end has all that was appended. -/
theorem proAppendResponse_fits {reply : Reply} {piece : Piece}
    (fits : Fits (proAppendResponse reply piece)) :
    Fits reply ∧ proAppendResponse reply piece = reply ++ [piece] := by
  have before : Fits reply := lt_of_le_of_lt (offset_le_append reply piece) fits
  exact ⟨before, if_neg (not_le.mpr before)⟩

end Response
