import Mathlib.Data.List.Basic

/-!
# Streams of frames

A frame is a head of fixed size, which tells the length of the payload after it,
and the payload. A reader of the stream sees a part of it, `held`, and not the
`rest`.
-/
namespace Framing

universe u

structure Code (Cell : Type u) where
  size : Nat
  head : Nat → List Cell
  head_length : ∀ n, (head n).length = size

namespace Code

variable {Cell : Type u} (code : Code Cell)

def frame (payload : List Cell) : List Cell := code.head payload.length ++ payload

def stream (payloads : List (List Cell)) : List Cell := payloads.flatMap code.frame

@[simp] theorem frame_length (payload : List Cell) :
    (code.frame payload).length = code.size + payload.length := by
  simp [frame, code.head_length]

@[simp] theorem stream_nil : code.stream [] = [] := by
  simp [stream]

@[simp] theorem stream_cons (payload : List Cell) (payloads : List (List Cell)) :
    code.stream (payload :: payloads) = code.frame payload ++ code.stream payloads := by
  simp [stream]

@[simp] theorem stream_append (left right : List (List Cell)) :
    code.stream (left ++ right) = code.stream left ++ code.stream right := by
  simp [stream]

variable {payload held rest after : List Cell}

/-- Once enough is held, it starts with the head. -/
theorem head_held (split : held ++ rest = code.frame payload ++ after)
    (enough : code.size ≤ held.length) :
    held.take code.size = code.head payload.length := by
  have front := congrArg (List.take code.size) split
  rw [List.take_append_of_le_length enough, frame, List.append_assoc,
    List.take_append_of_le_length (by simp [code.head_length])] at front
  rw [front]
  exact List.take_of_length_le (by simp [code.head_length])

/-- Once enough is held, it starts with the frame, and the rest follows it. -/
theorem frame_held (split : held ++ rest = code.frame payload ++ after)
    (enough : (code.frame payload).length ≤ held.length) :
    held.take (code.frame payload).length = code.frame payload ∧
      held.drop (code.frame payload).length ++ rest = after := by
  constructor
  · have front := congrArg (List.take (code.frame payload).length) split
    rw [List.take_append_of_le_length enough] at front
    simpa using front
  · have back := congrArg (List.drop (code.frame payload).length) split
    rw [List.drop_append_of_le_length enough] at back
    simpa using back

theorem payload_of_frame : (code.frame payload).drop code.size = payload := by
  have size : code.size = (code.head payload.length).length := (code.head_length _).symm
  rw [frame, size]
  simp

/-- Two places inside frames that are equally far into the stream are in the
same frame. -/
theorem same_frame {left right more others : List (List Cell)} {one other : List Cell}
    {a b : Nat} (same : left ++ one :: more = right ++ other :: others)
    (insideOne : a < (code.frame one).length) (insideOther : b < (code.frame other).length)
    (place : (code.stream left).length + a = (code.stream right).length + b) :
    left = right ∧ one = other ∧ more = others := by
  rcases List.append_eq_append_iff.1 same with
    ⟨between, rightEq, oneEq⟩ | ⟨between, leftEq, otherEq⟩
  · cases between with
    | nil =>
      simp only [List.nil_append, List.cons.injEq] at oneEq
      exact ⟨by simpa using rightEq.symm, oneEq.1, oneEq.2⟩
    | cons first between =>
      simp only [List.cons_append, List.cons.injEq] at oneEq
      have longer : (code.stream right).length =
          (code.stream left).length + (code.frame one).length +
            (code.stream between).length := by
        simp only [rightEq, ← oneEq.1, stream_append, stream_cons, List.length_append]
        omega
      omega
  · cases between with
    | nil =>
      simp only [List.nil_append, List.cons.injEq] at otherEq
      exact ⟨by simpa using leftEq, otherEq.1.symm, otherEq.2.symm⟩
    | cons first between =>
      simp only [List.cons_append, List.cons.injEq] at otherEq
      have longer : (code.stream left).length =
          (code.stream right).length + (code.frame other).length +
            (code.stream between).length := by
        simp only [leftEq, ← otherEq.1, stream_append, stream_cons, List.length_append]
        omega
      omega

end Code

end Framing
