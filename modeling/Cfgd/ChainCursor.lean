import Cfgd.Buckets
import Mathlib.Data.List.Nodup

/-!
# A cursor in chains that change

Chains grow at their heads and lose cells that the cursor does not rest on. What is ahead of
the cursor then stays ahead of it, and what is behind it stays behind.
-/

namespace ChainCursor

open Buckets

universe u
variable {α : Type u} {rows rows' more more' : List (List α)} {gone : Option α}
variable {p : Nat} {front back : List α} {a b : α}

/-- In the rest of the row of the cursor, or in a later row. -/
def Ahead (rows : List (List α)) (p : Nat) (back : List α) (a : α) : Prop :=
  a ∈ back ∨ ∃ j row, p < j ∧ rows[j]? = some row ∧ a ∈ row

/-- In the row of the cursor in front of it, or in an earlier row. -/
def Behind (rows : List (List α)) (p : Nat) (front : List α) (a : α) : Prop :=
  a ∈ front ∨ ∃ j row, j < p ∧ rows[j]? = some row ∧ a ∈ row

/-- In a row from `q` on. -/
def Upcoming (rows : List (List α)) (q : Nat) (a : α) : Prop :=
  ∃ j row, q ≤ j ∧ rows[j]? = some row ∧ a ∈ row

theorem row_unique (nodup : rows.flatten.Nodup) {j j' : Nat} {row row' : List α}
    (here : rows[j]? = some row) (here' : rows[j']? = some row') (mem : a ∈ row)
    (mem' : a ∈ row') : j = j' := by
  induction rows generalizing j j' with
  | nil => cases here
  | cons first rest ih =>
    rw [List.flatten_cons] at nodup
    obtain ⟨_, later, apart⟩ := List.nodup_append.mp nodup
    cases j with
    | zero =>
      cases j' with
      | zero => rfl
      | succ j' =>
        obtain rfl : first = row := Option.some.inj here
        exact absurd rfl (apart a mem a (mem_flatten_of_bucket here' mem'))
    | succ j =>
      cases j' with
      | zero =>
        obtain rfl : first = row' := Option.some.inj here'
        exact absurd rfl (apart a mem' a (mem_flatten_of_bucket here mem))
      | succ j' => exact congrArg (· + 1) (ih later here here')

theorem nodup_row (nodup : rows.flatten.Nodup) {j : Nat} {row : List α}
    (here : rows[j]? = some row) : row.Nodup :=
  (List.nodup_flatten.mp nodup).1 row (List.mem_of_getElem? here)

/-- Nothing is ahead of the cursor and behind it. -/
theorem not_both (nodup : rows.flatten.Nodup) (here : rows[p]? = some (front ++ back))
    (ahead : Ahead rows p back a) (behind : Behind rows p front a) : False := by
  rcases ahead with ahead | ⟨j, row, after, later, mem⟩
  · rcases behind with behind | ⟨j, row, before, earlier, mem⟩
    · exact (List.nodup_append.mp (nodup_row nodup here)).2.2 a behind a ahead rfl
    · have same := row_unique nodup here earlier (List.mem_append_right _ ahead) mem
      omega
  · rcases behind with behind | ⟨j', row', before, earlier, mem'⟩
    · have same := row_unique nodup here later (List.mem_append_left _ behind) mem
      omega
    · have same := row_unique nodup later earlier mem mem'
      omega

section Steps

/-- The cursor goes over a cell of its row. -/
theorem ahead_rest (other : a ≠ b) (ahead : Ahead rows p (b :: back) a) : Ahead rows p back a :=
  ahead.imp (fun mem => (List.mem_cons.mp mem).resolve_left other) id

theorem behind_rest (behind : Behind rows p front a) : Behind rows p (front ++ [b]) a :=
  behind.imp (List.mem_append_left _) id

/-- The rows from `q` up to the one where the cursor comes to rest are empty. -/
theorem ahead_row {q : Nat} {row : List α} (there : rows[p]? = some row)
    (empty : ∀ j, q ≤ j → j < p → rows[j]? = some []) (upcoming : Upcoming rows q a) :
    Ahead rows p row a := by
  obtain ⟨j, row', from_, later, mem⟩ := upcoming
  rcases Nat.lt_trichotomy j p with before | rfl | behind
  · rw [empty j from_ before, Option.some.injEq] at later
    rw [← later] at mem
    cases mem
  · rw [there, Option.some.injEq] at later
    exact Or.inl (later ▸ mem)
  · exact Or.inr ⟨j, row', behind, later, mem⟩

end Steps

section Changes
variable [DecidableEq α]

/-- The row without the cell that is gone. -/
def spared (gone : Option α) (row : List α) : List α := row.filter fun a => some a ≠ gone

theorem mem_spared {row : List α} : a ∈ spared gone row ↔ a ∈ row ∧ some a ≠ gone := by
  rw [spared, List.mem_filter, decide_eq_true_iff]

theorem spared_none (row : List α) : spared none row = row :=
  List.filter_eq_self.mpr fun _ _ => decide_eq_true (by simp)

/-- Rows grow at their heads, and lose one cell at most. -/
def Steady (gone : Option α) (rows rows' : List (List α)) : Prop :=
  ∀ (j : Nat) (row : List α), rows[j]? = some row →
    ∃ fresh, rows'[j]? = some (fresh ++ spared gone row)

theorem Steady.refl (rows : List (List α)) : Steady none rows rows :=
  fun _ row here => ⟨[], by rw [spared_none]; exact here⟩

theorem Steady.trans {rows'' : List (List α)} (first : Steady none rows rows')
    (second : Steady none rows' rows'') : Steady none rows rows'' := by
  intro j row here
  obtain ⟨fresh, there⟩ := first j row here
  obtain ⟨fresh', there'⟩ := second j _ there
  refine ⟨fresh' ++ fresh, ?_⟩
  rw [spared_none] at there' ⊢
  rw [there', spared_none, List.append_assoc]

theorem Steady.append (first : Steady gone rows rows') (second : Steady gone more more')
    (size : rows'.length = rows.length) : Steady gone (rows ++ more) (rows' ++ more') := by
  intro j row here
  rw [List.getElem?_append] at here
  rw [List.getElem?_append, size]
  split at here
  · rename_i inside
    rw [if_pos inside]
    exact first j row here
  · rename_i outside
    rw [if_neg outside]
    exact second _ row here

theorem head_spared (kept : back = [] ∨ gone ≠ back.head?) :
    (spared gone back).head? = back.head? := by
  cases back with
  | nil => rfl
  | cons b back =>
    rcases kept with none | other
    · cases none
    · have stays : decide (some b ≠ gone) = true := decide_eq_true (Ne.symm other)
      rw [spared, List.filter_cons, if_pos stays]
      rfl

/-- The cursor keeps its place. -/
theorem standing_steady (steady : Steady gone rows rows') (here : rows[p]? = some (front ++ back)) :
    ∃ front', rows'[p]? = some (front' ++ spared gone back) ∧
      ∀ a, some a ≠ gone → (Ahead rows p back a → Ahead rows' p (spared gone back) a) ∧
        (Behind rows p front a → Behind rows' p front' a) := by
  obtain ⟨fresh, there⟩ := steady p _ here
  refine ⟨fresh ++ spared gone front, ?_, fun a stays => ⟨?_, ?_⟩⟩
  · rw [there, spared, List.filter_append, List.append_assoc]
    rfl
  · rintro (mem | ⟨j, row, after, later, mem⟩)
    · exact Or.inl (mem_spared.mpr ⟨mem, stays⟩)
    · obtain ⟨fresh, there⟩ := steady j row later
      exact Or.inr ⟨j, _, after, there, List.mem_append_right _ (mem_spared.mpr ⟨mem, stays⟩)⟩
  · rintro (mem | ⟨j, row, before, earlier, mem⟩)
    · exact Or.inl (List.mem_append_right _ (mem_spared.mpr ⟨mem, stays⟩))
    · obtain ⟨fresh, there⟩ := steady j row earlier
      exact Or.inr ⟨j, _, before, there, List.mem_append_right _ (mem_spared.mpr ⟨mem, stays⟩)⟩

end Changes

end ChainCursor
