import Mathlib.Algebra.Order.Group.Multiset
import Mathlib.Data.Multiset.Filter
import Mathlib.Data.Multiset.Range
import Mathlib.Logic.Function.Basic

/-!
# Windows of open requests

Each open channel has a window, a counter of the requests that were counted for it and
wait for an answer. A request is known by its channel and its number among all that were
counted. A channel can be closed at any time; what was owed to it is then forgotten, and
its name is not used again.
-/

namespace WindowAccount

universe u
variable {Channel : Type u} [DecidableEq Channel]

structure Account (Channel : Type u) where
  window : Channel → Option Int
  used : List Channel
  counted : List Channel
  owed : Multiset (Channel × Nat)
  answered : Multiset (Channel × Nat)

/-- The entries of the book. An answer lowers the window of its channel. -/
inductive Booking (limit : Int) (a : Account Channel) : Account Channel → Prop where
  | same : Booking limit a a
  | accept (c : Channel) (fresh : c ∉ a.used) : Booking limit a
      { a with window := Function.update a.window c (some 0), used := c :: a.used }
  | close (c : Channel) : Booking limit a { a with window := Function.update a.window c none }
  | count (c : Channel) (w : Int) (isOpen : a.window c = some w) (room : w < limit) :
      Booking limit a { a with
        window := Function.update a.window c (some (w + 1))
        counted := a.counted ++ [c]
        owed := (c, a.counted.length) ::ₘ a.owed }
  | answer (p : Channel × Nat) (rest : Multiset (Channel × Nat)) (w : Int)
      (isOpen : a.window p.1 = some w) (owes : a.owed = p ::ₘ rest) : Booking limit a { a with
        window := Function.update a.window p.1 (some (w - 1))
        owed := rest
        answered := p ::ₘ a.answered }
  | forget (p : Channel × Nat) (rest : Multiset (Channel × Nat)) (closed : a.window p.1 = none)
      (owes : a.owed = p ::ₘ rest) : Booking limit a { a with owed := rest }
  | drop (p : Channel × Nat) (rest : Multiset (Channel × Nat)) (closed : a.window p.1 = none)
      (had : a.answered = p ::ₘ rest) : Booking limit a { a with answered := rest }

/-- What is owed to one channel. -/
def owedTo (owed : Multiset (Channel × Nat)) (c : Channel) : Multiset (Channel × Nat) :=
  owed.filter fun p => p.1 = c

/-- The requests of a channel without an answer. -/
def unanswered (a : Account Channel) (c : Channel) : List Nat :=
  (List.range a.counted.length).filter fun n => a.counted[n]? = some c ∧ (c, n) ∉ a.answered

/-- Every request of an open channel is owed or answered, once, and the window is what is
owed. -/
structure Kept (limit : Int) (a : Account Channel) : Prop where
  opened : ∀ c w, a.window c = some w → c ∈ a.used
  known : ∀ c ∈ a.counted, c ∈ a.used
  genuine : ∀ p ∈ a.owed + a.answered, a.counted[p.2]? = some p.1
  once : ∀ c n, (a.window c).isSome → a.counted[n]? = some c →
    (a.owed + a.answered).count (c, n) = 1
  window : ∀ c w, a.window c = some w → w = (owedTo a.owed c).card
  within : ∀ c w, a.window c = some w → w ≤ limit

section Bookings
variable {limit : Int} {a b : Account Channel}

theorem owedTo_cons_of_eq {p : Channel × Nat} {c : Channel} (owed : Multiset (Channel × Nat))
    (same : p.1 = c) : owedTo (p ::ₘ owed) c = p ::ₘ owedTo owed c :=
  Multiset.filter_cons_of_pos _ same

theorem owedTo_cons_of_ne {p : Channel × Nat} {c : Channel} (owed : Multiset (Channel × Nat))
    (other : p.1 ≠ c) : owedTo (p ::ₘ owed) c = owedTo owed c :=
  Multiset.filter_cons_of_neg _ other

/-- A channel that is open after an update, and not the one that was updated. -/
theorem window_update {window : Channel → Option Int} {c d : Channel} {v : Option Int} {w : Int}
    (h : Function.update window c v d = some w) :
    (d = c ∧ v = some w) ∨ (d ≠ c ∧ window d = some w) := by
  by_cases same : d = c
  · subst same
    rw [Function.update_self] at h
    exact Or.inl ⟨rfl, h⟩
  · rw [Function.update_of_ne same] at h
    exact Or.inr ⟨same, h⟩

theorem isSome_update {window : Channel → Option Int} {c d : Channel} {v : Option Int}
    (h : (Function.update window c v d).isSome) : d = c ∨ (window d).isSome := by
  obtain ⟨w, h⟩ := Option.isSome_iff_exists.mp h
  rcases window_update h with ⟨same, -⟩ | ⟨-, before⟩
  · exact Or.inl same
  · exact Or.inr (before ▸ rfl)

theorem Kept.accept (kept : Kept limit a) (positive : 0 ≤ limit) {c : Channel}
    (fresh : c ∉ a.used) : Kept limit { a with
      window := Function.update a.window c (some 0), used := c :: a.used } := by
  have nothing : ∀ n, a.counted[n]? ≠ some c := fun n counted =>
    fresh (kept.known c (List.mem_of_getElem? counted))
  constructor
  · intro d w h
    rcases window_update h with ⟨rfl, -⟩ | ⟨-, before⟩
    · exact List.mem_cons_self
    · exact List.mem_cons_of_mem _ (kept.opened d w before)
  · exact fun d mem => List.mem_cons_of_mem _ (kept.known d mem)
  · exact kept.genuine
  · intro d n isOpen counted
    rcases isSome_update isOpen with rfl | before
    · exact absurd counted (nothing n)
    · exact kept.once d n before counted
  · intro d w h
    rcases window_update h with ⟨rfl, zero⟩ | ⟨-, before⟩
    · have none : owedTo a.owed d = 0 := by
        rw [owedTo, Multiset.filter_eq_nil]
        rintro p mem rfl
        exact nothing p.2 (kept.genuine p (Multiset.mem_add.mpr (Or.inl mem)))
      obtain rfl := Option.some.inj zero
      change (0 : Int) = ((owedTo a.owed d).card : Int)
      rw [none]
      rfl
    · exact kept.window d w before
  · intro d w h
    rcases window_update h with ⟨-, zero⟩ | ⟨-, before⟩
    · obtain rfl := Option.some.inj zero
      exact positive
    · exact kept.within d w before

theorem Kept.close (kept : Kept limit a) (c : Channel) :
    Kept limit { a with window := Function.update a.window c none } := by
  have before : ∀ {d w}, Function.update a.window c none d = some w → a.window d = some w := by
    intro d w h
    rcases window_update h with ⟨-, none⟩ | ⟨-, before⟩
    · cases none
    · exact before
  constructor
  · exact fun d w h => kept.opened d w (before h)
  · exact kept.known
  · exact kept.genuine
  · intro d n isOpen counted
    obtain ⟨w, h⟩ := Option.isSome_iff_exists.mp isOpen
    exact kept.once d n (before h ▸ rfl) counted
  · exact fun d w h => kept.window d w (before h)
  · exact fun d w h => kept.within d w (before h)

omit [DecidableEq Channel] in
theorem getElem?_append_cases {l : List Channel} {c d : Channel} {n : Nat}
    (h : (l ++ [c])[n]? = some d) : l[n]? = some d ∨ (n = l.length ∧ d = c) := by
  rcases Nat.lt_trichotomy n l.length with inside | rfl | beyond
  · rw [List.getElem?_append_left inside] at h
    exact Or.inl h
  · rw [List.getElem?_concat_length] at h
    exact Or.inr ⟨rfl, (Option.some.inj h).symm⟩
  · rw [List.getElem?_eq_none (by rw [List.length_append, List.length_singleton]; omega)] at h
    cases h

theorem Kept.count (kept : Kept limit a) {c : Channel} {w : Int} (isOpen : a.window c = some w)
    (room : w < limit) : Kept limit { a with
      window := Function.update a.window c (some (w + 1))
      counted := a.counted ++ [c]
      owed := (c, a.counted.length) ::ₘ a.owed } := by
  have isNew : ∀ d, (a.owed + a.answered).count (d, a.counted.length) = 0 := by
    intro d
    rw [Multiset.count_eq_zero]
    intro mem
    have counted := kept.genuine _ mem
    rw [List.getElem?_eq_none (Nat.le_refl _)] at counted
    cases counted
  constructor
  · intro d v h
    rcases window_update h with ⟨rfl, -⟩ | ⟨-, before⟩
    · exact kept.opened d w isOpen
    · exact kept.opened d v before
  · intro d mem
    rcases List.mem_append.mp mem with before | last
    · exact kept.known d before
    · obtain rfl := List.mem_singleton.mp last
      exact kept.opened d w isOpen
  · intro p mem
    rw [Multiset.cons_add, Multiset.mem_cons] at mem
    rcases mem with rfl | before
    · exact List.getElem?_concat_length
    · have counted := kept.genuine p before
      obtain ⟨inside, -⟩ := List.getElem?_eq_some_iff.mp counted
      exact (List.getElem?_append_left inside).trans counted
  · intro d n stillOpen counted
    change ((c, a.counted.length) ::ₘ a.owed + a.answered).count (d, n) = 1
    rw [Multiset.cons_add]
    rcases getElem?_append_cases counted with before | ⟨rfl, rfl⟩
    · have other : (d, n) ≠ (c, a.counted.length) := by
        rintro same
        obtain ⟨-, rfl⟩ := Prod.mk.inj same
        rw [List.getElem?_eq_none (Nat.le_refl _)] at before
        cases before
      rw [Multiset.count_cons_of_ne other]
      refine kept.once d n ?_ before
      rcases isSome_update stillOpen with rfl | before
      · rw [isOpen]
        rfl
      · exact before
    · rw [Multiset.count_cons_self, isNew d]
  · intro d v h
    rcases window_update h with ⟨rfl, more⟩ | ⟨other, before⟩
    · obtain rfl := Option.some.inj more
      have same := kept.window d w isOpen
      dsimp only
      rw [owedTo_cons_of_eq (c := d) a.owed rfl, Multiset.card_cons]
      omega
    · have same := kept.window d v before
      dsimp only
      rw [owedTo_cons_of_ne _ (Ne.symm other)]
      exact same
  · intro d v h
    rcases window_update h with ⟨-, more⟩ | ⟨-, before⟩
    · obtain rfl := Option.some.inj more
      omega
    · exact kept.within d v before

theorem Kept.answer (kept : Kept limit a) {p : Channel × Nat} {rest : Multiset (Channel × Nat)}
    {w : Int} (isOpen : a.window p.1 = some w) (owes : a.owed = p ::ₘ rest) : Kept limit { a with
      window := Function.update a.window p.1 (some (w - 1))
      owed := rest
      answered := p ::ₘ a.answered } := by
  have moved : rest + p ::ₘ a.answered = a.owed + a.answered := by
    rw [owes, Multiset.add_cons, Multiset.cons_add]
  constructor
  · intro d v h
    rcases window_update h with ⟨rfl, -⟩ | ⟨-, before⟩
    · exact kept.opened _ w isOpen
    · exact kept.opened d v before
  · exact kept.known
  · intro q mem
    exact kept.genuine q (moved ▸ mem)
  · intro d n stillOpen counted
    change (rest + p ::ₘ a.answered).count (d, n) = 1
    rw [moved]
    refine kept.once d n ?_ counted
    rcases isSome_update stillOpen with rfl | before
    · rw [isOpen]
      rfl
    · exact before
  · intro d v h
    rcases window_update h with ⟨rfl, less⟩ | ⟨other, before⟩
    · obtain rfl := Option.some.inj less
      have same := kept.window _ w isOpen
      rw [owes, owedTo_cons_of_eq rest rfl, Multiset.card_cons] at same
      dsimp only
      omega
    · have same := kept.window d v before
      rwa [owes, owedTo_cons_of_ne _ (Ne.symm other)] at same
  · intro d v h
    rcases window_update h with ⟨-, less⟩ | ⟨-, before⟩
    · obtain rfl := Option.some.inj less
      have upper := kept.within _ w isOpen
      omega
    · exact kept.within d v before

/-- Less is owed or answered than before, and nothing less to an open channel. -/
theorem Kept.less (kept : Kept limit a) {owed answered : Multiset (Channel × Nat)}
    {p : Channel × Nat} (closed : a.window p.1 = none)
    (all : a.owed + a.answered = p ::ₘ (owed + answered))
    (same : ∀ c, (a.window c).isSome → owedTo owed c = owedTo a.owed c) :
    Kept limit { a with owed := owed, answered := answered } := by
  constructor
  · exact kept.opened
  · exact kept.known
  · intro q mem
    exact kept.genuine q (all ▸ Multiset.mem_cons_of_mem mem)
  · intro d n isOpen counted
    have before := kept.once d n isOpen counted
    have other : (d, n) ≠ p := by
      rintro rfl
      rw [closed] at isOpen
      cases isOpen
    rwa [all, Multiset.count_cons_of_ne other] at before
  · intro d w h
    have before := kept.window d w h
    rwa [← same d (h ▸ rfl)] at before
  · exact kept.within

theorem Booking.keeps (booking : Booking limit a b) (positive : 0 ≤ limit) (kept : Kept limit a) :
    Kept limit b := by
  cases booking with
  | same => exact kept
  | accept c fresh => exact kept.accept positive fresh
  | close c => exact kept.close c
  | count c w isOpen room => exact kept.count isOpen room
  | answer p rest w isOpen owes => exact kept.answer isOpen owes
  | forget p rest closed owes =>
    refine kept.less (p := p) closed (by rw [owes, Multiset.cons_add]) fun c isOpen => ?_
    rw [owes, owedTo_cons_of_ne]
    rintro rfl
    rw [closed] at isOpen
    cases isOpen
  | drop p rest closed had =>
    exact kept.less (p := p) closed (by rw [had, Multiset.add_cons]) fun _ _ => rfl

/-- The window of an open channel is the number of its requests without an answer. -/
theorem Kept.window_eq (kept : Kept limit a) {c : Channel} {w : Int}
    (isOpen : a.window c = some w) : w = (unanswered a c).length := by
  have isOpen' : (a.window c).isSome := isOpen ▸ rfl
  have inside : ∀ {n : Nat}, a.counted[n]? = some c → n < a.counted.length := fun counted =>
    (List.getElem?_eq_some_iff.mp counted).1
  have once : ∀ {n : Nat}, a.counted[n]? = some c →
      a.owed.count (c, n) + a.answered.count (c, n) = 1 := by
    intro n counted
    rw [← Multiset.count_add]
    exact kept.once c n isOpen' counted
  have members : ∀ p, p ∈ owedTo a.owed c ↔
      p ∈ ((unanswered a c).map fun n => (c, n) : Multiset (Channel × Nat)) := by
    rintro ⟨d, n⟩
    rw [owedTo, Multiset.mem_filter, Multiset.mem_coe, List.mem_map]
    simp only [unanswered, List.mem_filter, List.mem_range, decide_eq_true_eq]
    constructor
    · rintro ⟨mem, rfl⟩
      have counted := kept.genuine _ (Multiset.mem_add.mpr (Or.inl mem))
      have positive : 0 < a.owed.count (d, n) := Multiset.count_pos.mpr mem
      have total : a.owed.count (d, n) + a.answered.count (d, n) = 1 := once counted
      refine ⟨n, ⟨inside counted, counted, ?_⟩, rfl⟩
      rw [← Multiset.count_eq_zero]
      omega
    · rintro ⟨m, ⟨-, counted, absent⟩, same⟩
      obtain ⟨rfl, rfl⟩ := Prod.mk.inj same
      have total := once counted
      rw [Multiset.count_eq_zero.mpr absent] at total
      exact ⟨Multiset.count_pos.mp (by omega), rfl⟩
  have distinct : (owedTo a.owed c).Nodup := by
    rw [Multiset.nodup_iff_count_le_one]
    rintro ⟨d, n⟩
    by_cases mem : (d, n) ∈ owedTo a.owed c
    · obtain ⟨owes, same⟩ := Multiset.mem_filter.mp mem
      obtain rfl : d = c := same
      have total : a.owed.count (d, n) + a.answered.count (d, n) = 1 :=
        once (kept.genuine (d, n) (Multiset.mem_add.mpr (Or.inl owes)))
      have fewer : (owedTo a.owed d).count (d, n) ≤ a.owed.count (d, n) :=
        Multiset.count_le_of_le (d, n) (Multiset.filter_le _ _)
      omega
    · rw [Multiset.count_eq_zero.mpr mem]
      exact Nat.zero_le _
  have distinct' : ((unanswered a c).map fun n => (c, n)).Nodup := by
    refine List.Nodup.map (fun n m same => (Prod.mk.inj same).2) ?_
    exact List.nodup_range.filter _
  have equal :
      owedTo a.owed c = ((unanswered a c).map fun n => (c, n) : Multiset (Channel × Nat)) :=
    (Multiset.Nodup.ext distinct (Multiset.coe_nodup.mpr distinct')).mpr members
  rw [kept.window c w isOpen, equal, Multiset.coe_card, List.length_map]

end Bookings

end WindowAccount
