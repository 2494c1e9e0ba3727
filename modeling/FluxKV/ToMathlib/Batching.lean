import Mathlib.Algebra.Order.Floor.Div
import Mathlib.Data.List.Basic
import Mathlib.Tactic.Ring

/-! # Waiting for a batch

Items wait in line and are taken from its front in rounds of a limited size. A round that does not take its full
number takes everything that had arrived when it began. So an item that finds some number of others before it is
taken once that number, divided by the size of a round, of rounds have begun after its arrival.
-/

namespace FluxKV.Batching

variable {α β : Type*} (start : β → ℕ) (items : β → List α) {cap n : ℕ} {rounds : List β}

/-- Each round is full, or takes all that had arrived when it began. -/
def Thorough (cap : ℕ) (rounds : List β) : Prop :=
  ∀ before round after, rounds = before ++ round :: after →
    (items round).length = cap ∨ start round ≤ (before.flatMap items).length + (items round).length

variable {start items}

theorem Thorough.concat (thorough : Thorough start items cap rounds) {round : β}
    (last : (items round).length = cap ∨ start round ≤ (rounds.flatMap items).length + (items round).length) :
    Thorough start items cap (rounds ++ [round]) := by
  intro before other after split
  rcases List.eq_nil_or_concat after with rfl | ⟨rest, final, rfl⟩
  · obtain ⟨rfl, same⟩ := List.append_inj' split rfl
    obtain rfl := List.singleton_inj.mp same
    exact last
  · rw [List.concat_eq_append, ← List.cons_append, ← List.append_assoc] at split
    exact thorough before other rest (List.append_inj' split rfl).1

/-- Rounds in the order of their beginnings are those begun by `n` followed by those begun later. -/
theorem filter_append_filter (sorted : rounds.Pairwise fun a b => start a ≤ start b) (n : ℕ) :
    rounds.filter (fun r => start r ≤ n) ++ rounds.filter (fun r => n < start r) = rounds := by
  induction rounds with
  | nil => rfl
  | cons round rest ih =>
    obtain ⟨least, sorted⟩ := List.pairwise_cons.mp sorted
    rcases Nat.lt_or_ge n (start round) with late | early
    · have later : ∀ r ∈ round :: rest, n < start r := by
        intro r member
        rcases List.mem_cons.mp member with rfl | inside
        · exact late
        · exact late.trans_le (least r inside)
      have none : (round :: rest).filter (fun r => start r ≤ n) = [] :=
        List.filter_eq_nil_iff.mpr fun r member => by simpa using later r member
      have all : (round :: rest).filter (fun r => n < start r) = round :: rest :=
        List.filter_eq_self.mpr fun r member => by simpa using later r member
      rw [none, all, List.nil_append]
    · rw [List.filter_cons_of_pos (by simpa using early), List.filter_cons_of_neg (by simpa using early),
        List.cons_append, ih sorted]

/-- As long as the item at `n` is not taken, the rounds begun after its arrival are full. -/
theorem Thorough.full (thorough : Thorough start items cap rounds) {early late : List β} (split : early ++ late = rounds)
    (after : ∀ round ∈ late, n < start round) {k : ℕ} (enough : k ≤ late.length)
    (waits : ((early ++ late.take k).flatMap items).length ≤ n) :
    ((early ++ late.take k).flatMap items).length = (early.flatMap items).length + k * cap := by
  induction k with
  | zero => simp
  | succ k ih =>
    have inside : k < late.length := enough
    have grown : early ++ late.take (k + 1) = (early ++ late.take k) ++ [late[k]] := by
      rw [List.take_succ_eq_append_getElem inside, List.append_assoc]
    have total : ((early ++ late.take (k + 1)).flatMap items).length =
        ((early ++ late.take k).flatMap items).length + (items late[k]).length := by
      rw [grown, List.flatMap_append, List.length_append, List.flatMap_singleton]
    have before := ih (by omega) (by omega)
    have parts : rounds = (early ++ late.take k) ++ late[k] :: late.drop (k + 1) := by
      rw [← split, List.append_assoc, ← List.drop_eq_getElem_cons inside, List.take_append_drop]
    have begun := after late[k] (List.getElem_mem inside)
    rcases thorough _ _ _ parts with full | complete
    · rw [total, before, full]
      ring
    · omega

/-- The round that takes the item at `n`. -/
theorem exists_round (taken : n < (rounds.flatMap items).length) : ∃ before round after,
    rounds = before ++ round :: after ∧ (before.flatMap items).length ≤ n ∧
      n < (before.flatMap items).length + (items round).length := by
  induction rounds generalizing n with
  | nil => cases taken
  | cons round rest ih =>
    rw [List.flatMap_cons, List.length_append] at taken
    rcases Nat.lt_or_ge n (items round).length with here | there
    · exact ⟨[], round, rest, rfl, Nat.zero_le _, by simpa using here⟩
    · obtain ⟨before, other, after, rfl, low, high⟩ := ih (n := n - (items round).length) (by omega)
      refine ⟨round :: before, other, after, rfl, ?_, ?_⟩
      · rw [List.flatMap_cons, List.length_append]
        omega
      · rw [List.flatMap_cons, List.length_append]
        omega

/-- An item with `b` untaken ones before it is taken by a round that had begun when it arrived, or by one of the first
`⌈(b + 1) / cap⌉` rounds begun later, if there are as many. -/
theorem Thorough.bounded_wait (thorough : Thorough start items cap rounds) (positive : 0 < cap)
    (sorted : rounds.Pairwise fun a b => start a ≤ start b) {b : ℕ}
    (arrived : n ≤ b + ((rounds.filter fun r => start r ≤ n).flatMap items).length) :
    (∃ before round after, rounds = before ++ round :: after ∧ (before.flatMap items).length ≤ n ∧
        n < (before.flatMap items).length + (items round).length ∧
        (n < start round → (before.filter fun r => n < start r).length < (b + 1) ⌈/⌉ cap)) ∨
      (rounds.filter fun r => n < start r).length < (b + 1) ⌈/⌉ cap := by
  let k := (b + 1) ⌈/⌉ cap
  let early := rounds.filter fun r => start r ≤ n
  let late := rounds.filter fun r => n < start r
  have reaches : b + 1 ≤ k * cap := by
    rw [Nat.mul_comm]
    exact (ceilDiv_le_iff_le_mul positive).mp le_rfl
  rcases Nat.lt_or_ge late.length k with short | enough
  · exact .inr short
  have parts : early ++ late = rounds := filter_append_filter sorted n
  have taken : n < ((early ++ late.take k).flatMap items).length := by
    by_contra waits
    have full := thorough.full parts (fun round member => of_decide_eq_true (List.mem_filter.mp member).2) enough
      (Nat.le_of_not_lt waits)
    have arrived : n ≤ b + (early.flatMap items).length := arrived
    omega
  obtain ⟨before, round, after, split, low, high⟩ := exists_round taken
  refine .inl ⟨before, round, after ++ late.drop k, ?_, low, high, fun later => ?_⟩
  · rw [← List.cons_append, ← List.append_assoc, ← split, List.append_assoc, List.take_append_drop, parts]
  · have none : early.filter (fun r => n < start r) = [] := by
      refine List.filter_eq_nil_iff.mpr fun r member => ?_
      have begun : start r ≤ n := of_decide_eq_true (List.mem_filter.mp member).2
      simpa using begun
    have few : ((early ++ late.take k).filter fun r => n < start r).length ≤ k := by
      rw [List.filter_append, none, List.nil_append]
      exact (List.length_filter_le ..).trans (List.length_take_le ..)
    rw [split, List.filter_append, List.filter_cons_of_pos (by simpa using later), List.length_append,
      List.length_cons] at few
    omega

end FluxKV.Batching
