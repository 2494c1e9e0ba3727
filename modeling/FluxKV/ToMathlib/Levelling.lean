import Mathlib.Algebra.Order.Group.Unbundled.Int
import Mathlib.Data.List.Count

/-! # Levelling by unit moves

One unit at a time goes from a largest load to a smallest, until all are within one of each other. A load that has
given stays within one of the largest and one that has received within one of the smallest, so that none does both,
and each gives or receives just the difference it ends with.
-/

namespace FluxKV.Levelling

variable {ι : Type*} [DecidableEq ι] (among : ι → Prop)

/-- One unit goes from `a` to `b`. -/
def shift (load : ι → ℤ) (a b : ι) (i : ι) : ℤ := load i - (if i = a then 1 else 0) + (if i = b then 1 else 0)

/-- A largest and a smallest load, with a gap between them. -/
structure Widest (load : ι → ℤ) (most least : ι) : Prop where
  most_mem : among most
  least_mem : among least
  le_most : ∀ i, among i → load i ≤ load most
  least_le : ∀ i, among i → load least ≤ load i
  apart : 1 < load most - load least

/-- All loads are within one of each other. -/
def Level (load : ι → ℤ) : Prop := ∀ i j, among i → among j → load i ≤ load j + 1

/-- These moves, each from a largest to a smallest load, level the first loads to the last. -/
inductive Levels : (ι → ℤ) → List (ι × ι) → (ι → ℤ) → Prop
  | done {load : ι → ℤ} (level : Level among load) : Levels load [] load
  | move {load final : ι → ℤ} {most least : ι} {moves : List (ι × ι)} (widest : Widest among load most least)
      (rest : Levels (shift load most least) moves final) : Levels load ((most, least) :: moves) final

/-- No load is more than one above that of `i`. -/
def High (load : ι → ℤ) (i : ι) : Prop := ∀ j, among j → load j ≤ load i + 1

/-- No load is more than one below that of `i`. -/
def Low (load : ι → ℤ) (i : ι) : Prop := ∀ j, among j → load i ≤ load j + 1

variable {among} {load final : ι → ℤ} {most least i : ι} {moves : List (ι × ι)}

theorem Widest.high_most (widest : Widest among load most least) : High among (shift load most least) most := by
  intro j member
  have large := widest.le_most j member
  have gap := widest.apart
  rcases eq_or_ne j least with rfl | other
  · simp only [shift, if_true]
    split <;> split <;> omega
  · simp only [shift, other, if_true, if_false]
    split <;> split <;> omega

/-- A high load is not the smallest, and stays high. -/
theorem High.shift (high : High among load i) (widest : Widest among load most least) :
    i ≠ least ∧ High among (shift load most least) i := by
  have top := high most widest.most_mem
  have gap := widest.apart
  have other : i ≠ least := by
    rintro rfl
    omega
  refine ⟨other, ?_⟩
  rcases eq_or_ne i most with rfl | same
  · exact widest.high_most
  · intro j member
    have bound := high j member
    rcases eq_or_ne j least with rfl | notLeast
    · simp only [Levelling.shift, same, other, if_true, if_false]
      split <;> omega
    · simp only [Levelling.shift, same, other, notLeast, if_false]
      split <;> omega

/-! With the signs of the loads changed, low is high. -/

omit [DecidableEq ι] in
theorem low_iff_high_neg : Low among load i ↔ High among (fun j => -load j) i := by
  refine forall₂_congr fun j _ => ?_
  dsimp only
  omega

theorem shift_neg (load : ι → ℤ) (a b : ι) : shift (fun j => -load j) b a = fun j => -shift load a b j := by
  funext j
  simp only [shift]
  split <;> split <;> omega

omit [DecidableEq ι] in
theorem Widest.neg (widest : Widest among load most least) : Widest among (fun j => -load j) least most where
  most_mem := widest.least_mem
  least_mem := widest.most_mem
  le_most j member := Int.neg_le_neg (widest.least_le j member)
  least_le j member := Int.neg_le_neg (widest.le_most j member)
  apart := by
    have gap := widest.apart
    omega

theorem Widest.low_least (widest : Widest among load most least) : Low among (shift load most least) least := by
  rw [low_iff_high_neg, ← shift_neg]
  exact widest.neg.high_most

/-- A low load is not the largest, and stays low. -/
theorem Low.shift (low : Low among load i) (widest : Widest among load most least) :
    i ≠ most ∧ Low among (shift load most least) i := by
  rw [low_iff_high_neg] at low
  rw [low_iff_high_neg, ← shift_neg]
  exact low.shift widest.neg

namespace Levels

theorem level (levels : Levels among load moves final) : Level among final := by
  induction levels with
  | done level => exact level
  | move _ _ ih => exact ih

/-- Every move is between two of the loads. -/
theorem among_of_mem (levels : Levels among load moves final) : ∀ move ∈ moves, among move.1 ∧ among move.2 := by
  induction levels with
  | done => exact fun _ member => absurd member List.not_mem_nil
  | move widest _ ih => exact List.forall_mem_cons.mpr ⟨⟨widest.most_mem, widest.least_mem⟩, ih⟩

theorem high_not_mem (levels : Levels among load moves final) (high : High among load i) : i ∉ moves.map Prod.snd := by
  induction levels with
  | done => exact List.not_mem_nil
  | move widest _ ih =>
    obtain ⟨other, still⟩ := high.shift widest
    exact List.not_mem_cons_of_ne_of_not_mem other (ih still)

theorem low_not_mem (levels : Levels among load moves final) (low : Low among load i) : i ∉ moves.map Prod.fst := by
  induction levels with
  | done => exact List.not_mem_nil
  | move widest _ ih =>
    obtain ⟨other, still⟩ := low.shift widest
    exact List.not_mem_cons_of_ne_of_not_mem other (ih still)

/-- None of the loads both gives and receives. -/
theorem disjoint (levels : Levels among load moves final) (i : ι) :
    i ∉ moves.map Prod.fst ∨ i ∉ moves.map Prod.snd := by
  induction levels with
  | done => exact .inl List.not_mem_nil
  | @move _ _ most least _ widest rest ih =>
    simp only [List.map_cons, List.mem_cons, not_or]
    have gap := widest.apart
    rcases eq_or_ne i most with rfl | notMost
    · refine .inr ⟨?_, rest.high_not_mem widest.high_most⟩
      rintro rfl
      omega
    · rcases eq_or_ne i least with rfl | notLeast
      · exact .inl ⟨notMost, rest.low_not_mem widest.low_least⟩
      · exact ih.imp (And.intro notMost) (And.intro notLeast)

/-- What a load ends with. -/
theorem final_eq (levels : Levels among load moves final) (i : ι) :
    final i = load i - (moves.map Prod.fst).count i + (moves.map Prod.snd).count i := by
  induction levels with
  | done => simp
  | @move _ _ most least _ _ _ ih =>
    rw [ih]
    simp only [shift, List.map_cons, List.count_cons, beq_iff_eq, @eq_comm _ i]
    split <;> split <;> push_cast <;> omega

theorem count_fst (levels : Levels among load moves final) (i : ι) :
    ((moves.map Prod.fst).count i : ℤ) = max 0 (load i - final i) := by
  have ends := levels.final_eq i
  rcases levels.disjoint i with none | none <;> rw [List.count_eq_zero_of_not_mem none] at * <;> omega

theorem count_snd (levels : Levels among load moves final) (i : ι) :
    ((moves.map Prod.snd).count i : ℤ) = max 0 (final i - load i) := by
  have ends := levels.final_eq i
  rcases levels.disjoint i with none | none <;> rw [List.count_eq_zero_of_not_mem none] at * <;> omega

/-- Loads that are level stay where they are. -/
theorem eq_nil (levels : Levels among load moves final) (level : Level among load) : moves = [] := by
  cases levels with
  | done => rfl
  | move widest _ =>
    have close := level _ _ widest.most_mem widest.least_mem
    have gap := widest.apart
    omega

end Levels

end FluxKV.Levelling
