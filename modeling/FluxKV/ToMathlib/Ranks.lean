import Mathlib.Algebra.BigOperators.Group.List.Basic
import Mathlib.Algebra.GroupWithZero.Nat
import Mathlib.Data.List.Basic
import Mathlib.Data.List.Count
import Mathlib.Data.Nat.Basic
import Mathlib.Order.Monotone.Defs

/-! # Ranks read off bucket counts

Samples are counted by bucket and forgotten. If buckets follow the order of the samples, a scan that adds the counts up
and stops when the sum exceeds a rank stops at the bucket of the sample of that rank.
-/

namespace FluxKV.Ranks

/-- The place of the first count with which the running sum exceeds `want`. -/
def scan (want : ℕ) : List ℕ → ℕ → ℕ → Option ℕ
  | [], _, _ => none
  | count :: rest, i, seen =>
    if want < seen + count then some i else scan want rest (i + 1) (seen + count)

theorem scan_eq_some {want : ℕ} {counts : List ℕ} {k i seen : ℕ} (inside : k < counts.length)
    (before : seen + (counts.take k).sum ≤ want) (reached : want < seen + (counts.take (k + 1)).sum) :
    scan want counts i seen = some (i + k) := by
  induction counts generalizing k i seen with
  | nil => cases inside
  | cons count rest ih =>
    rw [List.take_succ_cons, List.sum_cons, ← Nat.add_assoc] at reached
    cases k with
    | zero =>
      simp only [List.take_zero, List.sum_nil] at reached
      rw [scan, if_pos (by omega), Nat.add_zero]
    | succ k =>
      rw [List.take_succ_cons, List.sum_cons, ← Nat.add_assoc] at before
      rw [scan, if_neg (by omega), ih (Nat.lt_of_succ_lt_succ inside) before reached]
      congr 1
      omega

section Buckets

variable {α : Type*} (bucket : α → ℕ)

/-- How many samples each of `n` buckets has. -/
def counts (n : ℕ) (samples : List α) : List ℕ := (List.range n).map fun i => samples.countP fun x => bucket x = i

theorem countP_lt_succ (samples : List α) (i : ℕ) :
    samples.countP (fun x => bucket x < i + 1) =
      samples.countP (fun x => bucket x < i) + samples.countP fun x => bucket x = i := by
  induction samples with
  | nil => rfl
  | cons x samples ih =>
    simp only [List.countP_cons, ih, decide_eq_true_eq]
    rcases Nat.lt_trichotomy (bucket x) i with less | same | more
    · simp [less, Nat.lt_succ_of_lt less, Nat.ne_of_lt less, Nat.add_right_comm]
    · simp [same, Nat.add_assoc]
    · simp [Nat.not_lt_of_gt more, Nat.ne_of_gt more, Nat.not_lt.mpr (Nat.succ_le_of_lt more)]

/-- The running sum counts the samples of all buckets so far. -/
theorem sum_take_counts {n k : ℕ} (samples : List α) (inside : k ≤ n) :
    ((counts bucket n samples).take k).sum = samples.countP fun x => bucket x < k := by
  rw [counts, ← List.map_take, List.take_range, Nat.min_eq_left inside]
  clear inside
  induction k with
  | zero => simp
  | succ k ih =>
    rw [List.range_succ, List.map_append, List.sum_append, ih, countP_lt_succ]
    simp

variable {bucket} [Preorder α]

/-- The scan stops at the bucket of the sample whose rank it is given. -/
theorem scan_counts {n r : ℕ} {sorted : List α} (monotone : Monotone bucket) (bound : ∀ x, bucket x < n)
    (order : sorted.Pairwise (· ≤ ·)) (short : r < sorted.length) :
    scan r (counts bucket n sorted) 0 0 = some (bucket sorted[r]) := by
  have parts : ∀ p : α → Bool, sorted.countP p = (sorted.take r).countP p + (sorted.drop r).countP p := fun p => by
    rw [← List.countP_append, List.take_append_drop]
  have front : ∀ x ∈ sorted.take (r + 1), x ≤ sorted[r] := by
    intro x member
    obtain ⟨j, inside, rfl⟩ := List.getElem_of_mem member
    rw [List.length_take] at inside
    rw [List.getElem_take]
    rcases Nat.lt_or_eq_of_le (Nat.le_of_lt_succ (Nat.lt_of_lt_of_le inside (Nat.min_le_left ..))) with less | same
    · exact List.pairwise_iff_getElem.mp order j r _ _ less
    · simp only [same, le_refl]
  have back : ∀ x ∈ sorted.drop r, sorted[r] ≤ x := by
    intro x member
    obtain ⟨j, inside, rfl⟩ := List.getElem_of_mem member
    rw [List.getElem_drop]
    rcases Nat.eq_zero_or_pos j with rfl | pos
    · exact le_refl _
    · exact List.pairwise_iff_getElem.mp order r (r + j) _ _ (Nat.lt_add_of_pos_right pos)
  have length : (counts bucket n sorted).length = n := by rw [counts, List.length_map, List.length_range]
  have inside := bound sorted[r]
  rw [scan_eq_some (k := bucket sorted[r]) (by rwa [length]), Nat.zero_add]
  · rw [Nat.zero_add, sum_take_counts bucket sorted inside.le, parts]
    have none : (sorted.drop r).countP (fun x => bucket x < bucket sorted[r]) = 0 :=
      List.countP_eq_zero.mpr fun x member => by simpa using monotone (back x member)
    rw [none, Nat.add_zero]
    exact List.countP_le_length.trans (List.length_take_le ..)
  · rw [Nat.zero_add, sum_take_counts bucket sorted inside]
    have all : (sorted.take (r + 1)).countP (fun x => bucket x < bucket sorted[r] + 1) = r + 1 := by
      rw [List.countP_eq_length.mpr fun x member => by simpa using Nat.lt_succ_of_le (monotone (front x member)),
        List.length_take, Nat.min_eq_left short]
    exact Nat.lt_of_lt_of_le (Nat.lt_of_lt_of_eq (Nat.lt_succ_self r) all.symm) (List.take_sublist ..).countP_le

end Buckets

end FluxKV.Ranks
