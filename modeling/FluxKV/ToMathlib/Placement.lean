import Mathlib.Data.List.Nodup
import Mathlib.Data.List.Perm.Basic
import Mathlib.Logic.Function.Basic

/-! # Things that are in one place at a time

A family of lists, one per place, in which nothing occurs twice. A step that carries some things from
one place to another, or turns a place's things around, keeps the family so.
-/

namespace FluxKV

/-- Nothing is in two places, or in one place twice. -/
structure Distinct {ι α : Type*} (place : ι → List α) : Prop where
  nodup : ∀ i, (place i).Nodup
  single : ∀ {i j x}, x ∈ place i → x ∈ place j → i = j

namespace Distinct

variable {ι α : Type*} {place : ι → List α} {p q : ι} {a b : List α}

theorem disjoint (distinct : Distinct place) (apart : p ≠ q) : (place p).Disjoint (place q) :=
  fun _ inside outside => apart (distinct.single inside outside)

variable [DecidableEq ι]

/-- What is in a place after it changed was there before, or was nowhere. -/
theorem update (distinct : Distinct place) (nodup : a.Nodup)
    (source : ∀ x ∈ a, x ∈ place p ∨ ∀ i, x ∉ place i) : Distinct (Function.update place p a) where
  nodup := (Function.forall_update_iff place fun _ l => l.Nodup).mpr ⟨nodup, fun i _ => distinct.nodup i⟩
  single := by
    have here : ∀ {i x}, i ≠ p → x ∈ a → x ∉ place i := by
      intro i x apart inside elsewhere
      rcases source x inside with before | nowhere
      · exact apart (distinct.single elsewhere before)
      · exact nowhere i elsewhere
    intro i j x first second
    rcases eq_or_ne i p with rfl | left <;> rcases eq_or_ne j i with rfl | right
    · rfl
    · rw [Function.update_self] at first
      rw [Function.update_of_ne right] at second
      exact (here right first second).elim
    · rfl
    · rw [Function.update_of_ne left] at first
      rcases eq_or_ne j p with rfl | other
      · rw [Function.update_self] at second
        exact (here left second first).elim
      · rw [Function.update_of_ne other] at second
        exact distinct.single first second

/-- The things of a place are turned around. -/
theorem perm (distinct : Distinct place) (turned : a.Perm (place p)) : Distinct (Function.update place p a) :=
  distinct.update (turned.nodup_iff.mpr (distinct.nodup p)) fun _ inside => .inl (turned.subset inside)

/-- Things move from one place to another. -/
theorem move (distinct : Distinct place) (apart : q ≠ p) (kept : (a ++ b).Perm (place p ++ place q)) :
    Distinct (Function.update (Function.update place p a) q b) := by
  have together : (a ++ b).Nodup := by
    apply kept.nodup_iff.mpr
    exact (distinct.nodup p).append (distinct.nodup q) (distinct.disjoint apart.symm)
  obtain ⟨nodup, nodup', disjoint⟩ := List.nodup_append'.mp together
  have elsewhere : ∀ {x i}, x ∈ a ++ b → i ≠ p → i ≠ q → x ∉ place i := by
    intro x i inside notP notQ outside
    rcases List.mem_append.mp (kept.subset inside) with before | before
    · exact notP (distinct.single outside before)
    · exact notQ (distinct.single outside before)
  -- empty the second place, fill the first, then fill the second with what is nowhere by then
  have emptied : Distinct (Function.update place q []) := distinct.update List.nodup_nil fun _ inside => nomatch inside
  have filled : Distinct (Function.update (Function.update place q []) p a) := by
    refine emptied.update nodup fun x inside => ?_
    rcases List.mem_append.mp (kept.subset (List.mem_append_left b inside)) with before | before
    · left
      rwa [Function.update_of_ne apart.symm]
    · right
      intro i
      rcases eq_or_ne i q with rfl | other
      · rw [Function.update_self]
        exact List.not_mem_nil
      · rw [Function.update_of_ne other]
        exact fun outside => other (distinct.single outside before)
  have done : Distinct (Function.update (Function.update (Function.update place q []) p a) q b) := by
    refine filled.update nodup' fun x inside => .inr fun i => ?_
    rcases eq_or_ne i p with rfl | notP
    · rw [Function.update_self]
      exact fun outside => disjoint outside inside
    · rw [Function.update_of_ne notP]
      rcases eq_or_ne i q with rfl | notQ
      · rw [Function.update_self]
        exact List.not_mem_nil
      · rw [Function.update_of_ne notQ]
        exact elsewhere (List.mem_append_right a inside) notP notQ
  rwa [Function.update_comm apart, Function.update_idem] at done

end Distinct

end FluxKV
