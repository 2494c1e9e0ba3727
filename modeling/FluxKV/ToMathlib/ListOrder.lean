import Mathlib.Data.List.Nodup
import Mathlib.Data.List.Pairwise

/-! # One before the other

`[a, b].Sublist l` says that `a` stands before `b` in `l`. Two members of a list stand in one order or
the other, and in a list without repetition not in both.
-/

namespace FluxKV.ListOrder

variable {α : Type*} {l : List α} {a b : α}

theorem pair_sublist_or (first : a ∈ l) (second : b ∈ l) (distinct : a ≠ b) :
    [a, b].Sublist l ∨ [b, a].Sublist l := by
  obtain ⟨before, after, rfl⟩ := List.append_of_mem first
  rcases List.mem_append.mp second with earlier | later
  · exact .inr ((List.singleton_sublist.mpr earlier).append (List.singleton_sublist.mpr List.mem_cons_self))
  · rcases List.mem_cons.mp later with same | later
    · exact (distinct same.symm).elim
    · exact .inl ((List.cons_sublist_cons.mpr (List.singleton_sublist.mpr later)).trans (List.sublist_append_right ..))

theorem not_pair_swap (distinct : l.Nodup) (forth : [a, b].Sublist l) (back : [b, a].Sublist l) : False := by
  induction l with
  | nil => cases forth
  | cons x rest ih =>
    obtain ⟨fresh, distinct⟩ := List.nodup_cons.mp distinct
    rcases List.sublist_cons_iff.mp forth with inside | ⟨tail, head, forth⟩
    · rcases List.sublist_cons_iff.mp back with inside' | ⟨tail', head', back⟩
      · exact ih distinct inside inside'
      · cases head'
        exact fresh (inside.subset (List.mem_cons_of_mem _ List.mem_cons_self))
    · cases head
      rcases List.sublist_cons_iff.mp back with inside' | ⟨tail', head', back⟩
      · exact fresh (inside'.subset (List.mem_cons_of_mem _ List.mem_cons_self))
      · cases head'
        exact fresh (back.subset List.mem_cons_self)

theorem pair_trans {c : α} (distinct : l.Nodup) (first : [a, b].Sublist l) (second : [b, c].Sublist l) :
    [a, c].Sublist l := by
  induction l with
  | nil => cases first
  | cons x rest ih =>
    obtain ⟨fresh, distinct⟩ := List.nodup_cons.mp distinct
    rcases List.sublist_cons_iff.mp first with inside | ⟨tail, head, first⟩
    · rcases List.sublist_cons_iff.mp second with inside' | ⟨tail', head', _⟩
      · exact (ih distinct inside inside').cons x
      · cases head'
        exact (fresh (inside.subset (List.mem_cons_of_mem _ List.mem_cons_self))).elim
    · cases head
      rcases List.sublist_cons_iff.mp second with inside' | ⟨tail', head', _⟩
      · exact List.cons_sublist_cons.mpr
          (List.singleton_sublist.mpr (inside'.subset (List.mem_cons_of_mem _ List.mem_cons_self)))
      · cases head'
        exact (fresh (first.subset List.mem_cons_self)).elim

/-- In a list without repetition, a sublist that holds two members holds them in the list's order. -/
theorem pair_of_sublist {l' : List α} (distinct : l.Nodup) (pair : [a, b].Sublist l) (part : l'.Sublist l)
    (first : a ∈ l') (second : b ∈ l') : [a, b].Sublist l' := by
  have differ : a ≠ b := by
    rintro rfl
    exact not_pair_swap distinct pair pair
  rcases pair_sublist_or first second differ with forth | back
  · exact forth
  · exact (not_pair_swap distinct pair (back.trans part)).elim

/-- Members of a list that rises strictly by a rank stand in the order of their ranks. -/
theorem rank_lt_of_pair {rank : α → ℕ} (rising : l.Pairwise fun x y => rank x < rank y)
    (pair : [a, b].Sublist l) : rank a < rank b :=
  List.rel_of_pairwise_cons (rising.sublist pair) List.mem_cons_self

end FluxKV.ListOrder
