import Mathlib.Algebra.Order.BigOperators.Group.List
import Mathlib.Algebra.Order.Ring.Nat

/-! # Calls in progress

The calls in progress on a shared object are a list of program counters. A call that begins is appended and a
step replaces one counter by the next. Each counter has a weight, the number of tokens the call holds; where all
calls together hold at most one, whatever goes with the token is with one call.
-/

namespace FluxKV.Machine

variable {α β : Type*} {calls : List α} {i : ℕ} {old : α}

theorem sum_map_set (weight : α → ℕ) (here : calls[i]? = some old) (new : α) :
    ((calls.set i new).map weight).sum + weight old = (calls.map weight).sum + weight new := by
  induction calls generalizing i with
  | nil => cases here
  | cons call rest ih =>
    cases i with
    | zero =>
      obtain rfl := Option.some.inj here
      simp only [List.set_cons_zero, List.map_cons, List.sum_cons]
      omega
    | succ i =>
      have tail := ih (i := i) here
      simp only [List.set_cons_succ, List.map_cons, List.sum_cons]
      omega

theorem weight_le_sum (weight : α → ℕ) (here : calls[i]? = some old) : weight old ≤ (calls.map weight).sum := by
  have member := List.mem_map_of_mem (f := weight) (List.mem_of_getElem? here)
  exact List.single_le_sum (fun _ _ => Nat.zero_le _) _ member

theorem add_weight_le_sum (weight : α → ℕ) {j : ℕ} {other : α} (apart : i ≠ j) (here : calls[i]? = some old)
    (there : calls[j]? = some other) : weight old + weight other ≤ (calls.map weight).sum := by
  induction calls generalizing i j with
  | nil => cases here
  | cons call rest ih =>
    rw [List.map_cons, List.sum_cons]
    rcases i with _ | i
    · rcases j with _ | j
      · exact absurd rfl apart
      · obtain rfl := Option.some.inj here
        have inside : weight other ≤ (rest.map weight).sum := weight_le_sum weight (i := j) there
        omega
    · rcases j with _ | j
      · obtain rfl := Option.some.inj there
        have inside : weight old ≤ (rest.map weight).sum := weight_le_sum weight (i := i) here
        omega
      · have tail := ih (i := i) (j := j) (fun same => apart (congrArg _ same)) here there
        omega

theorem forall_mem_set {P : α → Prop} {new : α} (holds : P new) (others : ∀ call ∈ calls, P call) :
    ∀ call ∈ calls.set i new, P call := by
  intro call member
  rcases List.mem_or_eq_of_mem_set member with there | rfl
  · exact others call there
  · exact holds

theorem mem_set_self (here : calls[i]? = some old) (new : α) : new ∈ calls.set i new :=
  List.mem_of_getElem? (List.getElem?_set_self (List.getElem?_eq_some_iff.mp here).1)

/-- A call other than the one that moves stays where it is. -/
theorem exists_mem_set {P : α → Prop} (here : calls[i]? = some old) (other : ¬ P old) (new : α)
    (found : ∃ call ∈ calls, P call) : ∃ call ∈ calls.set i new, P call := by
  obtain ⟨call, member, holds⟩ := found
  obtain ⟨j, there⟩ := List.mem_iff_getElem?.mp member
  have apart : i ≠ j := by
    rintro rfl
    rw [Option.some.inj (here.symm.trans there)] at other
    exact other holds
  exact ⟨call, List.mem_of_getElem? ((List.getElem?_set_ne apart).trans there), holds⟩

theorem flatMap_set_of_eq {holds : α → List β} (here : calls[i]? = some old) {new : α} (same : holds new = holds old) :
    (calls.set i new).flatMap holds = calls.flatMap holds := by
  induction calls generalizing i with
  | nil => rfl
  | cons call rest ih =>
    cases i with
    | zero =>
      obtain rfl := Option.some.inj here
      rw [List.set_cons_zero, List.flatMap_cons, List.flatMap_cons, same]
    | succ i => rw [List.set_cons_succ, List.flatMap_cons, List.flatMap_cons, ih here]

/-- What comes in and what goes out at one call does so at all of them together. -/
theorem flatMap_set_perm {holds : α → List β} (here : calls[i]? = some old) {new : α} {incoming out : List β}
    (moved : (holds new ++ out).Perm (incoming ++ holds old)) :
    ((calls.set i new).flatMap holds ++ out).Perm (incoming ++ calls.flatMap holds) := by
  induction calls generalizing i with
  | nil => cases here
  | cons call rest ih =>
    cases i with
    | zero =>
      obtain rfl := Option.some.inj here
      rw [List.set_cons_zero, List.flatMap_cons, List.flatMap_cons, ← List.append_assoc incoming]
      have swapped : (holds new ++ rest.flatMap holds ++ out).Perm (holds new ++ out ++ rest.flatMap holds) := by
        rw [List.append_assoc, List.append_assoc]
        exact List.perm_append_comm.append_left _
      exact swapped.trans (moved.append_right _)
    | succ i =>
      rw [List.set_cons_succ, List.flatMap_cons, List.flatMap_cons, List.append_assoc]
      exact ((ih here).append_left _).trans (List.perm_append_comm_assoc ..)

theorem count_flatMap_set [DecidableEq β] (holds : α → List β) (here : calls[i]? = some old) (new : α) (b : β) :
    ((calls.set i new).flatMap holds).count b + (holds old).count b =
      (calls.flatMap holds).count b + (holds new).count b := by
  have moved : ((calls.set i new).flatMap holds ++ holds old).Perm (holds new ++ calls.flatMap holds) :=
    flatMap_set_perm here (.refl _)
  have same := moved.count_eq b
  rw [List.count_append, List.count_append] at same
  omega

theorem count_flatMap_eraseIdx [DecidableEq β] (holds : α → List β) (here : calls[i]? = some old) (b : β) :
    (calls.flatMap holds).count b = (holds old).count b + ((calls.eraseIdx i).flatMap holds).count b := by
  obtain ⟨inside, rfl⟩ := List.getElem?_eq_some_iff.mp here
  have same := ((List.getElem_cons_eraseIdx_perm inside).flatMap_right holds).count_eq b
  rw [List.flatMap_cons, List.count_append] at same
  exact same.symm

theorem count_flatMap_filter [DecidableEq β] (holds : α → List β) (p : α → Bool) (calls : List α) (b : β) :
    ((calls.filter p).flatMap holds).count b + ((calls.filter fun call => !p call).flatMap holds).count b =
      (calls.flatMap holds).count b := by
  rw [← List.count_append, ← List.flatMap_append]
  exact ((List.filter_append_perm p calls).flatMap_right holds).count_eq b

theorem flatMap_set_of_nil {holds : α → List β} (here : calls[i]? = some old) (none : calls.flatMap holds = [])
    (new : α) : (calls.set i new).flatMap holds = holds new := by
  have bare := List.flatMap_eq_nil_iff.mp none
  have before := List.flatMap_eq_nil_iff.mpr fun call member => bare call (List.mem_of_mem_take (i := i) member)
  have after := List.flatMap_eq_nil_iff.mpr fun call member => bare call (List.mem_of_mem_drop (i := i + 1) member)
  rw [List.set_eq_take_append_cons_drop, if_pos (List.getElem?_eq_some_iff.mp here).1, List.flatMap_append,
    List.flatMap_cons, before, after, List.nil_append, List.append_nil]

/-- Where nobody else holds a token, what the calls hold is what this one holds. -/
theorem flatMap_set_of_alone {weight : α → ℕ} {holds : α → List β} (bare : ∀ call, weight call = 0 → holds call = [])
    (here : calls[i]? = some old) (token : weight old = 1) (single : (calls.map weight).sum ≤ 1) (new : α) :
    (calls.set i new).flatMap holds = holds new := by
  induction calls generalizing i with
  | nil => cases here
  | cons call rest ih =>
    simp only [List.map_cons, List.sum_cons] at single
    cases i with
    | zero =>
      obtain rfl := Option.some.inj here
      have none : ∀ other ∈ rest, holds other = [] := by
        intro other member
        have := List.single_le_sum (fun _ _ => Nat.zero_le _) _ (List.mem_map_of_mem (f := weight) member)
        exact bare other (by omega)
      rw [List.set_cons_zero, List.flatMap_cons, List.flatMap_eq_nil_iff.mpr none, List.append_nil]
    | succ i =>
      have inside : weight old ≤ (rest.map weight).sum := weight_le_sum weight (i := i) here
      rw [List.set_cons_succ, List.flatMap_cons, bare call (by omega), List.nil_append]
      exact ih here (by omega)

/-- Where nobody else holds a token, every call but the one that moves has none. -/
theorem mem_set_of_alone {weight : α → ℕ} (here : calls[i]? = some old) (token : weight old = 1)
    (single : (calls.map weight).sum ≤ 1) {new call : α} (member : call ∈ calls.set i new) :
    call = new ∨ weight call = 0 := by
  obtain ⟨j, there⟩ := List.mem_iff_getElem?.mp member
  rcases eq_or_ne i j with rfl | apart
  · rw [List.getElem?_set_self (List.getElem?_eq_some_iff.mp here).1] at there
    exact .inl (Option.some.inj there).symm
  · refine .inr ?_
    rw [List.getElem?_set_ne apart] at there
    have both := add_weight_le_sum weight apart here there
    omega

end FluxKV.Machine
