import Mathlib.Data.List.Perm.Basic

/-! # Groups found by a scan

A list of keyed groups, as a small associative container keeps them: the group of a key is found by a scan from
the front, a key seen for the first time gets a new group at the back, and a group that has been handed on stays
where it is, empty. Regrouping a list neither loses nor doubles a member, whatever the keys.
-/

namespace FluxKV.Grouping

variable {κ α : Type*} [DecidableEq κ]

/-- Append to the group of a key. -/
def push (k : κ) (x : α) : List (κ × List α) → List (κ × List α)
  | [] => [(k, [x])]
  | group :: rest => if group.1 = k then (k, group.2 ++ [x]) :: rest else group :: push k x rest

/-- The group of a key. -/
def slot (k : κ) : List (κ × List α) → List α
  | [] => []
  | group :: rest => if group.1 = k then group.2 else slot k rest

/-- Empty the group of a key. -/
def clear (k : κ) : List (κ × List α) → List (κ × List α)
  | [] => []
  | group :: rest => if group.1 = k then (k, []) :: rest else group :: clear k rest

/-- One group for each key, in the order of first occurrence. -/
def groupBy (key : α → κ) (xs : List α) : List (κ × List α) :=
  xs.foldl (fun groups x => push (key x) x groups) []

/-- What all groups hold. -/
def members (groups : List (κ × List α)) : List α := groups.flatMap Prod.snd

/-- Every group holds members of its own key. -/
def Keyed (key : α → κ) (groups : List (κ × List α)) : Prop :=
  ∀ group ∈ groups, ∀ x ∈ group.2, key x = group.1

variable {key : α → κ} {groups : List (κ × List α)}

theorem members_push (k : κ) (x : α) (groups : List (κ × List α)) :
    (members (push k x groups)).Perm (x :: members groups) := by
  induction groups with
  | nil => exact .refl _
  | cons group rest ih =>
    rw [push]
    split
    · simp only [members, List.flatMap_cons, List.append_assoc, List.singleton_append]
      exact List.perm_middle
    · simp only [members, List.flatMap_cons]
      exact (ih.append_left group.2).trans List.perm_middle

theorem members_clear (k : κ) (groups : List (κ × List α)) :
    (slot k groups ++ members (clear k groups)).Perm (members groups) := by
  induction groups with
  | nil => exact .refl _
  | cons group rest ih =>
    rw [slot, clear]
    split
    · exact .refl _
    · simp only [members, List.flatMap_cons]
      exact (List.perm_append_comm_assoc ..).trans (ih.append_left group.2)

/-- A group that is handed on with its last member. -/
theorem members_clear_push (k : κ) (x : α) (groups : List (κ × List α)) :
    (slot k (push k x groups) ++ members (clear k (push k x groups))).Perm (x :: members groups) :=
  (members_clear k _).trans (members_push k x groups)

theorem members_groupBy (key : α → κ) (xs : List α) : (members (groupBy key xs)).Perm xs := by
  have collected : ∀ (xs : List α) (groups : List (κ × List α)),
      (members (xs.foldl (fun groups x => push (key x) x groups) groups)).Perm (xs ++ members groups) := by
    intro xs
    induction xs with
    | nil => exact fun _ => .refl _
    | cons x rest ih =>
      exact fun groups => (ih _).trans (((members_push (key x) x groups).append_left rest).trans List.perm_middle)
  simpa only [members, groupBy, List.flatMap_nil, List.append_nil] using collected xs []

theorem Keyed.push (keyed : Keyed key groups) (x : α) : Keyed key (push (key x) x groups) := by
  induction groups with
  | nil => simp [Keyed, Grouping.push]
  | cons group rest ih =>
    obtain ⟨first, others⟩ := List.forall_mem_cons.mp keyed
    rw [Grouping.push]
    split
    next same =>
      refine List.forall_mem_cons.mpr ⟨fun y member => ?_, others⟩
      rcases List.mem_append.mp member with there | added
      · exact (first y there).trans same
      · rw [List.mem_singleton.mp added]
    next => exact List.forall_mem_cons.mpr ⟨first, ih others⟩

theorem Keyed.clear (keyed : Keyed key groups) (k : κ) : Keyed key (clear k groups) := by
  induction groups with
  | nil => exact keyed
  | cons group rest ih =>
    obtain ⟨first, others⟩ := List.forall_mem_cons.mp keyed
    rw [Grouping.clear]
    split
    · exact List.forall_mem_cons.mpr ⟨fun y member => (List.not_mem_nil member).elim, others⟩
    · exact List.forall_mem_cons.mpr ⟨first, ih others⟩

theorem Keyed.slot (keyed : Keyed key groups) (k : κ) : ∀ x ∈ slot k groups, key x = k := by
  induction groups with
  | nil => exact fun x member => (List.not_mem_nil member).elim
  | cons group rest ih =>
    obtain ⟨first, others⟩ := List.forall_mem_cons.mp keyed
    rw [Grouping.slot]
    split
    next same => exact fun x member => (first x member).trans same
    next => exact ih others

theorem keyed_groupBy (key : α → κ) (xs : List α) : Keyed key (groupBy key xs) := by
  have collected : ∀ (xs : List α) (groups : List (κ × List α)), Keyed key groups →
      Keyed key (xs.foldl (fun groups x => push (key x) x groups) groups) := by
    intro xs
    induction xs with
    | nil => exact fun _ keyed => keyed
    | cons x rest ih => exact fun groups keyed => ih _ (keyed.push x)
  exact collected xs [] fun _ member => (List.not_mem_nil member).elim

omit [DecidableEq κ] in
@[simp] theorem members_map_nil (groups : List (κ × List α)) :
    members (groups.map fun g => (g.1, ([] : List α))) = [] := by
  simp [members]

end FluxKV.Grouping
