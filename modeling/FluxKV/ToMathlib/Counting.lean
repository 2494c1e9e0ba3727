import Mathlib.Algebra.BigOperators.Group.Finset.Basic
import Mathlib.Algebra.BigOperators.Group.List.Basic
import Mathlib.Algebra.GroupWithZero.Nat
import Mathlib.Data.List.Count
import Mathlib.Logic.Function.Basic

/-! # Counters and indexed families

An atomic counter of a fixed width is held as the natural number it stands for. An addition to a narrow
counter wraps at its width, a subtraction wraps below zero, and so does a conversion between signed and
unsigned; sums of 64 bits that no run can reach are added plainly. The second half is about families of
values, one per thread or per queue, of which a step replaces one member.
-/

namespace FluxKV.Counting

/-- `fetch_add` on an unsigned counter of `width` bits. -/
def fetchAdd (width value amount : ℕ) : ℕ := (value + amount) % 2 ^ width

theorem fetchAdd_of_lt {width value amount : ℕ} (fits : value + amount < 2 ^ width) :
    fetchAdd width value amount = value + amount := Nat.mod_eq_of_lt fits

/-- `fetch_sub` on an unsigned counter of `width` bits. -/
def fetchSub (width value amount : ℕ) : ℕ :=
  if amount ≤ value then value - amount else value + 2 ^ width - amount

theorem fetchSub_of_le {width value amount : ℕ} (fits : amount ≤ value) :
    fetchSub width value amount = value - amount := if_pos fits

/-- `int64_t(n)` of a `size_t`. -/
def int64 (n : ℕ) : ℤ := if n < 2 ^ 63 then n else n - 2 ^ 64

/-- `size_t(i)` of an `int64_t`. -/
def sizeT (i : ℤ) : ℕ := (i % 2 ^ 64).toNat

theorem int64_of_lt {n : ℕ} (fits : n < 2 ^ 63) : int64 n = n := if_pos fits

theorem sizeT_of_nonneg {i : ℤ} (nonneg : 0 ≤ i) (fits : i < 2 ^ 64) : (sizeT i : ℤ) = i := by
  rw [sizeT, Int.emod_eq_of_lt nonneg fits, Int.toNat_of_nonneg nonneg]

theorem mem_iff_of_count_eq {ρ : Type*} [DecidableEq ρ] {first second : List ρ} {r : ρ}
    (same : first.count r = second.count r) : r ∈ first ↔ r ∈ second := by
  rw [← List.count_pos_iff, same, List.count_pos_iff]

section Weights

variable {ρ : Type*} [DecidableEq ρ] (weight : ρ → ℕ) {whole part rest : List ρ}

/-- Splitting a collection splits its weight. -/
theorem sum_map_of_count (split : ∀ r, whole.count r = part.count r + rest.count r) :
    (whole.map weight).sum = (part.map weight).sum + (rest.map weight).sum := by
  have perm : whole.Perm (part ++ rest) := List.perm_iff_count.mpr fun r => by rw [List.count_append, split]
  rw [(perm.map weight).sum_eq, List.map_append, List.sum_append]

/-- Taking a part out of a collection takes its weight out. -/
theorem sum_map_diff (inside : ∀ r, part.count r ≤ whole.count r) :
    (whole.map weight).sum = (part.map weight).sum + ((whole.diff part).map weight).sum := by
  apply sum_map_of_count weight
  intro r
  have := inside r
  rw [List.count_diff]
  omega

end Weights

section Families

variable {α β γ : Type*} [DecidableEq α] [DecidableEq β]

/-- What holds of every member and of the new one holds after the replacement. -/
theorem forall_update {P : α → γ → Prop} {f : α → γ} {a : α} {c : γ} (here : P a c) (others : ∀ x, P x (f x)) :
    ∀ x, P x (Function.update f a c x) :=
  (Function.forall_update_iff f P).mpr ⟨here, fun x _ => others x⟩

/-- Replacing one member takes its weight out and puts the new one's in. -/
theorem sum_update_add {members : Finset α} (weight : γ → ℕ) (f : α → γ) {a : α} (inside : a ∈ members) (c : γ) :
    ∑ x ∈ members, weight (Function.update f a c x) + weight (f a) = ∑ x ∈ members, weight (f x) + weight c := by
  have after := Finset.add_sum_erase members (fun x => weight (Function.update f a c x)) inside
  have before := Finset.add_sum_erase members (fun x => weight (f x)) inside
  have others : ∑ x ∈ members.erase a, weight (Function.update f a c x) = ∑ x ∈ members.erase a, weight (f x) :=
    Finset.sum_congr rfl fun x member => by rw [Function.update_of_ne (Finset.ne_of_mem_erase member)]
  rw [Function.update_self] at after
  omega

/-- Replacing one member of a family of families. -/
theorem update_update_apply (f : α → β → γ) (a : α) (b : β) (c : γ) (x : α) (y : β) :
    Function.update f a (Function.update (f a) b c) x y = if x = a ∧ y = b then c else f x y := by
  by_cases first : x = a
  · subst first
    by_cases second : y = b
    · subst second
      simp
    · simp [second]
  · simp [first]

/-- If each `r` can only be found in the member it belongs to, then replacing the member `f a` by `c`
moves the count of every `r` by the difference of the two. -/
theorem count_update {ρ : Type*} [DecidableEq ρ] (contents : γ → List ρ) (home : ρ → α) (f : α → γ) (a : α) (c : γ)
    (r : ρ) (old : ∀ x ∈ contents (f a), home x = a) (new : ∀ x ∈ contents c, home x = a) :
    (contents (Function.update f a c (home r))).count r + (contents (f a)).count r =
      (contents (f (home r))).count r + (contents c).count r := by
  by_cases same : home r = a
  · subst same
    rw [Function.update_self, Nat.add_comm]
  · rw [Function.update_of_ne same, List.count_eq_zero.mpr fun member => same (old r member),
      List.count_eq_zero.mpr fun member => same (new r member)]

theorem count_update_update {ρ : Type*} [DecidableEq ρ] (home : ρ → α) (home' : ρ → β) (f : α → β → List ρ) (a : α)
    (b : β) (c : List ρ) (r : ρ) (old : ∀ x ∈ f a b, home x = a ∧ home' x = b)
    (new : ∀ x ∈ c, home x = a ∧ home' x = b) :
    (Function.update f a (Function.update (f a) b c) (home r) (home' r)).count r + (f a b).count r =
      (f (home r) (home' r)).count r + c.count r := by
  rw [update_update_apply]
  split
  · next here => rw [here.1, here.2, Nat.add_comm]
  · next other =>
    rw [List.count_eq_zero.mpr fun member => other (old r member),
      List.count_eq_zero.mpr fun member => other (new r member)]

/-- If each `r` can only be found in the member it belongs to, then what a set of members holds of it is
what its own member does. -/
theorem count_flatMap_home {ρ : Type*} [DecidableEq ρ] (home : ρ → α) (f : α → List ρ)
    (own : ∀ a, ∀ x ∈ f a, home x = a) {members : List α} (distinct : members.Nodup) (r : ρ) :
    (members.flatMap f).count r = if home r ∈ members then (f (home r)).count r else 0 := by
  induction members with
  | nil => rfl
  | cons a rest ih =>
    obtain ⟨fresh, distinct⟩ := List.nodup_cons.mp distinct
    rw [List.flatMap_cons, List.count_append, ih distinct]
    by_cases here : home r = a
    · subst here
      simp [fresh]
    · have absent : (f a).count r = 0 := List.count_eq_zero.mpr fun member => here (own a r member)
      simp [here, absent]

/-- Sorted by where they belong, the members of a list are all there once. -/
theorem flatMap_filter_perm {ρ : Type*} [DecidableEq ρ] (home : ρ → α) {members : List α} (distinct : members.Nodup)
    {whole : List ρ} (inside : ∀ r ∈ whole, home r ∈ members) :
    (members.flatMap fun a => whole.filter (home · = a)).Perm whole := by
  refine List.perm_iff_count.mpr fun r => ?_
  have own : ∀ a, ∀ x ∈ whole.filter (home · = a), home x = a :=
    fun a x member => of_decide_eq_true (List.mem_filter.mp member).2
  rw [count_flatMap_home home _ own distinct]
  split
  · exact List.count_filter (decide_eq_true rfl)
  · next outside => exact (List.count_eq_zero_of_not_mem fun member => outside (inside r member)).symm

end Families

end FluxKV.Counting
