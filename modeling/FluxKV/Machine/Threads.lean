import Mathlib.Data.List.Basic
import Mathlib.Data.List.GetD
import Mathlib.Data.List.Perm.Basic

/-! # Threads as stacks of operations

A thread's state is the stack of operations it has still to do, top first. An operation that calls a
function leaves the function's operations above what is left of the caller. What all threads have to do is
one list up to order, so a step replaces one operation of it by those it leaves. A recursive mutex counts how
often its owner has locked it, which is the number of operations on the owner's stack that are inside a
locked section.
-/

namespace FluxKV.Machine

variable {α : Type*}

/-- The stack of a thread. A thread that was never started has nothing to do. -/
def stackAt (calls : List (List α)) (i : ℕ) : List α := calls.getD i []

section Stacks

variable {calls : List (List α)} {i j : ℕ} {x : α} {rest new st : List α}

theorem lt_length_of_stackAt (top : stackAt calls i = x :: rest) : i < calls.length := by
  by_contra outside
  rw [stackAt, List.getD_eq_default _ _ (Nat.le_of_not_lt outside)] at top
  cases top

theorem stackAt_set_self (inside : i < calls.length) : stackAt (calls.set i st) i = st := by
  simp [stackAt, inside]

theorem stackAt_set_of_ne (apart : i ≠ j) : stackAt (calls.set i st) j = stackAt calls j := by
  simp [stackAt, List.getElem?_set_ne apart]

theorem stackAt_append_self : stackAt (calls ++ [st]) calls.length = st := by
  simp [stackAt]

theorem stackAt_append_of_ne (apart : i ≠ calls.length) : stackAt (calls ++ [st]) i = stackAt calls i := by
  rcases Nat.lt_or_gt_of_ne apart with inside | outside
  · simp [stackAt, List.getElem?_append_left inside]
  · have after : (calls ++ [st]).length ≤ i := by simpa using Nat.succ_le_of_lt outside
    simp only [stackAt, List.getD_eq_default _ _ after, List.getD_eq_default _ _ (Nat.le_of_lt outside)]

theorem mem_flatten_of_mem_stackAt (member : x ∈ stackAt calls i) : x ∈ calls.flatten := by
  have inside : i < calls.length := by
    by_contra outside
    rw [stackAt, List.getD_eq_default _ _ (Nat.le_of_not_lt outside)] at member
    cases member
  rw [stackAt, List.getD_eq_getElem _ _ inside] at member
  exact List.mem_flatten_of_mem (List.getElem_mem inside) member

theorem mem_stackAt (top : stackAt calls i = x :: rest) : x ∈ stackAt calls i := by
  rw [top]
  exact List.mem_cons_self

theorem mem_flatten_of_stackAt (top : stackAt calls i = x :: rest) : x ∈ calls.flatten :=
  mem_flatten_of_mem_stackAt (mem_stackAt top)

theorem exists_stackAt_of_mem_flatten (member : x ∈ calls.flatten) : ∃ i, x ∈ stackAt calls i := by
  obtain ⟨st, here, inside⟩ := List.mem_flatten.mp member
  obtain ⟨i, short, rfl⟩ := List.getElem_of_mem here
  exact ⟨i, by rwa [stackAt, List.getD_eq_getElem _ _ short]⟩

/-- What a thread has on top of the rest of its stack comes to the front of what all have to do. -/
theorem flatten_set_perm (inside : i < calls.length) :
    (calls.set i (new ++ rest)).flatten.Perm (new ++ (calls.set i rest).flatten) := by
  induction calls generalizing i with
  | nil => cases inside
  | cons st calls ih =>
    cases i with
    | zero => simp [List.append_assoc]
    | succ i =>
      simp only [List.set_cons_succ, List.flatten_cons]
      have later := (ih (Nat.lt_of_succ_lt_succ inside)).append_left st
      refine later.trans ?_
      rw [← List.append_assoc, ← List.append_assoc]
      exact List.perm_append_comm.append_right _

theorem set_stackAt (inside : i < calls.length) (same : stackAt calls i = st) : calls.set i st = calls := by
  rw [stackAt, List.getD_eq_getElem _ _ inside] at same
  rw [← same, List.set_getElem_self]

theorem flatten_perm_of_stackAt (top : stackAt calls i = x :: rest) :
    calls.flatten.Perm (x :: (calls.set i rest).flatten) := by
  have inside := lt_length_of_stackAt top
  have here : (calls.set i ([x] ++ rest)).flatten.Perm _ := flatten_set_perm inside
  rwa [List.singleton_append, set_stackAt inside top] at here

end Stacks

/-- A recursive mutex: free, or locked by a thread once and some more times. -/
inductive Mutex where
  | free
  | held (owner more : ℕ)
deriving DecidableEq, Repr

namespace Mutex

/-- Whether a thread can lock the mutex now. -/
def available : Mutex → ℕ → Bool
  | free, _ => true
  | held owner _, i => i = owner

def acquire (i : ℕ) : Mutex → Mutex
  | free => held i 0
  | held owner more => held owner (more + 1)

def release : Mutex → Mutex
  | free => free
  | held _ 0 => free
  | held owner (more + 1) => held owner more

/-- How often a thread has locked the mutex. -/
def level : Mutex → ℕ → ℕ
  | free, _ => 0
  | held owner more, i => if i = owner then more + 1 else 0

variable {m : Mutex} {i j : ℕ}

theorem level_acquire (able : m.available i = true) (j : ℕ) :
    (m.acquire i).level j = m.level j + if j = i then 1 else 0 := by
  cases m with
  | free => simp [acquire, level]
  | held owner more =>
    obtain rfl : i = owner := by simpa [available] using able
    simp only [acquire, level]
    split <;> rfl

theorem level_release (locked : 0 < m.level i) (j : ℕ) : m.release.level j + (if j = i then 1 else 0) = m.level j := by
  cases m with
  | free => cases locked
  | held owner more =>
    have mine : i = owner := by
      by_contra other
      simp [level, other] at locked
    subst mine
    cases more with
    | zero => simp [release, level]
    | succ more =>
      simp only [release, level]
      split <;> rfl

theorem eq_of_level_pos (first : 0 < m.level i) (second : 0 < m.level j) : i = j := by
  cases m with
  | free => cases first
  | held owner more =>
    simp only [level] at first second
    split at first
    · next same =>
      split at second
      · next also => rw [same, also]
      · cases second
    · cases first

end Mutex

/-- Each thread is inside as many locked sections as it has locked the mutex. -/
def Guarded (holding : α → Bool) (m : Mutex) (calls : List (List α)) : Prop :=
  ∀ i, (stackAt calls i).countP holding = m.level i

namespace Guarded

variable {holding : α → Bool} {m : Mutex} {calls : List (List α)} {i j : ℕ} {x y : α} {new rest st : List α}

theorem level_pos (guarded : Guarded holding m calls) (member : x ∈ stackAt calls i) (locked : holding x = true) :
    0 < m.level i := by
  rw [← guarded i]
  exact List.countP_pos_iff.mpr ⟨x, member, locked⟩

/-- Two operations inside locked sections are of one thread. -/
theorem eq_of_holding (guarded : Guarded holding m calls) (first : x ∈ stackAt calls i) (locked : holding x = true)
    (second : y ∈ stackAt calls j) (also : holding y = true) : i = j :=
  Mutex.eq_of_level_pos (guarded.level_pos first locked) (guarded.level_pos second also)

/-- A thread that replaces the top of its stack, with the mutex after it. -/
theorem replace {m' : Mutex} (guarded : Guarded holding m calls) (top : stackAt calls i = x :: rest)
    (here : new.countP holding + rest.countP holding = m'.level i) (elsewhere : ∀ j, j ≠ i → m'.level j = m.level j) :
    Guarded holding m' (calls.set i (new ++ rest)) := by
  intro j
  rcases eq_or_ne i j with rfl | apart
  · rw [stackAt_set_self (lt_length_of_stackAt top), List.countP_append]
    exact here
  · rw [stackAt_set_of_ne apart, guarded j, elsewhere j apart.symm]

theorem keep (guarded : Guarded holding m calls) (top : stackAt calls i = x :: rest)
    (same : new.countP holding = [x].countP holding) : Guarded holding m (calls.set i (new ++ rest)) := by
  refine guarded.replace top ?_ fun _ _ => rfl
  have here := guarded i
  rw [top, ← List.singleton_append, List.countP_append] at here
  rw [same, here]

theorem acquire (guarded : Guarded holding m calls) (top : stackAt calls i = x :: rest)
    (able : m.available i = true) (more : new.countP holding = [x].countP holding + 1) :
    Guarded holding (m.acquire i) (calls.set i (new ++ rest)) := by
  refine guarded.replace top ?_ fun j apart => ?_
  · have here := guarded i
    rw [top, ← List.singleton_append, List.countP_append] at here
    rw [more, Mutex.level_acquire able, if_pos rfl]
    omega
  · rw [Mutex.level_acquire able, if_neg apart, Nat.add_zero]

theorem release (guarded : Guarded holding m calls) (top : stackAt calls i = x :: rest)
    (fewer : new.countP holding + 1 = [x].countP holding) :
    Guarded holding m.release (calls.set i (new ++ rest)) := by
  have here := guarded i
  rw [top, ← List.singleton_append, List.countP_append] at here
  have locked : 0 < m.level i := by omega
  refine guarded.replace top ?_ fun j apart => ?_
  · have lower := Mutex.level_release locked i
    rw [if_pos rfl] at lower
    omega
  · have same := Mutex.level_release locked j
    rwa [if_neg apart, Nat.add_zero] at same

/-- Operations outside locked sections go on top of a stack. -/
theorem push (guarded : Guarded holding m calls) (inside : i < calls.length) (outside : new.countP holding = 0) :
    Guarded holding m (calls.set i (new ++ stackAt calls i)) := by
  intro j
  rcases eq_or_ne i j with rfl | apart
  · rw [stackAt_set_self inside, List.countP_append, outside, Nat.zero_add, guarded i]
  · rw [stackAt_set_of_ne apart, guarded j]

/-- A thread starts outside locked sections. -/
theorem start (guarded : Guarded holding m calls) (outside : st.countP holding = 0) :
    Guarded holding m (calls ++ [st]) := by
  intro i
  rcases eq_or_ne i calls.length with rfl | other
  · have absent := guarded calls.length
    rw [stackAt, List.getD_eq_default _ _ (Nat.le_refl _), List.countP_nil] at absent
    rw [stackAt_append_self, outside, absent]
  · rw [stackAt_append_of_ne other, guarded i]

end Guarded

end FluxKV.Machine
