import FluxKV.ToMathlib.Counting
import Mathlib.Data.Finset.Card
import Mathlib.Logic.Function.Basic

/-! # The contract of a write-through cache

A cache is a partial map from keys to a document and a count of writes that still hold it. A put
replaces the document and adds a pin, an unpin releases one, a fill never replaces, and on its own
the cache may only drop entries no write holds. The operations are local: each alters one key and
leaves the rest to `Evicts`.
-/

namespace FluxKV.Cache

open Counting

/-- A cached document with the number of writes that pin it. -/
structure Pinned (D : Type*) where
  doc : D
  pending : ℕ
deriving DecidableEq, Repr

abbrev Contents (K D : Type*) := K → Option (Pinned D)

namespace Contents

variable {K D : Type*}

/-- The pins on a key, none if it is absent. -/
def pending (c : Contents K D) (k : K) : ℕ := ((c k).map Pinned.pending).getD 0

theorem pending_eq_zero {c : Contents K D} {k : K} (absent : c k = none) : c.pending k = 0 := by
  simp [pending, absent]

theorem pending_of_eq {c : Contents K D} {k : K} {p : Pinned D} (held : c k = some p) :
    c.pending k = p.pending := by
  simp [pending, held]

/-- A pinned key is resident. -/
theorem exists_of_pending_pos {c : Contents K D} {k : K} (pinned : 0 < c.pending k) :
    ∃ p, c k = some p ∧ p.pending = c.pending k := by
  cases held : c k with
  | none => rw [pending_eq_zero held] at pinned; omega
  | some p => exact ⟨p, rfl, (pending_of_eq held).symm⟩

/-- The cache dropped entries of its own accord, none of them pinned. -/
def Evicts (before after : Contents K D) : Prop :=
  ∀ k, after k = before k ∨ after k = none ∧ before.pending k = 0

theorem Evicts.of_eq {before after : Contents K D} (same : after = before) : Evicts before after :=
  fun _ => .inl (congrFun same _)

theorem Evicts.refl (c : Contents K D) : Evicts c c := .of_eq rfl

theorem Evicts.pending {before after : Contents K D} (evicts : Evicts before after) (k : K) :
    after.pending k = before.pending k := by
  rcases evicts k with same | ⟨gone, unpinned⟩
  · simp only [Contents.pending, same]
  · rw [unpinned, pending_eq_zero gone]

theorem Evicts.trans {first second third : Contents K D} (left : Evicts first second)
    (right : Evicts second third) : Evicts first third := by
  intro k
  rcases right k with same | ⟨gone, unpinned⟩
  · rcases left k with same' | ⟨gone', unpinned'⟩
    · exact .inl (same.trans same')
    · exact .inr ⟨same.trans gone', unpinned'⟩
  · exact .inr ⟨gone, by rwa [← left.pending k]⟩

/-- What is held after an eviction was held before. -/
theorem Evicts.held {before after : Contents K D} (evicts : Evicts before after) {k : K} {p : Pinned D}
    (held : after k = some p) : before k = some p := by
  rcases evicts k with same | ⟨gone, _⟩
  · exact same.symm.trans held
  · cases gone.symm.trans held

/-- `count` is the number of pinned keys. -/
def CountsPinned (c : Contents K D) (count : ℕ) : Prop :=
  ∃ keys : Finset K, (∀ k, k ∈ keys ↔ 0 < c.pending k) ∧ count = keys.card

theorem CountsPinned.congr {c c' : Contents K D} {count : ℕ} (counted : CountsPinned c count)
    (same : ∀ k, c'.pending k = c.pending k) : CountsPinned c' count := by
  obtain ⟨keys, member, card⟩ := counted
  exact ⟨keys, fun k => by rw [same, member], card⟩

theorem CountsPinned.eq_zero {c : Contents K D} {count : ℕ} (counted : CountsPinned c count)
    (unpinned : ∀ k, c.pending k = 0) : count = 0 := by
  obtain ⟨keys, member, rfl⟩ := counted
  rw [Finset.card_eq_zero, Finset.eq_empty_iff_forall_notMem]
  intro k present
  have := (member k).mp present
  rw [unpinned k] at this
  omega

theorem CountsPinned.pos {c : Contents K D} {count : ℕ} {k : K} (counted : CountsPinned c count)
    (held : 0 < c.pending k) : 0 < count := by
  obtain ⟨keys, member, rfl⟩ := counted
  exact Finset.card_pos.mpr ⟨k, (member k).mpr held⟩

variable [DecidableEq K]

/-- Change what is held for one key. -/
def alter (c : Contents K D) (k : K) (change : Option (Pinned D) → Option (Pinned D)) : Contents K D :=
  Function.update c k (change (c k))

/-- The write-through path: a new document, and one pin more than the old one carried, in 32 bits. -/
def put (c : Contents K D) (k : K) (doc : D) : Contents K D :=
  c.alter k fun old => some ⟨doc, fetchAdd 32 ((old.map Pinned.pending).getD 0) 1⟩

/-- The writer's acknowledgement of one put. -/
def unpin (c : Contents K D) (k : K) (note : D → D) : Contents K D :=
  c.alter k (Option.map fun p => ⟨note p.doc, fetchSub 32 p.pending 1⟩)

def erase (c : Contents K D) (k : K) : Contents K D := c.alter k fun _ => none

/-- The read-miss path: an unpinned entry, unless the key is present. -/
def fill (c : Contents K D) (k : K) (doc : D) : Contents K D :=
  c.alter k fun old => old.or (some ⟨doc, 0⟩)

@[simp] theorem alter_self (c : Contents K D) (k : K) (change : Option (Pinned D) → Option (Pinned D)) :
    c.alter k change k = change (c k) := by
  simp [alter]

theorem alter_of_ne (c : Contents K D) {k k' : K} (change : Option (Pinned D) → Option (Pinned D))
    (other : k' ≠ k) : c.alter k change k' = c k' := by
  simp [alter, other]

theorem alter_id (c : Contents K D) (k : K) : c.alter k id = c := by
  simp [alter]

theorem pending_alter_of_ne (c : Contents K D) {k k' : K} (change : Option (Pinned D) → Option (Pinned D))
    (other : k' ≠ k) : (c.alter k change).pending k' = c.pending k' := by
  simp only [pending, alter_of_ne c change other]

theorem pending_put_self (c : Contents K D) (k : K) (doc : D) :
    (c.put k doc).pending k = fetchAdd 32 (c.pending k) 1 := by
  simp [pending, put]

theorem pending_unpin_self {c : Contents K D} {k : K} (note : D → D) (pinned : 0 < c.pending k) :
    (c.unpin k note).pending k = c.pending k - 1 := by
  obtain ⟨p, held, same⟩ := exists_of_pending_pos pinned
  simp [pending, unpin, held, fetchSub_of_le (show 1 ≤ p.pending by omega)]

theorem pending_erase_self (c : Contents K D) (k : K) : (c.erase k).pending k = 0 := by
  simp [pending, erase]

theorem pending_fill (c : Contents K D) (k k' : K) (doc : D) : (c.fill k doc).pending k' = c.pending k' := by
  by_cases same : k' = k
  · subst same
    cases held : c k' <;> simp [pending, fill, held]
  · exact pending_alter_of_ne c _ same

/-- A key that takes its first pin is one more pinned key. -/
theorem CountsPinned.pinned {c c' : Contents K D} {count : ℕ} {k : K} (counted : CountsPinned c count)
    (others : ∀ k', k' ≠ k → c'.pending k' = c.pending k') (after : 0 < c'.pending k) :
    CountsPinned c' (if c.pending k = 0 then count + 1 else count) := by
  obtain ⟨keys, member, rfl⟩ := counted
  have members : ∀ k', k' ∈ insert k keys ↔ 0 < c'.pending k' := by
    intro k'
    by_cases same : k' = k
    · subst same
      simp [after]
    · simp [same, others k' same, member]
  refine ⟨insert k keys, members, ?_⟩
  split
  · next fresh =>
    rw [Finset.card_insert_of_notMem (by rw [member]; omega)]
  · next old =>
    rw [Finset.insert_eq_of_mem ((member k).mpr (by omega))]

/-- A key that loses its last pin is one pinned key fewer. -/
theorem CountsPinned.unpinned {c c' : Contents K D} {count : ℕ} {k : K} (counted : CountsPinned c count)
    (others : ∀ k', k' ≠ k → c'.pending k' = c.pending k') (after : c'.pending k = 0) :
    CountsPinned c' (if 0 < c.pending k then count - 1 else count) := by
  obtain ⟨keys, member, rfl⟩ := counted
  have members : ∀ k', k' ∈ keys.erase k ↔ 0 < c'.pending k' := by
    intro k'
    by_cases same : k' = k
    · subst same
      simp [after]
    · simp [same, others k' same, member]
  refine ⟨keys.erase k, members, ?_⟩
  split
  · next held => rw [Finset.card_erase_of_mem ((member k).mpr held)]
  · next free => rw [Finset.erase_eq_of_notMem (by rw [member]; exact free)]

end Contents

end FluxKV.Cache
