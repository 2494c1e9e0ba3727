import FluxKV.Cache.FlatIndex
import FluxKV.Machine.Run
import FluxKV.ToMathlib.ProbeLoops
import Mathlib.Algebra.GroupWithZero.Nat

/-! # The index and its retired tables

A table that the index has outgrown is kept until the index is cleared, for readers that prefetch without the
lock. The probe loops have no bound of their own. They end because the live table is never more than seven
tenths full, whatever is inserted, erased or asked for, also where an entry is inserted twice or erased under
a hash it does not have.
-/

namespace FluxKV.Cache

open LinearProbing Machine

/-- `FlatIndex` with the tables of `tables_` that are not live any more. -/
structure FlatTables (P : Type*) where
  index : FlatIndex P
  retired : List (Table P)

/-- The calls of the index. -/
inductive IndexCall (P : Type*) where
  | insert (h : UInt64) (e : P)
  | erase (h : UInt64) (e : P)
  | clear
  | find (h : UInt64) (eq : P → Bool)

namespace FlatTables

variable {P : Type*}

def start : FlatTables P := ⟨.empty, []⟩

/-- What an insertion retires: the live table, if it has no room for one more. -/
def outgrown (x : FlatIndex P) : List (Table P) :=
  match x.table with
  | none => []
  | some t => if t.cap * 7 < (x.count + 1) * 10 then [t] else []

def next [DecidableEq P] (x : FlatTables P) : IndexCall P → FlatTables P
  | .insert h e => ⟨x.index.insert h e, x.retired ++ outgrown x.index⟩
  | .erase h e => { x with index := x.index.erase h e }
  | .clear => ⟨.empty, []⟩
  | .find _ _ => x

def step [DecidableEq P] (x : FlatTables P) (call : IndexCall P) : Option (FlatTables P) := some (x.next call)

/-- The slots of the retired tables. -/
def retiredSlots (x : FlatTables P) : ℕ := (x.retired.map Table.cap).sum

/-- The live table has room, and the retired ones are smaller by the size of the first one. -/
structure Spacious (x : FlatTables P) : Prop where
  unused : x.index.table = none → x.index.count = 0 ∧ x.retired = []
  table : ∀ t, x.index.table = some t → t.used = x.index.count ∧ x.index.count * 10 ≤ t.cap * 7 ∧
    x.retiredSlots + 1024 ≤ t.cap

theorem Spacious.start : (start : FlatTables P).Spacious := ⟨fun _ => ⟨rfl, rfl⟩, fun t held => by cases held⟩

private theorem used_empty (bits : ℕ) : (Table.empty bits : Table P).used = 0 := by simp [Table.used, Table.empty]

private theorem cap_empty_succ (t : Table P) : (Table.empty (t.bits + 1) : Table P).cap = t.cap * 2 := Nat.pow_succ ..

/-- Each table on the way from the old one to one of twice the size has room. -/
theorem used_growing (t : Table P) {k : ℕ} (within : k ≤ t.cap) :
    ((Table.empty (t.bits + 1)).placeAll t k).cap = t.cap * 2 ∧ ((Table.empty (t.bits + 1)).placeAll t k).used ≤ k := by
  have double := cap_empty_succ t
  obtain ⟨cap, used⟩ := Table.used_placeAll (used_empty (t.bits + 1)) (by omega) k within
  refine ⟨cap.trans double, ?_⟩
  rw [used]
  exact (Finset.card_filter_le ..).trans (Finset.card_range k).le

theorem used_grow (t : Table P) : (FlatIndex.grow (some t)).cap = t.cap * 2 ∧ (FlatIndex.grow (some t)).used = t.used := by
  have double := cap_empty_succ t
  obtain ⟨cap, used⟩ := Table.used_placeAll (used_empty (t.bits + 1)) (by omega) t.cap le_rfl
  exact ⟨cap.trans double, used⟩

/-- The table an insertion goes to, with what is retired for it. -/
theorem Spacious.roomy {x : FlatTables P} (spacious : x.Spacious) :
    x.index.roomy.used = x.index.count ∧ (x.index.count + 1) * 10 ≤ x.index.roomy.cap * 7 ∧
      ((x.retired ++ outgrown x.index).map Table.cap).sum + 1024 ≤ x.index.roomy.cap := by
  have retired : x.retiredSlots = (x.retired.map Table.cap).sum := rfl
  unfold FlatIndex.roomy outgrown
  rw [List.map_append, List.sum_append]
  cases held : x.index.table with
  | none =>
    obtain ⟨count, none⟩ := spacious.unused held
    have cap : (FlatIndex.grow Option.none : Table P).cap = 1024 := rfl
    dsimp only
    refine ⟨(used_empty 10).trans count.symm, by omega, ?_⟩
    rw [none, cap]
    rfl
  | some t =>
    obtain ⟨used, load, slots⟩ := spacious.table t held
    dsimp only
    split
    · next full =>
      obtain ⟨cap, same⟩ := used_grow t
      rw [List.map_singleton, List.sum_singleton, cap, same]
      exact ⟨used, by omega, by omega⟩
    · next room =>
      rw [List.map_nil, List.sum_nil]
      exact ⟨used, by omega, by omega⟩

variable [DecidableEq P]

theorem Spacious.insert {x : FlatTables P} (spacious : x.Spacious) (h : UInt64) (e : P) :
    (x.next (.insert h e)).Spacious := by
  obtain ⟨used, load, slots⟩ := spacious.roomy
  refine ⟨by rintro ⟨⟩, ?_⟩
  rintro t held
  cases held
  have more : (x.index.roomy.place h e).used = x.index.roomy.used + 1 := Table.used_place (by omega) h e
  exact ⟨by rw [more, used]; rfl, load, slots⟩

theorem Spacious.erase {x : FlatTables P} (spacious : x.Spacious) (h : UInt64) (e : P) :
    (x.next (.erase h e)).Spacious := by
  unfold FlatTables.next FlatIndex.erase
  dsimp only
  cases held : x.index.table with
  | none => exact spacious
  | some t =>
    dsimp only
    cases erased : t.erase h e with
    | none => exact spacious
    | some t' =>
      obtain ⟨used, load, slots⟩ := spacious.table t held
      obtain ⟨cap, less⟩ := Table.used_erase erased
      refine ⟨by rintro ⟨⟩, ?_⟩
      rintro t'' same
      cases same
      dsimp only
      exact ⟨by omega, by omega, cap ▸ slots⟩

theorem Spacious.next {x : FlatTables P} (spacious : x.Spacious) (call : IndexCall P) : (x.next call).Spacious := by
  cases call with
  | insert h e => exact spacious.insert h e
  | erase h e => exact spacious.erase h e
  | clear => exact .start
  | find h eq => exact spacious

/-- After any calls the live table is at most seven tenths full, so that every loop of a search, of an erasure
and of a placement, also of those that growing makes, ends within one turn of its table; and the retired
tables together have fewer slots than the live one. -/
theorem index_has_room {x : FlatTables P} (reached : Reach step start x) :
    (∀ t, x.index.table = some t → x.index.count * 10 ≤ t.cap * 7 ∧ (∃ bits, t.cap = 2 ^ bits) ∧ 1024 ≤ t.cap ∧
        x.index.count = t.used ∧ (∃ z < t.cap, t.slot z = none) ∧ t.Bounded ∧
        (∀ k < t.cap, ((Table.empty (t.bits + 1)).placeAll t k).Bounded) ∧ x.retiredSlots < t.cap) ∧
      x.index.roomy.Bounded := by
  have spacious : x.Spacious := by
    refine Reach.invariant (P := Spacious) .start (fun before taken => ?_) reached
    cases taken
    exact before.next _
  constructor
  · intro t held
    obtain ⟨used, load, slots⟩ := spacious.table t held
    have room : t.used < t.cap := by omega
    refine ⟨load, ⟨t.bits, rfl⟩, by omega, used.symm, Table.exists_empty room, Table.bounded_of_room room, ?_, by omega⟩
    intro k below
    obtain ⟨cap, few⟩ := used_growing t below.le
    exact Table.bounded_of_room (by omega)
  · obtain ⟨used, load, _⟩ := spacious.roomy
    exact Table.bounded_of_room (by omega)

/-- An entry inserted twice under two hashes, erased under a third one, and a cleared index that is used again. -/
theorem index_has_room_misused : ∃ x : FlatTables ℕ, x.index.count = 1 ∧ x.index.roomy.Bounded := by
  obtain ⟨x, reached, count⟩ : ∃ x, Reach step (start : FlatTables ℕ) x ∧ x.index.count = 1 :=
    exists_reach [.insert 5 1, .insert 6 1, .erase 7 1, .find 5 (· == 1), .clear, .insert 3 2, .insert 3 4, .erase 3 2]
      (by decide +kernel)
  exact ⟨x, count, (index_has_room reached).2⟩

end FlatTables

end FluxKV.Cache
