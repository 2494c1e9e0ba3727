import FluxKV.Cache.FlatIndex

/-! # The index as a finite map

Entries carry their keys, and the index stores only their hashes. Used as its caller must use it, the
index is a map from keys to entries, however the hashes fall: an insertion is of an entry and a key
that are not there, and an erasure names the hash an entry was inserted under, or an entry that is
not there at all.
-/

namespace FluxKV.Cache

open LinearProbing

/-- The calls that change the index. -/
inductive IndexOp (K P : Type*) where
  | insert (key : K) (e : P)
  | erase (h : UInt64) (e : P)
deriving DecidableEq, Repr

namespace IndexOp

variable {K P : Type*} [DecidableEq K] [DecidableEq P]

/-- What a call does to the map it stands for. -/
def alter (m : K → Option P) : IndexOp K P → K → Option P
  | insert key e => Function.update m key (some e)
  | erase _ e => fun key => if m key = some e then none else m key

/-- What the caller guarantees. -/
def Legal (hash : K → UInt64) (m : K → Option P) : IndexOp K P → Prop
  | insert key e => m key = none ∧ ∀ other, m other ≠ some e
  | erase h e => ∀ key, m key = some e → hash key = h

/-- The map after some calls. -/
def contents (m : K → Option P) (ops : List (IndexOp K P)) : K → Option P := ops.foldl alter m

/-- Every call keeps its guarantee. -/
def LegalFrom (hash : K → UInt64) : (K → Option P) → List (IndexOp K P) → Prop
  | _, [] => True
  | m, op :: rest => op.Legal hash m ∧ LegalFrom hash (op.alter m) rest

end IndexOp

/-- The index beside the keys of the entries in memory. -/
structure KeyedIndex (K P : Type*) where
  index : FlatIndex P
  key : P → K

namespace KeyedIndex

variable {K P : Type*} (hash : K → UInt64)

def find [DecidableEq K] (s : KeyedIndex K P) (key : K) : Option P := s.index.find (hash key) fun e => s.key e = key

def apply [DecidableEq P] (s : KeyedIndex K P) : IndexOp K P → KeyedIndex K P
  | .insert key e => ⟨s.index.insert (hash key) e, Function.update s.key e key⟩
  | .erase h e => { s with index := s.index.erase h e }

def run [DecidableEq P] (s : KeyedIndex K P) (ops : List (IndexOp K P)) : KeyedIndex K P := ops.foldl (apply hash) s

/-- The index holds the entries of the map, each under the hash of its key. -/
structure Holds (s : KeyedIndex K P) (m : K → Option P) : Prop where
  sound : s.index.Sound
  members : ∀ h e, s.index.Mem h e ↔ m (s.key e) = some e ∧ hash (s.key e) = h
  keyed : ∀ key e, m key = some e → s.key e = key

variable {hash} {s : KeyedIndex K P} {m : K → Option P}

theorem Holds.empty (key : P → K) : Holds hash ⟨.empty, key⟩ fun _ => none :=
  ⟨.empty, fun h e => by simp [FlatIndex.not_mem_empty], by rintro _ _ ⟨⟩⟩

theorem Holds.not_mem (holds : Holds hash s m) {e : P} (absent : ∀ key, m key ≠ some e) (h : UInt64) :
    ¬ s.index.Mem h e := fun member => absent _ ((holds.members h e).mp member).1

theorem Holds.find_eq [DecidableEq K] (holds : Holds hash s m) (key : K) : s.find hash key = m key := by
  have found : ∀ e, s.find hash key = some e ↔ m key = some e := by
    intro e
    have unique : ∀ e₁ e₂, s.index.Mem (hash key) e₁ → s.index.Mem (hash key) e₂ →
        decide (s.key e₁ = key) = true → decide (s.key e₂ = key) = true → e₁ = e₂ := by
      intro e₁ e₂ first second here there
      have held₁ := ((holds.members _ _).mp first).1
      have held₂ := ((holds.members _ _).mp second).1
      rw [of_decide_eq_true here] at held₁
      rw [of_decide_eq_true there] at held₂
      exact Option.some_inj.mp (held₁.symm.trans held₂)
    rw [find, holds.sound.find_eq_some unique, holds.members, decide_eq_true_eq]
    constructor
    · rintro ⟨⟨held, _⟩, rfl⟩
      exact held
    · intro held
      obtain rfl := holds.keyed key e held
      exact ⟨⟨held, rfl⟩, rfl⟩
  exact Option.ext found

variable [DecidableEq P]

theorem Holds.erase (holds : Holds hash s m) {h : UInt64} {e : P} (known : ∀ key, m key = some e → hash key = h) :
    Holds hash (s.apply hash (.erase h e)) fun key => if m key = some e then none else m key := by
  rcases em (∃ key, m key = some e) with ⟨key, held⟩ | absent
  · have member : s.index.Mem h e := by
      rw [holds.members, holds.keyed key e held]
      exact ⟨held, known key held⟩
    obtain ⟨sound, members⟩ := holds.sound.erase member
    refine ⟨sound, fun h' e' => ?_, fun key' e' kept => ?_⟩
    · change (s.index.erase h e).Mem h' e' ↔ (if m (s.key e') = some e then none else m (s.key e')) = some e' ∧ _
      rw [members, holds.members]
      split
      · next gone =>
        constructor
        · rintro ⟨⟨kept, _⟩, other⟩
          exact (other (Option.some_inj.mp (kept.symm.trans gone))).elim
        · rintro ⟨⟨⟩, _⟩
      · next there =>
        constructor
        · exact fun kept => kept.1
        · rintro ⟨kept, under⟩
          refine ⟨⟨kept, under⟩, ?_⟩
          rintro rfl
          exact there kept
    · split at kept
      · cases kept
      · exact holds.keyed key' e' kept
  · have gone : ∀ key, m key ≠ some e := fun key held => absent ⟨key, held⟩
    simp only [gone, if_false]
    have same := FlatIndex.erase_of_not_mem h (holds.not_mem gone)
    exact ⟨by rw [apply, same]; exact holds.sound, by rw [apply, same]; exact holds.members, holds.keyed⟩

variable [DecidableEq K]

theorem Holds.insert (holds : Holds hash s m) {key : K} {e : P} (absent : m key = none)
    (fresh : ∀ other, m other ≠ some e) :
    Holds hash (s.apply hash (.insert key e)) (Function.update m key (some e)) := by
  obtain ⟨sound, members⟩ := holds.sound.insert (hash key) (holds.not_mem fresh)
  refine ⟨sound, fun h e' => ?_, fun key' e' held => ?_⟩
  · change (s.index.insert (hash key) e).Mem h e' ↔
      Function.update m key (some e) (Function.update s.key e key e') = some e' ∧
        hash (Function.update s.key e key e') = h
    rw [members, holds.members]
    rcases eq_or_ne e' e with rfl | other
    · simp [fresh, eq_comm]
    · rw [Function.update_of_ne other]
      rcases eq_or_ne (s.key e') key with same | apart
      · simp [same, absent, other, Ne.symm other]
      · simp [Function.update_of_ne apart, other]
  · change Function.update s.key e key e' = key'
    rcases eq_or_ne key' key with rfl | apart
    · rw [Function.update_self] at held
      rw [← Option.some_inj.mp held, Function.update_self]
    · rw [Function.update_of_ne apart] at held
      have other : e' ≠ e := by
        rintro rfl
        exact fresh key' held
      rw [Function.update_of_ne other]
      exact holds.keyed key' e' held

theorem Holds.run {ops : List (IndexOp K P)} : ∀ {s : KeyedIndex K P} {m : K → Option P}, Holds hash s m →
    IndexOp.LegalFrom hash m ops → Holds hash (s.run hash ops) (IndexOp.contents m ops) := by
  induction ops with
  | nil => exact fun holds _ => holds
  | cons op rest ih =>
    rintro s m holds ⟨legal, later⟩
    apply ih _ later
    cases op with
    | insert key e => exact holds.insert legal.1 legal.2
    | erase h e => exact holds.erase legal

/-- After any legal calls a search finds what was inserted for the key and not erased since, erasing an
entry that is not there changes nothing, and no probe meets an empty slot before the entry it is for.
One slot is always empty, so the loops of the code end. -/
theorem index_is_finite_map (key : P → K) (ops : List (IndexOp K P))
    (legal : IndexOp.LegalFrom hash (fun _ => none) ops) :
    let s := run hash ⟨.empty, key⟩ ops
    let m := IndexOp.contents (fun _ => none) ops
    (∀ k, s.find hash k = m k) ∧
      (∀ h e, (∀ k, m k ≠ some e) → s.index.erase h e = s.index) ∧
      ∀ t, s.index.table = some t → (∃ z < t.cap, t.slot z = none) ∧
        ∀ p < t.cap, ∀ h e, t.slot p = some (h, e) → ∀ q < t.cap,
          dist t.cap (t.home h) q < dist t.cap (t.home h) p → t.slot q ≠ none := by
  have holds := (Holds.empty key).run legal
  refine ⟨holds.find_eq, fun h e absent => FlatIndex.erase_of_not_mem h (holds.not_mem absent), fun t held => ?_⟩
  obtain ⟨sound, used, load, large⟩ := holds.sound.table t held
  exact ⟨Table.exists_empty (by omega), fun p last h e there => sound.reach p last (h, e) there⟩

/-- Three keys under the hash of the last slot: two of the entries lie past the end of the table. -/
theorem index_is_finite_map_wrapped :
    find (fun _ : ℕ => 1023) (run (fun _ : ℕ => 1023) ⟨.empty, id⟩
      [.insert 1 10, .insert 2 11, .insert 3 12, .erase 1023 10, .erase 7 10] : KeyedIndex ℕ ℕ) 3 = some 12 := by
  refine ((index_is_finite_map id _ ?_).1 3).trans rfl
  refine ⟨⟨rfl, by simp⟩, ⟨rfl, ?_⟩, ⟨rfl, ?_⟩, fun _ _ => rfl, ?_, trivial⟩
  all_goals intro k; simp [IndexOp.alter, Function.update_apply]
  all_goals split_ifs <;> simp_all

end KeyedIndex

end FluxKV.Cache
