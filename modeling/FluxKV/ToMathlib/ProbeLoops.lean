import FluxKV.ToMathlib.LinearProbing

/-! # The loops of a probing table

A search, the walk to a free slot and the backward shift of a deletion are loops without a bound of their
own. A loop is its body, which gives the next state or leaves the loop. In a table with an empty slot each of
them leaves within one turn, with the result that the bounded versions compute.
-/

namespace FluxKV.LinearProbing

/-- The loop with this body goes `n` rounds from a state and leaves at another. -/
inductive Loop {σ : Type*} (body : σ → Option σ) : ℕ → σ → σ → Prop
  | leave {s : σ} (done : body s = none) : Loop body 0 s s
  | round {n : ℕ} {s mid t : σ} (on : body s = some mid) (rest : Loop body n mid t) : Loop body (n + 1) s t

namespace Table

variable {E : Type*}

/-- A round of a search from a slot. -/
def searchBody (t : Table E) (stop : UInt64 × E → Bool) (i : ℕ) : Option ℕ :=
  match t.slot i with
  | none => none
  | some s => if stop s then none else some (t.next i)

/-- A round of the walk to a free slot. -/
def freeBody (t : Table E) (i : ℕ) : Option ℕ := if (t.slot i).isNone then none else some (t.next i)

/-- A round of the backward shift, with the hole at `i` and the scan at `j`. -/
def shiftBody : Table E × ℕ × ℕ → Option (Table E × ℕ × ℕ)
  | (t, i, j) =>
    match t.slot j with
    | none => none
    | some s => some (if inRange i j (t.home s.1) then (t, i, t.next j) else (t.set i (some s), j, t.next j))

/-- Every loop of the table ends within one turn, and the bounded versions are right about where. -/
structure Bounded (t : Table E) : Prop where
  search : ∀ stop, ∀ i < t.cap, ∃ n < t.cap, ∃ p, Loop (t.searchBody stop) n i p ∧
    t.probe stop t.cap i = if (t.slot p).isSome then some p else none
  free : ∀ i < t.cap, ∃ n < t.cap, Loop t.freeBody n i (t.free t.cap i)
  shift : ∀ i < t.cap, t.slot i ≠ none → ∃ n < t.cap, ∃ t' i' j', Loop shiftBody n (t, i, t.next i) (t', i', j') ∧
    pull t.cap t i (t.next i) = t'.set i' none

variable {t : Table E} {z : ℕ}

/-- A search leaves at the empty slot at the latest. -/
theorem search_ends (stop : UInt64 × E → Bool) (last : z < t.cap) (vacant : t.slot z = none) :
    ∀ fuel i, i < t.cap → dist t.cap i z < fuel → ∃ n < fuel, ∃ p, Loop (t.searchBody stop) n i p ∧
      t.probe stop fuel i = if (t.slot p).isSome then some p else none := by
  intro fuel
  induction fuel with
  | zero =>
    intro i _ enough
    omega
  | succ fuel ih =>
    intro i inside enough
    cases here : t.slot i with
    | none => exact ⟨0, Nat.succ_pos _, i, .leave (by simp [searchBody, here]), by simp [probe, here]⟩
    | some s =>
      cases accepted : stop s with
      | true =>
        exact ⟨0, Nat.succ_pos _, i, .leave (by simp [searchBody, here, accepted]), by simp [probe, here, accepted]⟩
      | false =>
        have apart : z ≠ i := by
          rintro rfl
          cases vacant.symm.trans here
        have closer := t.dist_next_left inside last apart
        obtain ⟨n, bound, p, loop, result⟩ := ih (t.next i) (t.next_lt inside) (by omega)
        refine ⟨n + 1, by omega, p, .round (by simp [searchBody, here, accepted]) loop, ?_⟩
        rw [← result, probe, here]
        simp [accepted]

theorem free_ends (last : z < t.cap) (vacant : t.slot z = none) :
    ∀ fuel i, i < t.cap → dist t.cap i z < fuel → ∃ n < fuel, Loop t.freeBody n i (t.free fuel i) := by
  intro fuel
  induction fuel with
  | zero =>
    intro i _ enough
    omega
  | succ fuel ih =>
    intro i inside enough
    cases here : t.slot i with
    | none =>
      have stops : t.free (fuel + 1) i = i := by simp [free, here]
      rw [stops]
      exact ⟨0, Nat.succ_pos _, .leave (by simp [freeBody, here])⟩
    | some s =>
      have goes : t.free (fuel + 1) i = t.free fuel (t.next i) := by simp [free, here]
      have apart : z ≠ i := by
        rintro rfl
        cases vacant.symm.trans here
      have closer := t.dist_next_left inside last apart
      obtain ⟨n, bound, loop⟩ := ih (t.next i) (t.next_lt inside) (by omega)
      rw [goes]
      exact ⟨n + 1, by omega, .round (by simp [freeBody, here]) loop⟩

/-- The scan of a shift meets the empty slot, which no move fills: the hole is always somewhere else. -/
theorem shift_ends : ∀ fuel (t : Table E) (i j : ℕ), j < t.cap → z < t.cap → t.slot z = none → z ≠ i →
    dist t.cap j z < fuel → ∃ n < fuel, ∃ t' i' j', Loop shiftBody n (t, i, j) (t', i', j') ∧
      pull fuel t i j = t'.set i' none := by
  intro fuel
  induction fuel with
  | zero =>
    intro t i j _ _ _ _ enough
    omega
  | succ fuel ih =>
    intro t i j inside last vacant away enough
    cases here : t.slot j with
    | none => exact ⟨0, Nat.succ_pos _, t, i, j, .leave (by simp [shiftBody, here]), by simp [pull, here]⟩
    | some s =>
      have apart : z ≠ j := by
        rintro rfl
        cases vacant.symm.trans here
      have closer := t.dist_next_left inside last apart
      cases stays : inRange i j (t.home s.1) with
      | true =>
        obtain ⟨n, bound, t', i', j', loop, result⟩ := ih t i (t.next j) (t.next_lt inside) last vacant away (by omega)
        refine ⟨n + 1, by omega, t', i', j', .round (by simp [shiftBody, here, stays]) loop, ?_⟩
        simp only [pull, here, stays, if_true, result]
      | false =>
        have still : (t.set i (some s)).slot z = none := by rw [slot_set, if_neg away, vacant]
        obtain ⟨n, bound, t', i', j', loop, result⟩ :=
          ih (t.set i (some s)) j (t.next j) (t.next_lt inside) last still apart
            (by rw [cap_set]; omega)
        refine ⟨n + 1, by omega, t', i', j', .round (by simp [shiftBody, here, stays]) loop, ?_⟩
        simp only [pull, here, stays, Bool.false_eq_true, if_false, result]

/-- One empty slot bounds every loop. -/
theorem bounded_of_room (room : t.used < t.cap) : t.Bounded := by
  obtain ⟨z, last, vacant⟩ := exists_empty room
  constructor
  · intro stop i inside
    exact search_ends stop last vacant t.cap i inside (dist_lt inside last)
  · intro i inside
    exact free_ends last vacant t.cap i inside (dist_lt inside last)
  · intro i inside taken
    have away : z ≠ i := by
      rintro rfl
      exact taken vacant
    have next := t.next_lt inside
    exact shift_ends t.cap t i (t.next i) next last vacant away (dist_lt next last)

end Table

end FluxKV.LinearProbing
