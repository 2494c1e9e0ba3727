import Mathlib.Algebra.Group.Nat.Defs
import Mathlib.Data.Finset.Card
import Mathlib.Data.Finset.Range
import Mathlib.Logic.Function.Basic

/-! # Linear probing with backward-shift deletion

A table of `2 ^ bits` slots holds elements under their hashes. An element sits at the first slot that
was free from the home of its hash on, and a search stops at the first empty slot, so no empty slot
may lie between an element and its home. Deletion keeps this without tombstones: it pulls later
members of the cluster back into the hole. Loops that the code leaves unbounded run for one turn of
the table here, which is enough as long as one slot is empty.
-/

namespace FluxKV.LinearProbing

/-- The steps from slot `a` forward to slot `b`, around a table of `n` slots. -/
def dist (n a b : ℕ) : ℕ := if a ≤ b then b - a else b + n - a

structure Table (E : Type*) where
  bits : ℕ
  slot : ℕ → Option (UInt64 × E)

namespace Table

variable {E : Type*}

def cap (t : Table E) : ℕ := 2 ^ t.bits

def mask (t : Table E) : ℕ := t.cap - 1

def home (t : Table E) (h : UInt64) : ℕ := h.toNat &&& t.mask

def next (t : Table E) (i : ℕ) : ℕ := (i + 1) &&& t.mask

def empty (bits : ℕ) : Table E := ⟨bits, fun _ => none⟩

def set (t : Table E) (i : ℕ) (s : Option (UInt64 × E)) : Table E := { t with slot := Function.update t.slot i s }

/-- The first slot from `i` on whose content `stop` accepts, unless an empty slot comes before it. -/
def probe (t : Table E) (stop : UInt64 × E → Bool) : ℕ → ℕ → Option ℕ
  | 0, _ => none
  | fuel + 1, i =>
    match t.slot i with
    | none => none
    | some s => if stop s then some i else t.probe stop fuel (t.next i)

def find (t : Table E) (h : UInt64) (eq : E → Bool) : Option E :=
  (t.probe (fun s => s.1 == h && eq s.2) t.cap (t.home h)).bind fun i => (t.slot i).map Prod.snd

/-- The first empty slot from `i` on. -/
def free (t : Table E) : ℕ → ℕ → ℕ
  | 0, i => i
  | fuel + 1, i => if (t.slot i).isNone then i else t.free fuel (t.next i)

def place (t : Table E) (h : UInt64) (e : E) : Table E := t.set (t.free t.cap (t.home h)) (some (h, e))

/-- Place what another table holds, from its first `k` slots. -/
def placeAll (fresh old : Table E) : ℕ → Table E
  | 0 => fresh
  | k + 1 =>
    match old.slot k with
    | none => placeAll fresh old k
    | some s => (placeAll fresh old k).place s.1 s.2

/-- Whether the home of an element at `j` lies cyclically in `(i, j]`. -/
def inRange (i j home : ℕ) : Bool :=
  if i ≤ j then decide (i < home) && decide (home ≤ j) else decide (i < home) || decide (home ≤ j)

/-- Pull the cluster from `j` on back over the hole at `i`. -/
def pull : ℕ → Table E → ℕ → ℕ → Table E
  | 0, t, i, _ => t.set i none
  | fuel + 1, t, i, j =>
    match t.slot j with
    | none => t.set i none
    | some s =>
      if inRange i j (t.home s.1) then pull fuel t i (t.next j)
      else pull fuel (t.set i (some s)) j (t.next j)

/-- Take an element out, if a search from the home of its hash meets it. -/
def erase [DecidableEq E] (t : Table E) (h : UInt64) (e : E) : Option (Table E) :=
  (t.probe (fun s => s.2 = e) t.cap (t.home h)).map fun i => pull t.cap t i (t.next i)

theorem cap_pos (t : Table E) : 0 < t.cap := Nat.two_pow_pos t.bits

theorem home_lt (t : Table E) (h : UInt64) : t.home h < t.cap := by
  rw [home, mask, cap, Nat.and_two_pow_sub_one_eq_mod]
  exact Nat.mod_lt _ t.cap_pos

theorem next_eq (t : Table E) {i : ℕ} (inside : i < t.cap) :
    t.next i = if i + 1 < t.cap then i + 1 else 0 := by
  have shape : t.next i = (i + 1) % t.cap := by rw [next, mask, cap, Nat.and_two_pow_sub_one_eq_mod]
  rw [shape]
  split
  · next below => exact Nat.mod_eq_of_lt below
  · next last =>
    rw [show i + 1 = t.cap by omega]
    exact Nat.mod_self _

theorem next_lt (t : Table E) {i : ℕ} (inside : i < t.cap) : t.next i < t.cap := by
  rw [t.next_eq inside]
  split <;> omega

@[simp] theorem cap_set (t : Table E) (i : ℕ) (s : Option (UInt64 × E)) : (t.set i s).cap = t.cap := rfl

@[simp] theorem home_set (t : Table E) (i : ℕ) (s : Option (UInt64 × E)) (h : UInt64) :
    (t.set i s).home h = t.home h := rfl

theorem slot_set (t : Table E) (i p : ℕ) (s : Option (UInt64 × E)) :
    (t.set i s).slot p = if p = i then s else t.slot p := by
  simp only [set, Function.update_apply]

theorem dist_lt {n a b : ℕ} (left : a < n) (right : b < n) : dist n a b < n := by
  unfold dist
  split <;> omega

theorem dist_self (n a : ℕ) : dist n a a = 0 := by simp [dist]

theorem eq_of_dist_eq {n a i j : ℕ} (left : i < n) (right : j < n) (base : a < n)
    (same : dist n a i = dist n a j) : i = j := by
  unfold dist at same
  split_ifs at same <;> omega

theorem dist_next (t : Table E) {a i : ℕ} (base : a < t.cap) (inside : i < t.cap)
    (room : dist t.cap a i + 1 < t.cap) : dist t.cap a (t.next i) = dist t.cap a i + 1 := by
  rw [t.next_eq inside]
  unfold dist at room ⊢
  split_ifs at room ⊢ <;> omega

theorem dist_add {n a i p : ℕ} (base : a < n) (middle : i < n) (last : p < n)
    (before : dist n a i < dist n a p) : dist n a p = dist n a i + dist n i p := by
  unfold dist at before ⊢
  split_ifs at before ⊢ <;> omega

theorem dist_triangle {n a i p : ℕ} (base : a < n) (middle : i < n) :
    dist n a p ≤ dist n a i + dist n i p := by
  unfold dist
  split_ifs <;> omega

/-- The first of two slots comes first from `a` on, unless `a` lies behind it and not behind the second. -/
theorem dist_le_iff {n a i j : ℕ} (base : a < n) (left : i < n) (right : j < n) :
    dist n a i ≤ dist n a j ↔ ¬ (0 < dist n i a ∧ dist n i a ≤ dist n i j) := by
  unfold dist
  split_ifs <;> omega

/-- A step forward comes one closer to every other slot. -/
theorem dist_next_left (t : Table E) {i z : ℕ} (inside : i < t.cap) (last : z < t.cap) (apart : z ≠ i) :
    dist t.cap (t.next i) z + 1 = dist t.cap i z := by
  rw [t.next_eq inside]
  unfold dist
  split_ifs <;> omega

/-- What the table holds. -/
def Mem (t : Table E) (h : UInt64) (e : E) : Prop := ∃ p < t.cap, t.slot p = some (h, e)

/-- The number of slots in use. -/
def used (t : Table E) : ℕ := ((Finset.range t.cap).filter fun p => (t.slot p).isSome).card

/-- Searches succeed: no empty slot before an element, and no element twice. -/
structure Sound (t : Table E) : Prop where
  reach : ∀ p < t.cap, ∀ s, t.slot p = some s → ∀ q < t.cap,
    dist t.cap (t.home s.1) q < dist t.cap (t.home s.1) p → t.slot q ≠ none
  once : ∀ p < t.cap, ∀ q < t.cap, ∀ s s', t.slot p = some s → t.slot q = some s' → s.2 = s'.2 → p = q

theorem exists_empty {t : Table E} (room : t.used < t.cap) : ∃ z < t.cap, t.slot z = none := by
  by_contra full
  push Not at full
  have all : (Finset.range t.cap).filter (fun p => (t.slot p).isSome) = Finset.range t.cap := by
    apply Finset.filter_true_of_mem
    intro p member
    exact Option.isSome_iff_ne_none.mpr (full p (Finset.mem_range.mp member))
  rw [used, all, Finset.card_range] at room
  omega

theorem used_set_some {t : Table E} {i : ℕ} (inside : i < t.cap) (vacant : t.slot i = none) (s : UInt64 × E) :
    (t.set i (some s)).used = t.used + 1 := by
  have shape : (Finset.range t.cap).filter (fun p => ((t.set i (some s)).slot p).isSome) =
      insert i ((Finset.range t.cap).filter fun p => (t.slot p).isSome) := by
    ext p
    simp only [slot_set, Finset.mem_filter, Finset.mem_range, Finset.mem_insert]
    by_cases same : p = i
    · simp [same, inside]
    · simp [same]
  rw [used, cap_set, shape, Finset.card_insert_of_notMem (by simp [vacant]), used]

theorem used_set_of_some {t : Table E} {i : ℕ} (taken : t.slot i ≠ none) (s : UInt64 × E) :
    (t.set i (some s)).used = t.used := by
  rw [used, cap_set, used]
  congr 1
  apply Finset.filter_congr
  intro p _
  rw [slot_set]
  split
  · next same => simp [same, Option.isSome_iff_ne_none, taken]
  · rfl

theorem used_set_none {t : Table E} {i : ℕ} (inside : i < t.cap) (taken : t.slot i ≠ none) :
    (t.set i none).used + 1 = t.used := by
  have shape : (Finset.range t.cap).filter (fun p => ((t.set i none).slot p).isSome) =
      ((Finset.range t.cap).filter fun p => (t.slot p).isSome).erase i := by
    ext p
    simp only [slot_set, Finset.mem_filter, Finset.mem_range, Finset.mem_erase]
    by_cases same : p = i
    · simp [same]
    · simp [same]
  rw [used, cap_set, shape, used]
  apply Finset.card_erase_add_one
  simpa [Option.isSome_iff_ne_none] using ⟨inside, taken⟩

theorem probe_spec {t : Table E} {stop : UInt64 × E → Bool} {fuel i p : ℕ} (inside : i < t.cap)
    (found : t.probe stop fuel i = some p) : p < t.cap ∧ ∃ s, t.slot p = some s ∧ stop s = true := by
  induction fuel generalizing i with
  | zero => cases found
  | succ fuel ih =>
    unfold probe at found
    cases here : t.slot i with
    | none => simp [here] at found
    | some s =>
      simp only [here] at found
      split at found
      · next accepted =>
        cases found
        exact ⟨inside, s, here, accepted⟩
      · exact ih (t.next_lt inside) found

/-- A search from `a` that does not meet an empty slot before `p` stops at `p` or earlier. -/
theorem probe_isSome {t : Table E} {stop : UInt64 × E → Bool} {a p : ℕ} {s : UInt64 × E} (base : a < t.cap)
    (last : p < t.cap) (there : t.slot p = some s) (accepted : stop s = true)
    (path : ∀ q < t.cap, dist t.cap a q < dist t.cap a p → t.slot q ≠ none) :
    ∀ left i fuel, i < t.cap → dist t.cap a i + left = dist t.cap a p → left < fuel →
      ∃ q, t.probe stop fuel i = some q := by
  intro left
  induction left with
  | zero =>
    intro i fuel inside same enough
    obtain ⟨fuel, rfl⟩ := Nat.exists_eq_add_one.mpr enough
    obtain rfl := eq_of_dist_eq inside last base same
    exact ⟨i, by simp [probe, there, accepted]⟩
  | succ left ih =>
    intro i fuel inside same enough
    obtain ⟨fuel, rfl⟩ := Nat.exists_eq_add_one.mpr (Nat.zero_lt_of_lt enough)
    obtain ⟨s', here⟩ := Option.ne_none_iff_exists'.mp (path i inside (by omega))
    unfold probe
    simp only [here]
    split
    · exact ⟨i, rfl⟩
    · have bound := dist_lt base last
      have step := t.dist_next base inside (by omega)
      exact ih (t.next i) fuel (t.next_lt inside) (by omega) (by omega)

/-- Every element that matches is found from its home. -/
theorem Sound.probe_home {t : Table E} (sound : t.Sound) (stop : UInt64 × E → Bool) {p : ℕ} {s : UInt64 × E}
    (last : p < t.cap) (there : t.slot p = some s) (accepted : stop s = true) :
    ∃ q, t.probe stop t.cap (t.home s.1) = some q := by
  have base := t.home_lt s.1
  apply probe_isSome base last there accepted (sound.reach p last s there) (dist t.cap (t.home s.1) p) _ _ base
  · rw [dist_self, Nat.zero_add]
  · exact dist_lt base last

/-- A search finds what the table holds, if at most one element under the hash matches. -/
theorem Sound.find_eq_some {t : Table E} (sound : t.Sound) {h : UInt64} {eq : E → Bool} {e : E}
    (unique : ∀ e₁ e₂, t.Mem h e₁ → t.Mem h e₂ → eq e₁ = true → eq e₂ = true → e₁ = e₂) :
    t.find h eq = some e ↔ t.Mem h e ∧ eq e = true := by
  have sub : ∀ q, t.probe (fun s => s.1 == h && eq s.2) t.cap (t.home h) = some q →
      ∃ e', t.slot q = some (h, e') ∧ t.Mem h e' ∧ eq e' = true := by
    intro q probed
    obtain ⟨inside, ⟨h', e'⟩, there, accepted⟩ := probe_spec (t.home_lt h) probed
    simp only [Bool.and_eq_true, beq_iff_eq] at accepted
    obtain ⟨rfl, matched⟩ := accepted
    exact ⟨e', there, ⟨q, inside, there⟩, matched⟩
  unfold find
  constructor
  · intro found
    obtain ⟨q, probed, content⟩ := Option.bind_eq_some_iff.mp found
    obtain ⟨e', there, member, matched⟩ := sub q probed
    rw [there] at content
    cases content
    exact ⟨member, matched⟩
  · rintro ⟨⟨p, last, there⟩, matched⟩
    obtain ⟨q, probed⟩ := sound.probe_home (fun s => s.1 == h && eq s.2) last there (by simp [matched])
    obtain ⟨e', found, member, matched'⟩ := sub q probed
    rw [probed, Option.bind_some, found, unique e' e member ⟨p, last, there⟩ matched' matched]
    rfl

/-- The slot `place` takes is empty, and reached from `a` through slots in use. -/
theorem free_spec {t : Table E} {a z : ℕ} (base : a < t.cap) (last : z < t.cap) (vacant : t.slot z = none) :
    ∀ left i fuel, i < t.cap → dist t.cap a i + left = dist t.cap a z → left < fuel →
      (∀ q < t.cap, dist t.cap a q < dist t.cap a i → t.slot q ≠ none) →
      t.free fuel i < t.cap ∧ t.slot (t.free fuel i) = none ∧
        ∀ q < t.cap, dist t.cap a q < dist t.cap a (t.free fuel i) → t.slot q ≠ none := by
  intro left
  induction left with
  | zero =>
    intro i fuel inside same enough path
    obtain ⟨fuel, rfl⟩ := Nat.exists_eq_add_one.mpr enough
    obtain rfl := eq_of_dist_eq inside last base same
    have stops : t.free (fuel + 1) i = i := by simp [free, vacant]
    rw [stops]
    exact ⟨inside, vacant, path⟩
  | succ left ih =>
    intro i fuel inside same enough path
    obtain ⟨fuel, rfl⟩ := Nat.exists_eq_add_one.mpr (Nat.zero_lt_of_lt enough)
    cases here : t.slot i with
    | none =>
      have stops : t.free (fuel + 1) i = i := by simp [free, here]
      rw [stops]
      exact ⟨inside, here, path⟩
    | some s =>
      have goes : t.free (fuel + 1) i = t.free fuel (t.next i) := by simp [free, here]
      have bound := dist_lt base last
      have step := t.dist_next base inside (by omega)
      rw [goes]
      refine ih (t.next i) fuel (t.next_lt inside) (by omega) (by omega) fun q inside' closer => ?_
      rcases Nat.lt_or_ge (dist t.cap a q) (dist t.cap a i) with before | after
      · exact path q inside' before
      · obtain rfl := eq_of_dist_eq inside' inside base (by omega)
        rw [here]
        exact Option.some_ne_none s

theorem free_home {t : Table E} (room : t.used < t.cap) {a : ℕ} (base : a < t.cap) :
    t.free t.cap a < t.cap ∧ t.slot (t.free t.cap a) = none ∧
      ∀ q < t.cap, dist t.cap a q < dist t.cap a (t.free t.cap a) → t.slot q ≠ none := by
  obtain ⟨z, last, vacant⟩ := exists_empty room
  apply free_spec base last vacant (dist t.cap a z) a t.cap base
  · rw [dist_self, Nat.zero_add]
  · exact dist_lt base last
  · rw [dist_self]
    intros
    omega

theorem used_place {t : Table E} (room : t.used < t.cap) (h : UInt64) (e : E) : (t.place h e).used = t.used + 1 := by
  obtain ⟨inside, empty, _⟩ := free_home room (t.home_lt h)
  exact used_set_some inside empty (h, e)

/-- Each slot in use of the old table takes one of the fresh table. -/
theorem used_placeAll {old fresh : Table E} (blank : fresh.used = 0) (larger : old.cap ≤ fresh.cap) :
    ∀ k ≤ old.cap, (fresh.placeAll old k).cap = fresh.cap ∧
      (fresh.placeAll old k).used = ((Finset.range k).filter fun p => (old.slot p).isSome).card := by
  intro k
  induction k with
  | zero => exact fun _ => ⟨rfl, blank⟩
  | succ k ih =>
    intro bound
    obtain ⟨cap, used⟩ := ih (by omega)
    simp only [placeAll, Finset.range_add_one, Finset.filter_insert]
    cases here : old.slot k with
    | none => exact ⟨cap, by simpa using used⟩
    | some s =>
      have few := Finset.card_filter_le (Finset.range k) fun p => (old.slot p).isSome
      rw [Finset.card_range] at few
      refine ⟨cap, ?_⟩
      dsimp only
      rw [used_place (by omega), used, Option.isSome_some, if_pos rfl, Finset.card_insert_of_notMem (by simp)]

/-- A table with an empty slot takes one more element. -/
theorem Sound.place {t : Table E} (sound : t.Sound) (room : t.used < t.cap) {h : UInt64} {e : E}
    (fresh : ∀ h', ¬ t.Mem h' e) : (t.place h e).Sound ∧ (t.place h e).used = t.used + 1 ∧
      ∀ h' e', (t.place h e).Mem h' e' ↔ (h' = h ∧ e' = e) ∨ t.Mem h' e' := by
  obtain ⟨inside, empty, path⟩ := free_home room (t.home_lt h)
  unfold Table.place
  generalize t.free t.cap (t.home h) = p at inside empty path ⊢
  refine ⟨⟨fun q qInside s there r rInside closer => ?_, fun q qInside r rInside s s' first second same => ?_⟩,
    used_set_some inside empty (h, e), fun h' e' => ⟨?_, ?_⟩⟩
  · simp only [slot_set, cap_set, home_set] at there closer ⊢
    split
    · exact Option.some_ne_none _
    · next off =>
      split at there
      · next same =>
        cases there
        exact path r rInside (by rwa [same] at closer)
      · exact sound.reach q qInside s there r rInside closer
  · simp only [slot_set] at first second
    split at first <;> split at second
    · omega
    · cases first
      obtain rfl : e = s'.2 := same
      exact (fresh s'.1 ⟨r, rInside, second⟩).elim
    · cases second
      obtain rfl : s.2 = e := same
      exact (fresh s.1 ⟨q, qInside, first⟩).elim
    · exact sound.once q qInside r rInside s s' first second same
  · rintro ⟨q, qInside, there⟩
    rw [slot_set] at there
    split at there
    · cases there
      exact .inl ⟨rfl, rfl⟩
    · exact .inr ⟨q, qInside, there⟩
  · rintro (⟨rfl, rfl⟩ | ⟨q, qInside, there⟩)
    · exact ⟨p, inside, by simp [slot_set]⟩
    · refine ⟨q, qInside, ?_⟩
      rw [slot_set, if_neg, there]
      rintro rfl
      cases empty.symm.trans there

/-- Growing the table moves every element into the larger one. -/
theorem Sound.placeAll {old : Table E} (sound : old.Sound) (fresh : Table E) (blank : ∀ p, fresh.slot p = none)
    (larger : old.cap < fresh.cap) : ∀ k ≤ old.cap, (fresh.placeAll old k).Sound ∧
      (fresh.placeAll old k).cap = fresh.cap ∧
      (fresh.placeAll old k).used = ((Finset.range k).filter fun p => (old.slot p).isSome).card ∧
      ∀ h e, (fresh.placeAll old k).Mem h e ↔ ∃ p < k, old.slot p = some (h, e) := by
  have vacant : fresh.used = 0 := by simp [used, blank]
  have count := used_placeAll vacant larger.le
  intro k
  induction k with
  | zero =>
    intro _
    refine ⟨⟨fun p _ s there => ?_, fun p _ _ _ s _ there => ?_⟩, (count 0 (Nat.zero_le _)).1,
      (count 0 (Nat.zero_le _)).2, fun h e => ⟨?_, ?_⟩⟩
    · cases (blank p).symm.trans there
    · cases (blank p).symm.trans there
    · rintro ⟨p, _, there⟩
      cases (blank p).symm.trans there
    · rintro ⟨p, below, _⟩
      omega
  | succ k ih =>
    intro bound
    obtain ⟨soundBefore, cap, used, members⟩ := ih (by omega)
    obtain ⟨capAfter, usedAfter⟩ := count (k + 1) bound
    have more : ∀ h e, (∃ p < k + 1, old.slot p = some (h, e)) ↔
        old.slot k = some (h, e) ∨ ∃ p < k, old.slot p = some (h, e) := by
      intro h e
      constructor
      · rintro ⟨p, below, there⟩
        rcases Nat.lt_succ_iff_lt_or_eq.mp below with before | rfl
        · exact .inr ⟨p, before, there⟩
        · exact .inl there
      · rintro (there | ⟨p, below, there⟩)
        · exact ⟨k, by omega, there⟩
        · exact ⟨p, by omega, there⟩
    have step : fresh.placeAll old (k + 1) = match old.slot k with
        | none => fresh.placeAll old k
        | some s => (fresh.placeAll old k).place s.1 s.2 := rfl
    cases here : old.slot k with
    | none =>
      rw [here] at step
      refine ⟨step ▸ soundBefore, capAfter, usedAfter, fun h e => ?_⟩
      rw [step, members, more, here]
      simp
    | some s =>
      rw [here] at step
      have fits : (fresh.placeAll old k).used < (fresh.placeAll old k).cap := by
        have few := Finset.card_filter_le (Finset.range k) fun p => (old.slot p).isSome
        rw [Finset.card_range] at few
        omega
      have unseen : ∀ h', ¬ (fresh.placeAll old k).Mem h' s.2 := by
        intro h' member
        obtain ⟨p, below, there⟩ := (members h' s.2).mp member
        have same := sound.once p (by omega) k (by omega) _ _ there here rfl
        omega
      obtain ⟨soundAfter, _, membersAfter⟩ := soundBefore.place fits (h := s.1) unseen
      refine ⟨step ▸ soundAfter, capAfter, usedAfter, fun h e => ?_⟩
      have whole : some s = some (h, e) ↔ h = s.1 ∧ e = s.2 := by
        rw [Option.some_inj, Prod.ext_iff, eq_comm, @eq_comm _ s.2]
      rw [step, membersAfter, members, more, here, whole]

/-- The state of `pull`: slot `i` is stale, the slots from there to `j` are in use, and only elements
from `j` on may be cut off from their home by the hole. -/
structure Gap (t : Table E) (i j : ℕ) : Prop where
  insideHole : i < t.cap
  inside : j < t.cap
  stale : t.slot i ≠ none
  apart : 0 < dist t.cap i j
  cluster : ∀ q < t.cap, 0 < dist t.cap i q → dist t.cap i q < dist t.cap i j → t.slot q ≠ none
  reach : ∀ p < t.cap, p ≠ i → ∀ s, t.slot p = some s → ∀ q < t.cap,
    dist t.cap (t.home s.1) q < dist t.cap (t.home s.1) p → t.slot q ≠ none
  beyond : ∀ p < t.cap, p ≠ i → ∀ s, t.slot p = some s →
    dist t.cap (t.home s.1) i < dist t.cap (t.home s.1) p → dist t.cap i j ≤ dist t.cap i p
  once : ∀ p < t.cap, p ≠ i → ∀ q < t.cap, q ≠ i → ∀ s s', t.slot p = some s → t.slot q = some s' →
    s.2 = s'.2 → p = q

theorem inRange_iff {n i j home : ℕ} (first : i < n) (second : j < n) (base : home < n) :
    inRange i j home = true ↔ 0 < dist n i home ∧ dist n i home ≤ dist n i j := by
  unfold inRange dist
  split_ifs <;> simp <;> omega

/-- At an empty slot the hole closes. -/
theorem Gap.sound_set_none {t : Table E} {i j : ℕ} (gap : t.Gap i j) (vacant : t.slot j = none) :
    (t.set i none).Sound := by
  refine ⟨fun p pInside s there q qInside closer => ?_, fun p pInside q qInside s s' first second same => ?_⟩
  · simp only [slot_set, cap_set, home_set] at there closer pInside qInside ⊢
    split at there
    · cases there
    next off =>
    split
    · next hole =>
      rw [hole] at closer
      have base := t.home_lt s.1
      have past := gap.beyond p pInside off s there closer
      have split := dist_add base gap.insideHole pInside closer
      have other : dist t.cap i j ≠ dist t.cap i p := by
        intro same
        obtain rfl := eq_of_dist_eq gap.inside pInside gap.insideHole same
        cases vacant.symm.trans there
      have between : dist t.cap (t.home s.1) j < dist t.cap (t.home s.1) p := by
        have through := dist_triangle (p := j) base gap.insideHole
        omega
      exact (gap.reach p pInside off s there j gap.inside between vacant).elim
    · exact gap.reach p pInside off s there q qInside closer
  · simp only [slot_set] at first second
    split at first
    · cases first
    next off =>
    split at second
    · cases second
    next off' => exact gap.once p pInside off q qInside off' s s' first second same

/-- An empty slot lies beyond the cluster. -/
private theorem Gap.dist_empty {t : Table E} {i j z : ℕ} (gap : t.Gap i j) (last : z < t.cap)
    (vacant : t.slot z = none) (taken : t.slot j ≠ none) : dist t.cap i j < dist t.cap i z := by
  by_contra close
  have off : dist t.cap i z ≠ dist t.cap i j := by
    intro same
    obtain rfl := eq_of_dist_eq last gap.inside gap.insideHole same
    exact taken vacant
  have away : dist t.cap i z ≠ 0 := by
    intro zero
    obtain rfl := eq_of_dist_eq last gap.insideHole gap.insideHole (by rw [zero, dist_self])
    exact gap.stale vacant
  exact gap.cluster z last (by omega) (by omega) vacant

/-- An element whose home is behind the hole stays, and the scan moves on. -/
theorem Gap.skip {t : Table E} {i j z : ℕ} {s : UInt64 × E} (gap : t.Gap i j) (last : z < t.cap)
    (vacant : t.slot z = none) (here : t.slot j = some s) (stays : inRange i j (t.home s.1) = true) :
    t.Gap i (t.next j) := by
  have far := gap.dist_empty last vacant (by rw [here]; exact Option.some_ne_none s)
  have bound := dist_lt gap.insideHole last
  have step := t.dist_next gap.insideHole gap.inside (by omega)
  have apart := gap.apart
  have home := (inRange_iff gap.insideHole gap.inside (t.home_lt s.1)).mp stays
  refine { gap with inside := t.next_lt gap.inside, apart := by omega, cluster := ?_, beyond := ?_ }
  · intro q qInside away closer
    rcases Nat.lt_or_ge (dist t.cap i q) (dist t.cap i j) with before | after
    · exact gap.cluster q qInside away before
    · obtain rfl := eq_of_dist_eq qInside gap.inside gap.insideHole (by omega)
      rw [here]
      exact Option.some_ne_none s
  · intro p pInside off s' there cut
    have past := gap.beyond p pInside off s' there cut
    have other : dist t.cap i p ≠ dist t.cap i j := by
      intro same
      obtain rfl := eq_of_dist_eq pInside gap.inside gap.insideHole same
      obtain rfl := Option.some_inj.mp (here.symm.trans there)
      exact (dist_le_iff (t.home_lt s.1) gap.insideHole pInside).not.mpr (not_not.mpr home) cut.le
    omega

/-- An element cut off from its home moves into the hole and leaves one behind. -/
theorem Gap.move {t : Table E} {i j : ℕ} {s : UInt64 × E} (gap : t.Gap i j) (large : 1 < t.cap)
    (here : t.slot j = some s) (moves : inRange i j (t.home s.1) = false) :
    (t.set i (some s)).Gap j (t.next j) := by
  have base := t.home_lt s.1
  have hole := gap.insideHole
  have inside := gap.inside
  have ne : j ≠ i := by
    rintro rfl
    have apart := gap.apart
    rw [dist_self] at apart
    omega
  have outside : ¬ (0 < dist t.cap i (t.home s.1) ∧ dist t.cap i (t.home s.1) ≤ dist t.cap i j) := by
    rw [← inRange_iff hole inside base, moves]
    exact Bool.false_ne_true
  have one : dist t.cap j (t.next j) = 1 := by
    have step := t.dist_next inside inside (by rw [dist_self]; omega)
    rw [step, dist_self]
  have taken : ∀ q, t.slot q ≠ none → (t.set i (some s)).slot q ≠ none := by
    intro q full
    rw [slot_set]
    split
    · exact Option.some_ne_none s
    · exact full
  refine ⟨inside, t.next_lt inside, taken j (by rw [here]; exact Option.some_ne_none s), ?_, ?_, ?_, ?_, ?_⟩
  · rw [cap_set, one]
    exact Nat.one_pos
  · intro q _ away closer
    rw [cap_set] at away closer
    omega
  · intro p pInside off s' there q qInside closer
    rw [slot_set] at there
    rw [cap_set, home_set] at closer
    split at there
    · next filled =>
      cases there
      rw [filled] at closer
      apply taken
      exact gap.reach j inside ne s here q qInside (closer.trans_le ((dist_le_iff base hole inside).mpr outside))
    · next still => exact taken q (gap.reach p pInside still s' there q qInside closer)
  · intro p pInside off s' _ _
    rw [cap_set, one]
    by_contra near
    exact off (eq_of_dist_eq (n := t.cap) pInside inside inside (by rw [dist_self]; omega))
  · intro p pInside off q qInside off' s₁ s₂ first second same
    rw [slot_set] at first second
    split at first <;> split at second
    · omega
    · next away =>
      cases first
      exact (off' (gap.once j inside ne q qInside away _ _ here second same).symm).elim
    · next away _ =>
      cases second
      exact (off (gap.once p pInside away j inside ne _ _ first here same)).elim
    · next away away' => exact gap.once p pInside away q qInside away' s₁ s₂ first second same

/-- Pulling the cluster back frees one slot, whatever the slots hold. -/
theorem used_pull (fuel : ℕ) : ∀ {t : Table E} {i j : ℕ}, i < t.cap → j < t.cap → t.slot i ≠ none →
    (pull fuel t i j).cap = t.cap ∧ (pull fuel t i j).used + 1 = t.used := by
  induction fuel with
  | zero => exact fun inside _ taken => ⟨rfl, used_set_none inside taken⟩
  | succ fuel ih =>
    intro t i j hole inside taken
    unfold pull
    cases here : t.slot j with
    | none => exact ⟨rfl, used_set_none hole taken⟩
    | some s =>
      dsimp only
      split
      · exact ih hole (t.next_lt inside) taken
      · have full : (t.set i (some s)).slot j ≠ none := by
          rw [slot_set]
          split
          · exact Option.some_ne_none s
          · rw [here]
            exact Option.some_ne_none s
        obtain ⟨cap, used⟩ := ih (t := t.set i (some s)) inside (t.next_lt inside) full
        exact ⟨cap, by rw [used, used_set_of_some taken]⟩

theorem used_erase [DecidableEq E] {t t' : Table E} {h : UInt64} {e : E} (erased : t.erase h e = some t') :
    t'.cap = t.cap ∧ t'.used + 1 = t.used := by
  obtain ⟨i, probed, rfl⟩ := Option.map_eq_some_iff.mp erased
  obtain ⟨inside, s, there, _⟩ := probe_spec (t.home_lt h) probed
  exact used_pull t.cap inside (t.next_lt inside) (by rw [there]; exact Option.some_ne_none s)

/-- Pulling the cluster back drops the stale slot's element and keeps all others within reach. -/
theorem Gap.pull {fuel : ℕ} : ∀ {t : Table E} {i j z : ℕ}, t.Gap i j → 1 < t.cap → z < t.cap →
    t.slot z = none → dist t.cap j z < fuel →
    (pull fuel t i j).Sound ∧
      ∀ h e, (pull fuel t i j).Mem h e ↔ ∃ p < t.cap, p ≠ i ∧ t.slot p = some (h, e) := by
  induction fuel with
  | zero => intro t i j z _ _ _ _ enough; omega
  | succ fuel ih =>
    intro t i j z gap large last vacant enough
    unfold Table.pull
    cases here : t.slot j with
    | none =>
      refine ⟨gap.sound_set_none here, fun h e => ⟨?_, ?_⟩⟩
      · rintro ⟨p, inside, there⟩
        rw [slot_set] at there
        split at there
        · cases there
        · next off => exact ⟨p, inside, off, there⟩
      · rintro ⟨p, inside, off, there⟩
        exact ⟨p, inside, by rw [slot_set, if_neg off, there]⟩
    | some s =>
      have ne : z ≠ j := by
        rintro rfl
        cases vacant.symm.trans here
      have closer : dist t.cap (t.next j) z < fuel := by
        have step := t.dist_next_left gap.inside last ne
        omega
      dsimp only
      split
      · next stays => exact ih (gap.skip last vacant here stays) large last vacant closer
      · next moves =>
        have away : z ≠ i := by
          rintro rfl
          exact gap.stale vacant
        have still : (t.set i (some s)).slot z = none := by rw [slot_set, if_neg away, vacant]
        obtain ⟨sound, members⟩ := ih (gap.move large here (Bool.eq_false_iff.mpr moves)) large last still closer
        refine ⟨sound, fun h e => ?_⟩
        rw [members]
        have apart := gap.apart
        have off : j ≠ i := by
          rintro rfl
          rw [dist_self] at apart
          omega
        constructor
        · rintro ⟨p, inside, other, there⟩
          rw [slot_set] at there
          split at there
          · exact ⟨j, gap.inside, off, here.trans there⟩
          · next apart' => exact ⟨p, inside, apart', there⟩
        · rintro ⟨p, inside, other, there⟩
          by_cases same : p = j
          · refine ⟨i, gap.insideHole, Ne.symm off, ?_⟩
            rw [slot_set, if_pos rfl, ← here, ← same, there]
          · exact ⟨p, inside, same, by rw [slot_set, if_neg other, there]⟩

/-- Erasing an element the table holds removes it and nothing else. -/
theorem Sound.erase [DecidableEq E] {t : Table E} (sound : t.Sound) (room : t.used < t.cap) (large : 1 < t.cap)
    {h : UInt64} {e : E} (held : t.Mem h e) : ∃ t', t.erase h e = some t' ∧ t'.Sound ∧ t'.cap = t.cap ∧
      t'.used + 1 = t.used ∧ ∀ h' e', t'.Mem h' e' ↔ t.Mem h' e' ∧ e' ≠ e := by
  obtain ⟨p, last, there⟩ := held
  obtain ⟨i, probed⟩ := sound.probe_home (fun s => decide (s.2 = e)) last there (by simp)
  obtain ⟨inside, s, found, accepted⟩ := probe_spec (t.home_lt h) probed
  obtain rfl := sound.once i inside p last s (h, e) found there (of_decide_eq_true accepted)
  obtain ⟨z, zInside, vacant⟩ := exists_empty room
  have away : z ≠ i := by
    rintro rfl
    cases vacant.symm.trans there
  have one : dist t.cap i (t.next i) = 1 := by
    have step := t.dist_next inside inside (by rw [dist_self]; omega)
    rw [step, dist_self]
  have gap : t.Gap i (t.next i) := by
    refine ⟨inside, t.next_lt inside, by rw [there]; exact Option.some_ne_none _, by omega, ?_,
      fun q qInside _ => sound.reach q qInside, ?_, fun q qInside _ r rInside _ => sound.once q qInside r rInside⟩
    · intros
      omega
    · intro q qInside off s' _ _
      rw [one]
      by_contra near
      exact off (eq_of_dist_eq qInside inside inside (by rw [dist_self]; omega))
  obtain ⟨soundAfter, members⟩ := gap.pull large zInside vacant (dist_lt (t.next_lt inside) zInside)
  have erased : t.erase h e = some (pull t.cap t i (t.next i)) := by
    simp only [Table.erase, probed, Option.map_some]
  obtain ⟨cap, used⟩ := used_erase erased
  refine ⟨pull t.cap t i (t.next i), erased, soundAfter, cap, used, fun h' e' => ?_⟩
  rw [members]
  constructor
  · rintro ⟨q, qInside, off, content⟩
    exact ⟨⟨q, qInside, content⟩, fun same => off (sound.once q qInside i inside _ _ content there same)⟩
  · rintro ⟨⟨q, qInside, content⟩, other⟩
    refine ⟨q, qInside, ?_, content⟩
    rintro rfl
    exact other (congrArg Prod.snd (Option.some_inj.mp (content.symm.trans there)))

end Table

end FluxKV.LinearProbing
