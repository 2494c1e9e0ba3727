import FluxKV.Server.IOLoops
import FluxKV.ToMathlib.Counting
import FluxKV.ToMathlib.Levelling
import FluxKV.ToMathlib.ProbeLoops

/-! # Rebalancing levels the loops

The planning loop of `rebalance` moves one connection at a time from the first of the fullest loops to the first of
the emptiest. It ends with loads within one of each other, and the plans it leaves take from each loop, and reserve on
each, the difference between its old load and its new one.
-/

namespace FluxKV.Server

open Levelling
open LinearProbing (Loop)

/-- A round of the planning loop. -/
def levelRound (load : List ℤ) : Option (List ℤ) :=
  (extremes load).bind fun (most, least) =>
    if load.getD most 0 - load.getD least 0 ≤ 1 then none else some (moveOne load most least)

/-- The loads the planning loop leaves with. -/
def levelled (load : List ℤ) : List ℤ := (levelMoves load).foldl (fun load move => moveOne load move.1 move.2) load

section Extremes

variable {observed : ℕ → ℤ} {loops : List ℕ} {load : List ℤ} {most least : ℕ}

theorem le_of_leastLoaded {iot : ℕ} (found : leastLoaded observed loops = some iot) :
    ∀ other ∈ loops, observed iot ≤ observed other := by
  -- The best so far bounds what is found in the end.
  have carried : ∀ best, loops.foldl (lesser observed) best = some iot →
      (∀ b, best = some b → observed iot ≤ observed b) ∧ ∀ other ∈ loops, observed iot ≤ observed other := by
    clear found
    induction loops with
    | nil =>
      rintro _ rfl
      refine ⟨?_, fun _ member => absurd member List.not_mem_nil⟩
      rintro _ ⟨⟩
      exact le_rfl
    | cons first rest ih =>
      intro best found
      obtain ⟨now, later⟩ := ih _ found
      cases best with
      | none => exact ⟨by rintro _ ⟨⟩, List.forall_mem_cons.mpr ⟨now first rfl, later⟩⟩
      | some b =>
        rw [lesser] at now
        split at now
        · next closer =>
          have bound := now first rfl
          refine ⟨?_, List.forall_mem_cons.mpr ⟨bound, later⟩⟩
          rintro _ ⟨⟩
          exact bound.trans closer.le
        · next farther =>
          have bound := now b rfl
          refine ⟨?_, List.forall_mem_cons.mpr ⟨bound.trans (not_lt.mp farther), later⟩⟩
          rintro _ ⟨⟩
          exact bound
  exact (carried none found).2

theorem eq_nil_of_leastLoaded (none : leastLoaded observed loops = none) : loops = [] := by
  have kept : ∀ best rest, List.foldl (lesser observed) (some best) rest ≠ Option.none := by
    intro best rest
    induction rest generalizing best with
    | nil => rintro ⟨⟩
    | cons first rest ih =>
      rw [List.foldl_cons, lesser]
      split
      · exact ih first
      · exact ih best
  cases loops with
  | nil => rfl
  | cons first rest => exact absurd none (kept first rest)

theorem eq_nil_of_extremes (none : extremes load = none) : load = [] := by
  rcases Option.bind_eq_none_iff.mp none with nowhere
  cases largest : leastLoaded (fun i => -load.getD i 0) (List.range load.length) with
  | none => exact List.length_eq_zero_iff.mp (List.range_eq_nil.mp (eq_nil_of_leastLoaded largest))
  | some most =>
    have smallest := Option.map_eq_none_iff.mp (nowhere most largest)
    exact List.length_eq_zero_iff.mp (List.range_eq_nil.mp (eq_nil_of_leastLoaded smallest))

/-- What the extremes are. -/
theorem extremes_spec (found : extremes load = some (most, least)) :
    most < load.length ∧ least < load.length ∧ (∀ i < load.length, load.getD i 0 ≤ load.getD most 0) ∧
      ∀ i < load.length, load.getD least 0 ≤ load.getD i 0 := by
  obtain ⟨_, largest, rest⟩ := Option.bind_eq_some_iff.mp found
  obtain ⟨_, smallest, same⟩ := Option.map_eq_some_iff.mp rest
  cases same
  refine ⟨List.mem_range.mp (mem_of_leastLoaded largest), List.mem_range.mp (mem_of_leastLoaded smallest), ?_, ?_⟩
  · intro i inside
    exact neg_le_neg_iff.mp (le_of_leastLoaded largest i (List.mem_range.mpr inside))
  · intro i inside
    exact le_of_leastLoaded smallest i (List.mem_range.mpr inside)

theorem widest (found : extremes load = some (most, least)) (apart : 1 < load.getD most 0 - load.getD least 0) :
    Widest (· < load.length) (load.getD · 0) most least := by
  obtain ⟨most_mem, least_mem, le_most, least_le⟩ := extremes_spec found
  exact ⟨most_mem, least_mem, le_most, least_le, apart⟩

@[simp] theorem length_moveOne : (moveOne load most least).length = load.length := by
  simp only [moveOne, List.length_set]

theorem getD_moveOne (wide : Widest (· < load.length) (load.getD · 0) most least) (i : ℕ) :
    (moveOne load most least).getD i 0 = shift (load.getD · 0) most least i := by
  have first := wide.most_mem
  have second := wide.least_mem
  have differ : most ≠ least := by
    rintro rfl
    have gap := wide.apart
    omega
  simp only [moveOne, shift, List.getD_eq_getElem?_getD, List.getElem?_set, List.length_set, @eq_comm _ i]
  split
  · next here =>
    subst here
    simp [differ, second]
  · split
    · next here =>
      subst here
      simp [first]
    · simp

theorem sum_moveOne (wide : Widest (· < load.length) (load.getD · 0) most least) :
    (moveOne load most least).sum = load.sum := by
  have first := wide.most_mem
  have second := wide.least_mem
  have differ : most ≠ least := by
    rintro rfl
    have gap := wide.apart
    omega
  simp only [moveOne, List.sum_set', List.length_set, first, second, dif_pos, List.getElem_set_ne differ,
    List.getD_eq_getElem?_getD, List.getElem?_eq_getElem, Option.getD_some]
  omega

end Extremes

theorem forall_mem_le_add_one_iff {load : List ℤ} :
    (∀ a ∈ load, ∀ b ∈ load, a ≤ b + 1) ↔ Level (· < load.length) (load.getD · 0) := by
  have at_position : ∀ i < load.length, load.getD i 0 ∈ load := by
    intro i inside
    rw [List.getD_eq_getElem?_getD, List.getElem?_eq_getElem inside]
    exact List.getElem_mem inside
  constructor
  · intro level i j first second
    exact level _ (at_position i first) _ (at_position j second)
  · intro level a first b second
    obtain ⟨i, inside, rfl⟩ := List.getElem_of_mem first
    obtain ⟨j, inside', rfl⟩ := List.getElem_of_mem second
    simpa [List.getD_eq_getElem?_getD, inside, inside'] using level i j inside inside'

/-- The planning loop is a levelling of the loads. -/
theorem levels_levelMoves (load : List ℤ) :
    Levels (· < load.length) (load.getD · 0) (levelMoves load) ((levelled load).getD · 0) := by
  unfold levelled
  fun_induction levelMoves load with
  | case1 load none =>
    refine .done fun i _ inside => ?_
    rw [eq_nil_of_extremes none] at inside
    exact absurd inside (Nat.not_lt_zero i)
  | case2 load most least found apart ih =>
    have wide := widest found apart
    rw [length_moveOne, funext (getD_moveOne wide)] at ih
    exact .move wide ih
  | case3 load most least found close =>
    obtain ⟨_, _, le_most, least_le⟩ := extremes_spec found
    refine .done fun i j first second => ?_
    have upper := le_most i first
    have lower := least_le j second
    omega

theorem sum_levelled (load : List ℤ) : (levelled load).sum = load.sum := by
  unfold levelled
  fun_induction levelMoves load with
  | case1 => rfl
  | case2 load most least found apart ih => exact ih.trans (sum_moveOne (widest found apart))
  | case3 => rfl

theorem length_levelled (load : List ℤ) : (levelled load).length = load.length := by
  unfold levelled
  fun_induction levelMoves load with
  | case1 => rfl
  | case2 load most least found apart ih => exact ih.trans length_moveOne
  | case3 => rfl

/-- The planning loop ends. -/
theorem loop_levelRound (load : List ℤ) : Loop levelRound (levelMoves load).length load (levelled load) := by
  unfold levelled
  fun_induction levelMoves load with
  | case1 load none => exact .leave (by rw [levelRound, none, Option.bind_none])
  | case2 load most least found apart ih =>
    refine .round ?_ ih
    rw [levelRound, found]
    exact if_neg (not_le.mpr apart)
  | case3 load most least found close =>
    refine .leave ?_
    rw [levelRound, found]
    exact if_pos (not_lt.mp close)

section Plans

variable {live : List ℕ} {moves : List (ℕ × ℕ)}

/-- The destinations a donor is given, in the order of the moves. -/
def dests (live : List ℕ) (moves : List (ℕ × ℕ)) (i : ℕ) : List ℕ :=
  moves.filterMap fun (di, ri) => if di = i then live[ri]? else none

theorem length_dests (inside : ∀ move ∈ moves, move.2 < live.length) (i : ℕ) :
    (dests live moves i).length = (moves.map Prod.fst).count i := by
  induction moves with
  | nil => rfl
  | cons move moves ih =>
    obtain ⟨here, rest⟩ := List.forall_mem_cons.mp inside
    have tail := ih rest
    rw [dests, List.filterMap_cons, List.map_cons, List.count_cons]
    rcases eq_or_ne move.1 i with rfl | other
    · simp [List.getElem?_eq_getElem here, ← tail, dests]
    · simp [other, ← tail, dests]

theorem flatMap_dests_perm (inside : ∀ move ∈ moves, move.1 < live.length) :
    ((List.range live.length).flatMap (dests live moves)).Perm (moves.filterMap fun move => live[move.2]?) := by
  have split : (List.range live.length).flatMap (dests live moves) =
      ((List.range live.length).flatMap fun i => moves.filter (·.1 = i)).filterMap fun move => live[move.2]? := by
    rw [List.filterMap_flatMap]
    congr 1
    funext i
    rw [List.filterMap_filter]
    simp only [dests, decide_eq_true_eq]
  rw [split]
  have donors : ∀ move ∈ moves, move.1 ∈ List.range live.length :=
    fun move member => List.mem_range.mpr (inside move member)
  exact (Counting.flatMap_filter_perm Prod.fst List.nodup_range donors).filterMap _

theorem count_dests (unique : live.Nodup) {j l : ℕ} (here : live[j]? = some l)
    (inside : ∀ move ∈ moves, move.1 < live.length) :
    ((List.range live.length).flatMap (dests live moves)).count l = (moves.map Prod.snd).count j := by
  rw [(flatMap_dests_perm inside).count_eq]
  clear inside
  induction moves with
  | nil => rfl
  | cons move moves ih =>
    rw [List.map_cons, List.count_cons, ← ih, List.filterMap_cons]
    rcases eq_or_ne move.2 j with rfl | other
    · simp [here]
    · cases there : live[move.2]? with
      | none => simp [other]
      | some k =>
        have differ : k ≠ l := by
          rintro rfl
          have bound := (List.getElem?_eq_some_iff.mp there).1
          exact other ((List.getElem?_inj bound unique).mp (there.trans here.symm))
        simp [other, differ]

/-- The plans of `rebalance`, by the position of the donor. -/
theorem rebalance_eq {loads : ℕ → ℤ} (two : 2 ≤ live.length) :
    rebalance live loads = live.zipIdx.map fun (donor, i) => (donor, dests live (levelMoves (live.map loads)) i) :=
  if_neg (not_lt.mpr two)

theorem flatMap_snd_rebalance {loads : ℕ → ℤ} (two : 2 ≤ live.length) :
    (rebalance live loads).flatMap Prod.snd =
      (List.range live.length).flatMap (dests live (levelMoves (live.map loads))) := by
  rw [rebalance_eq two, List.flatMap_map, List.range_eq_range', ← List.zipIdx_map_snd, List.flatMap_map]

end Plans

theorem State.nodup_live (s : State) : s.live.Nodup := List.nodup_range.filter _

/-- The planning loop ends with the same number of connections, within one of each other; each loop gives up what it
has too many and is named and reserved for what it has too few, never both; loads that are level stay. -/
theorem rebalance_levels (s : State) (loads : ℕ → ℤ) (two : 2 ≤ s.live.length) :
    let load := s.live.map loads
    let planned := levelled load
    let plans := rebalance s.live loads
    (∃ rounds, Loop levelRound rounds load planned) ∧
      planned.length = load.length ∧ planned.sum = load.sum ∧ (∀ a ∈ planned, ∀ b ∈ planned, a ≤ b + 1) ∧
      (∀ i l, s.live[i]? = some l → ∃ dests, plans[i]? = some (l, dests) ∧
        (dests.length : ℤ) = max 0 (load.getD i 0 - planned.getD i 0) ∧
        ((plans.flatMap Prod.snd).count l : ℤ) = max 0 (planned.getD i 0 - load.getD i 0) ∧
        ((s.postMigrations plans).loops l).pending =
          (s.loops l).pending + max 0 (planned.getD i 0 - load.getD i 0) ∧
        (dests = [] ∨ l ∉ plans.flatMap Prod.snd)) ∧
      ((∀ a ∈ load, ∀ b ∈ load, a ≤ b + 1) → ∀ plan ∈ plans, plan.2 = []) := by
  intro load planned plans
  have levels := levels_levelMoves load
  have size : load.length = s.live.length := List.length_map ..
  have inside : ∀ move ∈ levelMoves load, move.1 < s.live.length ∧ move.2 < s.live.length := by
    rw [← size]
    exact levels.among_of_mem
  have named : ∀ i l, s.live[i]? = some l →
      ((plans.flatMap Prod.snd).count l : ℤ) = max 0 (planned.getD i 0 - load.getD i 0) := by
    intro i l here
    rw [flatMap_snd_rebalance two, count_dests s.nodup_live here fun move member => (inside move member).1]
    exact levels.count_snd i
  refine ⟨⟨_, loop_levelRound load⟩, length_levelled load, sum_levelled load, ?_, ?_, ?_⟩
  · refine forall_mem_le_add_one_iff.mpr ?_
    rw [length_levelled load]
    exact levels.level
  · intro i l here
    refine ⟨dests s.live (levelMoves load) i, ?_, ?_, named i l here, ?_, ?_⟩
    · simp only [plans, rebalance_eq two, List.getElem?_map, List.getElem?_zipIdx, here, Option.map_some, Nat.zero_add]
      rfl
    · rw [length_dests fun move member => (inside move member).2]
      exact levels.count_fst i
    · rw [← named i l here]
      rfl
    · have gives := length_dests (fun move member => (inside move member).2) i
      have takes := count_dests s.nodup_live here fun move member => (inside move member).1
      rw [flatMap_snd_rebalance two]
      refine (levels.disjoint i).imp (fun none => ?_) fun none => ?_
      · exact List.eq_nil_of_length_eq_zero (gives.trans (List.count_eq_zero_of_not_mem none))
      · exact List.count_eq_zero.mp (takes.trans (List.count_eq_zero_of_not_mem none))
  · intro level plan member
    have nothing := levels.eq_nil (forall_mem_le_add_one_iff.mp level)
    simp only [plans, rebalance_eq two, load, nothing] at member
    obtain ⟨_, _, rfl⟩ := List.mem_map.mp member
    rfl

/-- Three loops with five, no and one connection are planned for two each, give or take one. -/
theorem rebalance_levels_three :
    let load := (State.initial 3).live.map fun l => if l = 0 then (5 : ℤ) else if l = 1 then 0 else 1
    2 ≤ (State.initial 3).live.length ∧ (levelled load).sum = 6 ∧
      ∀ a ∈ levelled load, ∀ b ∈ levelled load, a ≤ b + 1 := by
  intro load
  obtain ⟨_, _, total, level, _⟩ := rebalance_levels (State.initial 3)
    (fun l => if l = 0 then (5 : ℤ) else if l = 1 then 0 else 1) (by decide)
  exact ⟨by decide, total.trans (by decide), level⟩

end FluxKV.Server
