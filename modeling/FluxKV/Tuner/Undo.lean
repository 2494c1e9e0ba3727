import FluxKV.Tuner.Bounds

/-! # Trials that are taken back

A trial that is reverted or abandoned asks the pool for the difference between the two sizes. A group of pools rounds
the difference to whole shards, at least one thread for each. That gives the old size back after every grow of pools
that had a thread each, and after a shrink exactly when the threads it took away are whole shards, and not none.
-/

namespace FluxKV.Tuner

open Machine ShardedPoolGroup

namespace Pool

/-- When the change of a trial can be taken back, by the pool before and after it. -/
def Restorable (before after : Pool) : Trial → Prop
  | .none => True
  | .grow =>
    match before with
    | io loops => 0 < loops
    | sharded .readers _ => True
    | sharded .writers live => ∀ pool ∈ live, 0 < pool
  | .shrink =>
    match before with
    | io _ => True
    | sharded _ live => live.length ∣ before.size - after.size ∧ 0 < before.size - after.size

/-- Pools that are none of them smaller than before have the old total if each has its old size. -/
private theorem sum_map_eq_iff {live : List ℕ} {change : ℕ → ℕ} (larger : ∀ pool, pool ≤ change pool) :
    (live.map change).sum = live.sum ↔ ∀ pool ∈ live, change pool = pool := by
  induction live with
  | nil => simp only [List.map_nil, List.not_mem_nil, false_implies, implies_true]
  | cons pool rest ih =>
    have first := larger pool
    have others := List.sum_le_sum (f := id) (g := change) (l := rest) fun pool _ => larger pool
    rw [List.map_id] at others
    rw [List.map_cons, List.sum_cons, List.sum_cons, List.forall_mem_cons]
    refine ⟨fun total => ⟨by omega, ih.mp (by omega)⟩, fun ⟨same, all⟩ => ?_⟩
    rw [same, ih.mpr all]

/-- What a pool gives back after it has grown. -/
private theorem shrink_grow_eq_iff (role : Role) {live p : ℕ} (more : 0 < p) :
    role.shrink (role.grow live p) p = live ↔ role = .readers ∨ 0 < live := by
  cases role with
  | readers =>
    show live + p - min p (live + p) = live ↔ _
    simp only [true_or, iff_true]
    omega
  | writers =>
    show live + p - min p (if 1 < live + p then live + p - 1 else 0) = live ↔ _
    simp only [reduceCtorEq, false_or]
    split <;> omega

theorem grow_taken_back_iff (pool : Pool) {n : ℕ} (more : 0 < n) :
    ((pool.grow n).shrink ((pool.grow n).size - pool.size)).size = pool.size ↔ pool.Restorable (pool.grow n) .grow := by
  cases pool with
  | io loops =>
    show IOPool.shrink (loops + n) (loops + n - loops) = loops ↔ 0 < loops
    unfold IOPool.shrink
    split <;> omega
  | sharded role live =>
    have grown : ((sharded role live).grow n).size - (sharded role live).size = live.length * per live.length n := by
      rw [size_grow_sharded]
      exact Nat.add_sub_cancel_left ..
    rw [grown]
    rcases Nat.eq_zero_or_pos live.length with none | some
    · obtain rfl := List.eq_nil_of_length_eq_zero none
      cases role <;> simp [grow, shrink, size, Restorable]
    · have back : (((sharded role live).grow n).shrink (live.length * per live.length n)).size =
          (live.map fun pool => role.shrink (role.grow pool (per live.length n)) (per live.length n)).sum := by
        simp only [grow, shrink, size, List.map_map, List.length_map, per_mul some (per_pos ..)]
        rfl
      have larger : ∀ pool, pool ≤ role.shrink (role.grow pool (per live.length n)) (per live.length n) := fun pool => by
        have kept := role.le_shrink_add (role.grow pool (per live.length n)) (per live.length n)
        rw [role.grow_eq] at kept ⊢
        omega
      rw [back]
      refine (sum_map_eq_iff larger).trans ?_
      simp only [shrink_grow_eq_iff role (per_pos live.length n)]
      cases role with
      | readers => simp only [true_or, implies_true, Restorable]
      | writers => simp only [reduceCtorEq, false_or, Restorable]

theorem shrink_taken_back_iff (pool : Pool) {n : ℕ} (some : 0 < pool.size) :
    ((pool.shrink n).grow (pool.size - (pool.shrink n).size)).size = pool.size ↔
      pool.Restorable (pool.shrink n) .shrink := by
  have smaller := pool.size_shrink_le n
  cases pool with
  | io loops =>
    show (IOPool.shrink loops n) + (loops - IOPool.shrink loops n) = loops ↔ True
    simp only [iff_true]
    exact Nat.add_sub_of_le smaller
  | sharded role live =>
    have whole : 0 < live.length := by
      refine List.length_pos_of_ne_nil ?_
      rintro rfl
      exact absurd some (Nat.lt_irrefl 0)
    rw [shrink, size_grow_sharded, List.length_map]
    show (((sharded role live).shrink n).size + live.length * per live.length
      ((sharded role live).size - ((sharded role live).shrink n).size) = (sharded role live).size) ↔
        live.length ∣ (sharded role live).size - ((sharded role live).shrink n).size ∧
          0 < (sharded role live).size - ((sharded role live).shrink n).size
    generalize ((sharded role live).shrink n).size = after at smaller ⊢
    generalize (sharded role live).size = before at smaller ⊢
    constructor
    · intro same
      have taken : before - after = live.length * per live.length (before - after) := by omega
      exact ⟨⟨_, taken⟩, taken ▸ Nat.mul_pos whole (per_pos ..)⟩
    · rintro ⟨⟨k, taken⟩, more⟩
      rw [taken] at more ⊢
      rw [per_mul whole (pos_of_mul_pos_right more (Nat.zero_le _))]
      omega

end Pool

namespace PoolState

variable {cfg : TunerConfig} {ps next : PoolState} {r : Readings}

theorem trial_judge : (ps.judge cfg r).trial = .none := by
  unfold judge
  dsimp only
  split <;> rfl

theorem Turn.started (turn : ps.Turn cfg r next) (idle : ps.trial = .none) (inFlight : next.trial ≠ .none) :
    next.sizeBefore = ps.pool.size ∧
      ((∃ n, 0 < n ∧ next.trial = .grow ∧ next.pool = ps.pool.grow n) ∨
        0 < ps.pool.size ∧ ∃ n, next.trial = .shrink ∧ next.pool = ps.pool.shrink n) := by
  cases turn with
  | rest => exact (inFlight idle).elim
  | resume before => exact (before idle).elim
  | start _ started =>
    rcases startTrial_cases started with ⟨_, more, rfl⟩ | ⟨room, _, rfl⟩
    · exact ⟨rfl, .inl ⟨_, more, rfl, rfl⟩⟩
    · exact ⟨rfl, .inr ⟨Nat.zero_lt_of_lt room, _, rfl, rfl⟩⟩

/-- As long as a trial is in flight the pool keeps the size the trial gave it. -/
theorem Turn.pending (turn : ps.Turn cfg r next) (before : ps.trial ≠ .none) (after : next.trial ≠ .none) :
    next.pool = ps.pool ∧ next.trial = ps.trial ∧ next.sizeBefore = ps.sizeBefore := by
  cases turn with
  | rest => exact ⟨rfl, rfl, rfl⟩
  | start idle => exact (before idle).elim
  | resume _ loaded =>
    obtain ⟨windows, settled, ended⟩ := continueTrial_cases cfg ps r loaded
    rcases ended with same | same | same <;> rw [same] at after ⊢
    · exact ⟨rfl, rfl, rfl⟩
    · exact (after rfl).elim
    · exact (after trial_judge).elim

/-- A trial that ends and is not kept is taken back. -/
theorem Turn.undone (turn : ps.Turn cfg r next) (before : ps.trial ≠ .none) (ended : next.trial = .none)
    (undone : next.verdict ≠ some .kept) : next.pool = ps.undo := by
  cases turn with
  | rest => exact (before ended).elim
  | start idle => exact (before idle).elim
  | resume _ loaded =>
    obtain ⟨windows, settled, same | same | same⟩ := continueTrial_cases cfg ps r loaded
    · rw [same] at ended
      exact (before ended).elim
    · rw [same]
      rfl
    · rw [same] at undone ⊢
      unfold judge at undone ⊢
      dsimp only at undone ⊢
      split at undone
      · exact (undone rfl).elim
      · next revert =>
        rw [if_neg revert]
        rfl

end PoolState

namespace ThreadTuner

variable {cfg : TunerConfig} {i : ℕ}

/-- The pool has a trial in flight. -/
def InFlight (i : ℕ) (s : ThreadTuner) : Prop := ∃ ps, s.pools[i]? = some ps ∧ ps.trial ≠ .none

instance (s : ThreadTuner) : Decidable (s.InFlight i) :=
  decidable_of_iff ((s.pools[i]?).any (·.trial ≠ .none) = true) (by simp [InFlight, Option.any_eq_true])

theorem along_cons {P : ThreadTuner → Prop} {s : ThreadTuner} {w : Window} {rest : List Window} :
    Along (step cfg) P s (w :: rest) ↔ P s ∧ Along (step cfg) P (s.decide cfg w) rest := by
  refine and_congr_right fun _ => ⟨fun later => later _ rfl, fun later next taken => ?_⟩
  rwa [← Option.some.inj taken]

theorem pending_of_along {s t : ThreadTuner} {during : List Window} {ps : PoolState}
    (run : exec (step cfg) s during = some t) (pending : Along (step cfg) (InFlight i) s during)
    (here : s.pools[i]? = some ps) :
    ∃ now, t.pools[i]? = some now ∧ now.pool = ps.pool ∧ now.trial = ps.trial ∧ now.sizeBefore = ps.sizeBefore := by
  induction during generalizing s ps with
  | nil =>
    cases run
    exact ⟨ps, here, rfl, rfl, rfl⟩
  | cons w rest ih =>
    obtain ⟨⟨_, same, before⟩, pending⟩ := along_cons.mp pending
    cases here.symm.trans same
    obtain ⟨next, there, after⟩ : InFlight i (s.decide cfg w) := by
      cases rest with
      | nil => exact pending
      | cons => exact pending.1
    obtain ⟨_, same, turn⟩ := turn_of_decide there
    cases here.symm.trans same
    obtain ⟨pool, trial, size⟩ := turn.pending before after
    obtain ⟨now, found, pool', trial', size'⟩ := ih run pending there
    exact ⟨now, found, pool'.trans pool, trial'.trans trial, size'.trans size⟩

/-- A trial that starts in one window, is in flight during some more, and ends reverted or abandoned, leaves the pool
with the size it had before exactly when its change can be taken back. -/
theorem undone_trial_restores_iff {s t : ThreadTuner} {first last : Window} {during : List Window}
    {before started ended : PoolState} (here : s.pools[i]? = some before) (idle : before.trial = .none)
    (begun : (s.decide cfg first).pools[i]? = some started) (run : exec (step cfg) (s.decide cfg first) during = some t)
    (pending : Along (step cfg) (InFlight i) (s.decide cfg first) during)
    (done : (t.decide cfg last).pools[i]? = some ended) (nothing : ended.trial = .none)
    (undone : ended.verdict ≠ some .kept) :
    started.sizeBefore = before.pool.size ∧
      (ended.pool.size = started.sizeBefore ↔ before.pool.Restorable started.pool started.trial) := by
  have inFlight : started.trial ≠ .none := by
    obtain ⟨_, same, inFlight⟩ : InFlight i (s.decide cfg first) := by
      cases during with
      | nil => exact pending
      | cons => exact pending.1
    cases begun.symm.trans same
    exact inFlight
  obtain ⟨_, same, turn⟩ := turn_of_decide begun
  cases here.symm.trans same
  obtain ⟨size, change⟩ := turn.started idle inFlight
  obtain ⟨now, there, pool, trial, sizeBefore⟩ := pending_of_along run pending begun
  obtain ⟨_, same, turn⟩ := turn_of_decide done
  cases there.symm.trans same
  have back : ended.pool = now.undo := turn.undone (trial ▸ inFlight) nothing undone
  refine ⟨size, ?_⟩
  rw [back, PoolState.undo, trial, pool, sizeBefore, size]
  rcases change with ⟨n, more, grew, grown⟩ | ⟨some, n, shrank, shrunk⟩
  · rw [grew, grown]
    exact before.pool.grow_taken_back_iff more
  · rw [shrank, shrunk]
    exact before.pool.shrink_taken_back_iff some

end ThreadTuner

/-- Three readers on two shards: a trial takes one from each and gives one to each when it is reverted. -/
theorem undone_trial_restores_iff_readers : ∃ s ended,
    Reach (ThreadTuner.step {}) (enableAutoTune (twoShards 3 2) 1) s ∧ s.pools[1]? = some ended ∧
      ended.verdict = some .reverted ∧ ended.pool.size = 3 := by
  let w := evenWindow false
  let s := ((((enableAutoTune (twoShards 3 2) 1).decide {} w).decide {} w).decide {} w)
  let t := ((s.decide {} w).decide {} w).decide {} w
  obtain ⟨before, here, facts⟩ := Option.map_eq_some_iff.mp (by decide +kernel :
    (s.pools[1]?).map (fun ps => (ps.pool, ps.trial)) = some (.sharded .readers [2, 1], .none))
  obtain ⟨started, begun, facts'⟩ := Option.map_eq_some_iff.mp (by decide +kernel :
    ((s.decide {} w).pools[1]?).map (fun ps => (ps.pool, ps.trial)) = some (.sharded .readers [1, 0], .shrink))
  obtain ⟨ended, done, facts''⟩ := Option.map_eq_some_iff.mp (by decide +kernel :
    ((t.decide {} w).pools[1]?).map (fun ps => (ps.trial, ps.verdict)) = some (.none, some .reverted))
  simp only [Prod.mk.injEq] at facts facts' facts''
  have pending : Along (ThreadTuner.step {}) (ThreadTuner.InFlight 1) (s.decide {} w) [w, w] := by
    have last : ThreadTuner.InFlight 1 t := by decide +kernel
    exact ThreadTuner.along_cons.mpr ⟨by decide +kernel, ThreadTuner.along_cons.mpr ⟨by decide +kernel, last⟩⟩
  obtain ⟨size, restored⟩ := ThreadTuner.undone_trial_restores_iff (t := t) here facts.2 begun rfl pending done facts''.1
    (by rw [facts''.2]; decide)
  refine ⟨t.decide {} w, ended, ⟨List.replicate 7 w, rfl⟩, done, facts''.2, ?_⟩
  rw [facts.1] at size restored
  rw [facts'.1, facts'.2] at restored
  exact (restored.mpr ⟨by decide, by decide⟩).trans size

/-- Three writers on two shards: the trial takes the one writer that can be spared, and each shard gets one when it is
reverted. -/
theorem revert_leaves_four_writers : ∃ s ended,
    Reach (ThreadTuner.step {}) (enableAutoTune (twoShards 2 3) 1) s ∧ s.pools[2]? = some ended ∧
      ended.verdict = some .reverted ∧ ended.sizeBefore = 3 ∧ ended.pool.size = 4 := by
  have run : (exec (ThreadTuner.step {}) (enableAutoTune (twoShards 2 3) 1) (List.replicate 7 (evenWindow false))).map
      (fun s => (s.pools[2]?).map fun ps => (ps.verdict, ps.sizeBefore, ps.pool.size)) =
        some (some (some .reverted, 3, 4)) := by decide +kernel
  obtain ⟨s, run, facts⟩ := Option.map_eq_some_iff.mp run
  obtain ⟨ended, here, facts⟩ := Option.map_eq_some_iff.mp facts
  simp only [Prod.mk.injEq] at facts
  exact ⟨s, ended, ⟨_, run⟩, here, facts⟩

end FluxKV.Tuner
