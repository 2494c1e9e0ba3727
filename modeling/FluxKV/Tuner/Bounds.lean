import Mathlib.Data.List.Forall2
import FluxKV.Tuner.Decide

/-! # Pools inside their bounds

The tuner bounds a step in threads, and the group of a role rounds it to whole shards. Where the shards have one size
and both bounds are whole shards, every step, every cap and every difference that is taken back is whole shards too,
nothing is rounded, and the pool stays inside its bounds with every shard served. A pool that has no room in either
direction is never changed.
-/

namespace FluxKV.Tuner

open Machine

namespace PoolState

/-- Inside the limits, in whole units. What a trial in flight has to go back to is inside the limits too. -/
structure Within (unit low high : ℕ) (bounds : Bounds) (ps : PoolState) : Prop where
  same : ps.bounds = bounds
  uniform : ps.pool.Uniform unit
  least : low ≤ ps.pool.size
  most : ps.pool.size ≤ high
  growCap : unit ∣ ps.grow.cap
  shrinkCap : unit ∣ ps.shrink.cap
  back : unit ∣ ps.sizeBefore
  grew : ps.trial = .grow → low ≤ ps.sizeBefore ∧ ps.sizeBefore < ps.pool.size
  shrank : ps.trial = .shrink → ps.pool.size < ps.sizeBefore ∧ ps.sizeBefore ≤ high

section Within

variable {cfg : TunerConfig} {unit low high : ℕ} {bounds : Bounds} {ps next : PoolState} {r : Readings}

theorem Within.step_eq (within : ps.Within unit low high bounds) (some : 0 < unit) : ps.step = unit := by
  rw [step, within.uniform.step_eq]
  exact Nat.max_eq_right some

theorem Within.closeWindow (within : ps.Within unit low high bounds) (steady : Bool) :
    (ps.closeWindow r steady).Within unit low high bounds where
  same := within.same
  uniform := within.uniform
  least := within.least
  most := within.most
  growCap := by
    rw [PoolState.closeWindow, Direction.cap_closeWindow]
    exact within.growCap
  shrinkCap := by
    rw [PoolState.closeWindow, Direction.cap_closeWindow]
    exact within.shrinkCap
  back := within.back
  grew := within.grew
  shrank := within.shrank

theorem Within.startTrial (within : ps.Within unit low high bounds) (some : 0 < unit) (floor : low ≤ bounds.min)
    (ceiling : bounds.max ≤ high) (wholeMin : unit ∣ bounds.min) (wholeMax : unit ∣ bounds.max)
    (positive : 0 < bounds.min) (started : ps.startTrial cfg r = .some next) : next.Within unit low high bounds := by
  have same := within.same
  have unitStep := within.step_eq some
  have size := within.uniform.dvd_size
  rcases startTrial_cases started with ⟨room, more, rfl⟩ | ⟨room, more, rfl⟩
  · have inside := growBy_le cfg ps r
    have whole : unit ∣ ps.growBy cfg r := by
      rw [← unitStep] at wholeMax size ⊢
      exact dvd_growBy (unitStep ▸ within.growCap) (same ▸ Nat.dvd_sub wholeMax size)
    have larger := within.uniform.size_grow whole more
    rw [same] at inside room
    refine ⟨same, within.uniform.grow, ?_, ?_, within.growCap, within.shrinkCap, size, ?_, by rintro ⟨⟩⟩
    · exact within.least.trans (larger ▸ Nat.le_add_right ..)
    · show (ps.pool.grow _).size ≤ high
      omega
    · intro _
      show low ≤ ps.pool.size ∧ ps.pool.size < (ps.pool.grow _).size
      exact ⟨within.least, by omega⟩
  · have inside := shrinkBy_le cfg ps r
    have whole : unit ∣ ps.shrinkBy cfg r := by
      rw [← unitStep] at wholeMin size ⊢
      exact dvd_shrinkBy (unitStep ▸ within.shrinkCap) (same ▸ Nat.dvd_sub size wholeMin)
    rw [same] at inside room
    have smaller := within.uniform.size_shrink whole more (by omega)
    refine ⟨same, within.uniform.shrink, ?_, ?_, within.growCap, within.shrinkCap, size, by rintro ⟨⟩, ?_⟩
    · show low ≤ (ps.pool.shrink _).size
      omega
    · exact (ps.pool.size_shrink_le _).trans within.most
    · intro _
      show (ps.pool.shrink _).size < ps.pool.size ∧ ps.pool.size ≤ high
      exact ⟨by omega, within.most⟩

/-- What was changed in whole units is taken back in whole units. -/
theorem Within.undo (within : ps.Within unit low high bounds) (inFlight : ps.trial ≠ .none) :
    ps.undo.Uniform unit ∧ low ≤ ps.undo.size ∧ ps.undo.size ≤ high := by
  have size := within.uniform.dvd_size
  unfold PoolState.undo
  cases trial : ps.trial with
  | none => exact (inFlight trial).elim
  | grow =>
    obtain ⟨least, grew⟩ := within.grew trial
    have kept := within.uniform.le_size_shrink (Nat.dvd_sub size within.back) (Nat.sub_pos_of_lt grew)
    refine ⟨within.uniform.shrink, ?_, (ps.pool.size_shrink_le _).trans within.most⟩
    show low ≤ (ps.pool.shrink _).size
    omega
  | shrink =>
    obtain ⟨shrank, most⟩ := within.shrank trial
    have back := within.uniform.size_grow (Nat.dvd_sub within.back size) (Nat.sub_pos_of_lt shrank)
    have least := within.least
    refine ⟨within.uniform.grow, ?_, ?_⟩
    · show low ≤ (ps.pool.grow _).size
      omega
    · show (ps.pool.grow _).size ≤ high
      omega

theorem Within.abandon (within : ps.Within unit low high bounds) (inFlight : ps.trial ≠ .none) :
    ps.abandon.Within unit low high bounds := by
  obtain ⟨uniform, least, most⟩ := within.undo inFlight
  exact ⟨within.same, uniform, least, most, within.growCap, within.shrinkCap, within.back, by rintro ⟨⟩, by rintro ⟨⟩⟩

/-- One direction has a new cap. -/
private theorem Within.learn (within : ps.Within unit low high bounds) (grew : Bool) (change : Direction → Direction)
    (whole : ∀ dir, unit ∣ (change dir).cap) : (ps.learn grew change).Within unit low high bounds := by
  cases grew with
  | false => exact { within with shrinkCap := whole _ }
  | true => exact { within with growCap := whole _ }

theorem Within.judge (within : ps.Within unit low high bounds) (some : 0 < unit) (inFlight : ps.trial ≠ .none) :
    (ps.judge cfg r).Within unit low high bounds := by
  have unitStep := within.step_eq some
  unfold PoolState.judge
  dsimp only
  split
  · have kept := within.learn (decide (ps.trial = .grow)) (·.kept r.gained) fun _ => Nat.dvd_zero _
    exact { kept with grew := by rintro ⟨⟩, shrank := by rintro ⟨⟩ }
  · obtain ⟨uniform, least, most⟩ := within.undo inFlight
    have failed (delta : ℕ) := within.learn (decide (ps.trial = .grow)) (·.failed cfg delta ps.step)
      fun _ => by
        rw [← unitStep]
        exact Direction.dvd_cap_failed ps.step_pos delta
    exact { failed _ with
      uniform := uniform, least := least, most := most, grew := by rintro ⟨⟩, shrank := by rintro ⟨⟩ }

theorem Within.turn (within : ps.Within unit low high bounds) (some : 0 < unit) (floor : low ≤ bounds.min)
    (ceiling : bounds.max ≤ high) (wholeMin : unit ∣ bounds.min) (wholeMax : unit ∣ bounds.max)
    (positive : 0 < bounds.min) (turn : ps.Turn cfg r next) : next.Within unit low high bounds := by
  cases turn with
  | rest => exact within
  | start _ started => exact within.startTrial some floor ceiling wholeMin wholeMax positive started
  | resume inFlight loaded =>
    obtain ⟨windows, settled, ended⟩ := continueTrial_cases cfg ps r loaded
    have counted : { ps with tputWindows := windows, settledWindows := settled }.Within unit low high bounds :=
      { within with }
    rcases ended with same | same | same <;> rw [same]
    · exact counted
    · exact counted.abandon inFlight
    · exact counted.judge some inFlight

end Within

/-- There is no room in either direction, so the pool is as it was at the start. -/
structure Frozen (first ps : PoolState) : Prop where
  bounds : ps.bounds = first.bounds
  pool : ps.pool = first.pool
  idle : ps.trial = .none
  full : first.bounds.max ≤ first.pool.size
  bare : first.pool.size ≤ first.bounds.min

theorem Frozen.turn {cfg : TunerConfig} {first ps next : PoolState} {r : Readings} (frozen : Frozen first ps)
    (turn : ps.Turn cfg r next) : Frozen first next := by
  cases turn with
  | rest => exact frozen
  | start _ started =>
    have full := frozen.full
    have bare := frozen.bare
    rcases startTrial_cases started with ⟨room, _⟩ | ⟨room, _⟩
    all_goals
      rw [frozen.bounds, frozen.pool] at room
      omega
  | resume inFlight => exact (inFlight frozen.idle).elim

/-- The bounds are whole steps, and the lower one is a step at least. -/
structure WholeBounds (first : PoolState) : Prop where
  min : first.step ∣ first.bounds.min
  max : first.step ∣ first.bounds.max
  pos : 0 < first.bounds.min

/-- What has to hold of a pool at the start: no room in either direction, or shards of one size and whole bounds. -/
def Aligned (first : PoolState) : Prop :=
  first.bounds.max ≤ first.pool.size ∧ first.pool.size ≤ first.bounds.min ∨
    first.pool.Uniform first.step ∧ first.WholeBounds

/-- The invariant of a pool. -/
def Sound (first ps : PoolState) : Prop :=
  ps.pool.role? = first.pool.role? ∧ (Frozen first ps ∨ first.WholeBounds ∧
    ps.Within first.step (min first.bounds.min first.pool.size) (max first.bounds.max first.pool.size) first.bounds)

/-- Inside the bounds, or between a bound and the size at the start, and every shard has a thread. -/
def Kept (first ps : PoolState) : Prop :=
  min first.bounds.min first.pool.size ≤ ps.pool.size ∧ ps.pool.size ≤ max first.bounds.max first.pool.size ∧
    ps.pool.Served

section Sound

variable {cfg : TunerConfig} {first ps next : PoolState} {r : Readings}

theorem role?_undo (ps : PoolState) : ps.undo.role? = ps.pool.role? := by
  unfold undo
  split
  · exact Pool.role?_shrink ..
  · exact Pool.role?_grow ..

theorem Turn.role?_eq (turn : ps.Turn cfg r next) : next.pool.role? = ps.pool.role? := by
  cases turn with
  | rest => rfl
  | start _ started =>
    rcases startTrial_cases started with ⟨_, _, rfl⟩ | ⟨_, _, rfl⟩
    · exact Pool.role?_grow ..
    · exact Pool.role?_shrink ..
  | resume _ loaded =>
    obtain ⟨windows, settled, ended⟩ := continueTrial_cases cfg ps r loaded
    rcases ended with same | same | same <;> rw [same]
    · exact role?_undo ps
    · unfold judge
      dsimp only
      split
      · unfold learn
        split <;> rfl
      · exact role?_undo ps

theorem Aligned.sound {pool : Pool} {bounds : Bounds} (first : ps = { pool := pool, bounds := bounds })
    (aligned : ps.Aligned) : Sound ps ps := by
  subst first
  refine ⟨rfl, aligned.imp ?_ ?_⟩
  · rintro ⟨full, bare⟩
    exact ⟨rfl, rfl, rfl, full, bare⟩
  · rintro ⟨uniform, whole⟩
    refine ⟨whole, rfl, uniform, Nat.min_le_right .., Nat.le_max_right .., ?_, ?_, ?_, by rintro ⟨⟩, by rintro ⟨⟩⟩
    all_goals exact Nat.dvd_zero _

theorem Sound.turn (sound : Sound first ps) (steady : Bool) (turn : (ps.closeWindow r steady).Turn cfg r next) :
    Sound first next := by
  obtain ⟨kind, sound⟩ := sound
  refine ⟨turn.role?_eq.trans kind, sound.imp (fun frozen => ?_) ?_⟩
  · have closed : Frozen first (ps.closeWindow r steady) := { frozen with }
    exact closed.turn turn
  · rintro ⟨whole, within⟩
    exact ⟨whole, (within.closeWindow steady).turn first.step_pos (Nat.min_le_left ..) (Nat.le_max_left ..) whole.min
      whole.max whole.pos turn⟩

theorem Sound.kept (sound : Sound first ps) (served : first.pool.Served)
    (staffed : first.pool.role?.isSome → 0 < first.pool.size) : Kept first ps := by
  obtain ⟨kind, frozen | ⟨whole, within⟩⟩ := sound
  · rw [Kept, frozen.pool]
    exact ⟨Nat.min_le_right .., Nat.le_max_right .., served⟩
  · refine ⟨within.least, within.most, ?_⟩
    cases pool : ps.pool with
    | io loops => trivial
    | sharded role live =>
      have some : 0 < first.pool.size := staffed (by rw [← kind, pool]; rfl)
      have size := (Nat.lt_min.mpr ⟨whole.pos, some⟩).trans_le within.least
      rw [← pool]
      exact within.uniform.served size

end Sound

end PoolState

namespace Options

variable (o : Options) (hardwareConcurrency : ℕ)

/-- The pools of a role start with no room in either direction, or the total they start with and both bounds can be
shared out among the shards, and the lower bound is not zero. -/
def Aligned (role : Role) : Prop :=
  let bounds := o.bounds hardwareConcurrency role
  let total := max o.shards (o.threads role)
  bounds.max ≤ total ∧ total ≤ bounds.min ∨
    o.shards ∣ total ∧ o.shards ∣ bounds.min ∧ o.shards ∣ bounds.max ∧ 0 < bounds.min

instance (role : Role) : Decidable (o.Aligned hardwareConcurrency role) := inferInstanceAs (Decidable (_ ∨ _))

variable {o hardwareConcurrency}

theorem size_poolGroup (role : Role) : (o.poolGroup hardwareConcurrency role).pool.size = max o.shards (o.threads role) :=
  Bucket.sum_perShard o.shards_pos

theorem step_poolGroup (role : Role) : (o.poolGroup hardwareConcurrency role).step = o.shards := by
  have length := Bucket.length_perShard (o.threads role) o.shards
  rw [PoolState.step, poolGroup, Pool.step, length]
  exact Nat.max_eq_right o.shards_pos

theorem Aligned.poolGroup {role : Role} (aligned : o.Aligned hardwareConcurrency role) :
    (o.poolGroup hardwareConcurrency role).Aligned := by
  unfold PoolState.Aligned
  rw [size_poolGroup, step_poolGroup]
  refine aligned.imp_right ?_
  rintro ⟨whole, wholeMin, wholeMax, positive⟩
  refine ⟨Bucket.uniform_perShard role o.shards_pos ?_, ?_, ?_, positive⟩
  · rwa [Bucket.sum_perShard o.shards_pos]
  · rwa [step_poolGroup]
  · rwa [step_poolGroup]

/-- The IO pool is pinned, or at least one loop is the lower bound. -/
theorem aligned_ioPool (o : Options) (hardwareConcurrency : ℕ) : (o.ioPool hardwareConcurrency).Aligned := by
  unfold PoolState.Aligned ioPool ioBounds
  dsimp only
  split
  · exact .inl ⟨le_rfl, le_rfl⟩
  · split
    · exact .inl ⟨le_rfl, le_rfl⟩
    · exact .inr ⟨rfl, one_dvd _, one_dvd _, Nat.one_pos⟩

end Options

namespace ThreadTuner

variable {cfg : TunerConfig} {s : ThreadTuner} {start : List PoolState} {o : Options} {hardwareConcurrency : ℕ}

theorem sound_decide (sound : start.Forall₂ PoolState.Sound s.pools) (w : Window) :
    start.Forall₂ PoolState.Sound (s.decide cfg w).pools := by
  obtain ⟨length, each⟩ := List.forall₂_iff_get.mp sound
  refine List.forall₂_iff_get.mpr ⟨length.trans length_decide.symm, fun i inside after => ?_⟩
  obtain ⟨ps, here, turn⟩ := turn_of_decide (List.getElem?_eq_getElem after)
  obtain ⟨before, rfl⟩ := List.getElem?_eq_some_iff.mp here
  exact (each i inside before).turn _ turn

theorem sound_enableAutoTune (aligned : ∀ role, o.Aligned hardwareConcurrency role) :
    (enableAutoTune o hardwareConcurrency).pools.Forall₂ PoolState.Sound (enableAutoTune o hardwareConcurrency).pools :=
  .cons ((o.aligned_ioPool _).sound rfl)
    (.cons ((aligned .readers).poolGroup.sound rfl) (.cons ((aligned .writers).poolGroup.sound rfl) .nil))

/-- If the pools of both roles are aligned, then whatever is measured, every pool stays inside its bounds, or between
a bound and the size it started with, and every shard keeps a reader and a writer. -/
theorem pools_kept_of_aligned (aligned : ∀ role, o.Aligned hardwareConcurrency role)
    (reached : Reach (step cfg) (enableAutoTune o hardwareConcurrency) s) :
    (enableAutoTune o hardwareConcurrency).pools.Forall₂ PoolState.Kept s.pools := by
  have sound : (enableAutoTune o hardwareConcurrency).pools.Forall₂ PoolState.Sound s.pools := by
    refine reached.invariant
      (P := fun s => (enableAutoTune o hardwareConcurrency).pools.Forall₂ PoolState.Sound s.pools)
      (sound_enableAutoTune aligned) ?_
    intro s w t sound taken
    cases taken
    exact sound_decide sound w
  have kept : ∀ role ps, PoolState.Sound (o.poolGroup hardwareConcurrency role) ps →
      PoolState.Kept (o.poolGroup hardwareConcurrency role) ps := fun role ps sound =>
    sound.kept (Bucket.served_perShard role _ _) fun _ => by
      rw [Options.size_poolGroup]
      exact o.shards_pos.trans_le (Nat.le_max_left ..)
  generalize s.pools = pools at sound ⊢
  obtain _ | ⟨io, _ | ⟨readers, _ | ⟨writers, rest⟩⟩⟩ := sound
  refine .cons (io.kept trivial (by rintro ⟨⟩)) (.cons (kept _ _ readers) (.cons (kept _ _ writers) ?_))
  cases rest
  exact .nil

end ThreadTuner

/-- The pools are hardly busy and settle at once; a trial is measured for two windows and `keep` is the verdict. -/
def quiet (keep : Bool) : Readings where
  growMoved := false
  shrinkMoved := false
  highBusy := false
  rampBusy := false
  peggedBusy := false
  asksAgain _ := false
  measure := 2
  settled := true
  keep := keep
  gained := false

/-- A window of a steady load. -/
def evenWindow (keep : Bool) : Window where
  loaded := true
  deep := false
  apart := false
  rising := false
  readings _ := quiet keep

/-- Two shards, and ceilings of one loop, four readers and four writers. -/
def twoShards (readers writers : ℕ) : Options where
  shards := 2
  shards_pos := Nat.two_pos
  ioThreads := 1
  readers := readers
  writers := writers
  maxIoThreads := 1
  maxReaders := 4
  maxWriters := 4
  tuneWritersOnly := false
  tunePools := none

theorem pools_kept_of_aligned_four : ∃ s, Reach (ThreadTuner.step {}) (enableAutoTune (twoShards 4 2) 1) s ∧
    s.pools.map PoolState.pool = [.io 1, .sharded .readers [1, 1], .sharded .writers [1, 1]] ∧
      (enableAutoTune (twoShards 4 2) 1).pools.Forall₂ PoolState.Kept s.pools := by
  obtain ⟨s, reached, pools⟩ : ∃ s, Reach (ThreadTuner.step {}) (enableAutoTune (twoShards 4 2) 1) s ∧
      s.pools.map PoolState.pool = [.io 1, .sharded .readers [1, 1], .sharded .writers [1, 1]] :=
    exists_reach (List.replicate 7 (evenWindow true)) (by decide +kernel)
  have aligned : ∀ role, (twoShards 4 2).Aligned 1 role := by
    intro role
    cases role <;> decide +kernel
  exact ⟨s, reached, pools, ThreadTuner.pools_kept_of_aligned aligned reached⟩

/-- Three readers on two shards, to be tuned between two and four: the first trial asks for one reader less, each
shard gives one, and one shard is left without a reader. -/
theorem shard_left_without_reader : ∃ s, Reach (ThreadTuner.step {}) (enableAutoTune (twoShards 3 2) 1) s ∧
    ((twoShards 3 2).readerBounds 1 = ⟨2, 4⟩ ∧ Bucket.perShard 3 2 = [2, 1]) ∧
      s.pools.map PoolState.pool = [.io 1, .sharded .readers [1, 0], .sharded .writers [1, 1]] ∧
        ¬ (enableAutoTune (twoShards 3 2) 1).pools.Forall₂ PoolState.Kept s.pools := by
  obtain ⟨s, reached, pools⟩ : ∃ s, Reach (ThreadTuner.step {}) (enableAutoTune (twoShards 3 2) 1) s ∧
      s.pools.map PoolState.pool = [.io 1, .sharded .readers [1, 0], .sharded .writers [1, 1]] :=
    exists_reach (List.replicate 4 (evenWindow true)) (by decide +kernel)
  refine ⟨s, reached, by decide, pools, fun kept => ?_⟩
  generalize s.pools = all at pools kept
  obtain _ | ⟨_, _ | ⟨⟨_, _, served⟩, _⟩⟩ := kept
  simp only [List.map_cons, List.cons.injEq] at pools
  rw [pools.2.1] at served
  exact Nat.lt_irrefl 0 (served 0 (by decide))

end FluxKV.Tuner
